import ContextFree.Grammar.Basic
import Mathlib.Data.List.Basic

/-! Grammars under other names for their nonterminals. The terminals keep theirs. -/

namespace ContextFree

def Symbol.relabel (f : Name → Name) : Symbol → Symbol
  | .terminal a => .terminal a
  | .nonterminal a => .nonterminal (f a)

def Alternative.relabel (f : Name → Name) (alternative : Alternative) : Alternative :=
  alternative.map (Symbol.relabel f)

def Rule.relabel (f : Name → Name) (r : Rule) : Rule :=
  ⟨f r.name, r.alternatives.map (Alternative.relabel f)⟩

def Grammar.relabel (f : Name → Name) (g : Grammar) : Grammar where
  nonterminals := g.nonterminals.map f
  terminals := g.terminals
  rules := g.rules.map (Rule.relabel f)
  start := f g.start

variable {f f' : Name → Name}

namespace Alternative

@[simp] theorem length_relabel (alternative : Alternative) :
    (alternative.relabel f).length = alternative.length := List.length_map _

@[simp] theorem relabel_nil : relabel f [] = [] := rfl

@[simp] theorem relabel_cons (s : Symbol) (rest : Alternative) :
    relabel f (s :: rest) = s.relabel f :: rest.relabel f := rfl

@[simp] theorem relabel_append (first second : Alternative) :
    relabel f (first ++ second) = first.relabel f ++ second.relabel f := List.map_append

/-- Only the nonterminals that occur matter. -/
theorem relabel_congr {alternative : Alternative}
    (h : ∀ a, .nonterminal a ∈ alternative → f a = f' a) :
    alternative.relabel f = alternative.relabel f' := by
  apply List.map_congr_left
  intro s hs
  cases s with
  | terminal a => rfl
  | nonterminal a => rw [Symbol.relabel, Symbol.relabel, h a hs]

theorem relabel_relabel (alternative : Alternative) :
    (alternative.relabel f').relabel f = alternative.relabel (f ∘ f') := by
  rw [relabel, relabel, List.map_map]
  apply List.map_congr_left
  intro s _
  cases s <;> rfl

@[simp] theorem relabel_id (alternative : Alternative) : alternative.relabel id = alternative := by
  have hsymbol : Symbol.relabel id = id := by
    funext s
    cases s <;> rfl
  rw [relabel, hsymbol, List.map_id]

theorem terminal_mem_relabel_iff {alternative : Alternative} {a : Name} :
    .terminal a ∈ alternative.relabel f ↔ .terminal a ∈ alternative := by
  rw [relabel, List.mem_map]
  constructor
  · rintro ⟨s, hs, h⟩
    cases s with
    | terminal b => rwa [← h]
    | nonterminal b => cases h
  · exact fun hs => ⟨_, hs, rfl⟩

end Alternative

theorem Symbol.relabel_injective (hf : Function.Injective f) :
    Function.Injective (Symbol.relabel f) := by
  intro s t h
  cases s <;> cases t <;> simp_all [Symbol.relabel, hf.eq_iff]

theorem Alternative.relabel_injective (hf : Function.Injective f) :
    Function.Injective (Alternative.relabel f) :=
  List.map_injective_iff.mpr (Symbol.relabel_injective hf)

theorem Grammar.alternatives_relabel (hf : Function.Injective f) (g : Grammar) (a : Name) :
    (g.relabel f).alternatives (f a) = (g.alternatives a).map (Alternative.relabel f) := by
  have hfind : (g.rules.map (Rule.relabel f)).find? (·.name == f a) =
      (g.rules.find? (·.name == a)).map (Rule.relabel f) := by
    rw [List.find?_map]
    congr 2
    funext r
    simp [Rule.relabel, hf.eq_iff]
  rw [alternatives, alternatives?, relabel, hfind, alternatives, alternatives?]
  cases g.rules.find? (·.name == a) <;> rfl

end ContextFree
