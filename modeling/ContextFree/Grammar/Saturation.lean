import ContextFree.Grammar.Basic

/-!
Properties of nonterminals that spread from right-hand sides to left-hand sides: a nonterminal has
the property as soon as all symbols of one of its alternatives have it. `saturate` collects the
names in the order in which repeated passes over the rules find them.
-/

namespace ContextFree

/-- Whether a symbol is among the known ones. Whether terminals are is said by `terminals`. -/
def Symbol.isKnown (terminals : Bool) (known : List Name) : Symbol → Bool
  | .terminal _ => terminals
  | .nonterminal a => known.contains a

def Alternative.isKnown (terminals : Bool) (known : List Name) (alternative : Alternative) : Bool :=
  alternative.all (Symbol.isKnown terminals known)

def Rule.isKnown (terminals : Bool) (known : List Name) (r : Rule) : Bool :=
  r.alternatives.any (Alternative.isKnown terminals known)

/-- One pass over the rules. A name that becomes known counts at once for the rules behind it.
The second component holds the rules whose names are still unknown. -/
def sweep (terminals : Bool) : List Name → List Rule → List Name × List Rule
  | known, [] => (known, [])
  | known, r :: rest =>
    if r.isKnown terminals known then
      sweep terminals (known ++ [r.name]) rest
    else
      let (found, unknown) := sweep terminals known rest
      (found, r :: unknown)

/-- Passes over the rules of unknown names until one finds nothing. -/
def saturate (terminals : Bool) (known : List Name) (rules : List Rule) : List Name :=
  let swept := sweep terminals known rules
  if swept.2.length < rules.length then
    saturate terminals swept.1 swept.2
  else
    swept.1
termination_by rules.length

/-- A pass only adds names, and only names of the rules that it goes over. -/
theorem sweep_fst (terminals : Bool) (known : List Name) (rules : List Rule) :
    ∃ found, (sweep terminals known rules).1 = known ++ found ∧
      ∀ a ∈ found, ∃ r ∈ rules, r.name = a := by
  induction rules generalizing known with
  | nil => exact ⟨[], by simp [sweep]⟩
  | cons r rest ih =>
    rw [sweep]
    split
    · obtain ⟨found, heq, hmem⟩ := ih (known ++ [r.name])
      refine ⟨r.name :: found, by simp [heq], ?_⟩
      intro a ha
      rcases List.mem_cons.1 ha with rfl | ha
      · exact ⟨r, by simp⟩
      · obtain ⟨r', hr', rfl⟩ := hmem a ha
        exact ⟨r', by simp [hr']⟩
    · obtain ⟨found, heq, hmem⟩ := ih known
      refine ⟨found, by simpa using heq, ?_⟩
      intro a ha
      obtain ⟨r', hr', rfl⟩ := hmem a ha
      exact ⟨r', by simp [hr']⟩

/-- The rules that a pass leaves are some of those it went over, in their order. -/
theorem sweep_snd_sublist (terminals : Bool) (known : List Name) (rules : List Rule) :
    (sweep terminals known rules).2.Sublist rules := by
  induction rules generalizing known with
  | nil => simp [sweep]
  | cons r rest ih =>
    rw [sweep]
    split
    · exact (ih _).cons _
    · exact (ih _).cons_cons _

end ContextFree
