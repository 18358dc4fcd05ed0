import ContextFree.Grammar.Basic

/-!
What a grammar derives. A list of symbols derives a list of terminals if every nonterminal can be
replaced by one of its alternatives, again and again, until only these terminals are left. The
bounded form counts how deep the replacements are nested. What single replacements lead to from the
start symbol are the sentential forms.
-/

namespace ContextFree

namespace Grammar

/-- The symbols derive the sentence. -/
inductive Derives (g : Grammar) : List Symbol → List Name → Prop where
  | nil : Derives g [] []
  | terminal {a : Name} {rest : List Symbol} {w : List Name} :
      Derives g rest w → Derives g (.terminal a :: rest) (a :: w)
  | nonterminal {a : Name} {alternative : Alternative} {rest : List Symbol} {u w : List Name} :
      alternative ∈ g.alternatives a → Derives g alternative u → Derives g rest w →
      Derives g (.nonterminal a :: rest) (u ++ w)

/-- The symbols derive the sentence, and no path of the derivation has more than the given number
of nonterminals. -/
inductive DerivesWithin (g : Grammar) : Nat → List Symbol → List Name → Prop where
  | nil {d : Nat} : DerivesWithin g d [] []
  | terminal {d : Nat} {a : Name} {rest : List Symbol} {w : List Name} :
      DerivesWithin g d rest w → DerivesWithin g d (.terminal a :: rest) (a :: w)
  | nonterminal {d : Nat} {a : Name} {alternative : Alternative} {rest : List Symbol}
      {u w : List Name} :
      alternative ∈ g.alternatives a → DerivesWithin g d alternative u →
      DerivesWithin g (d + 1) rest w → DerivesWithin g (d + 1) (.nonterminal a :: rest) (u ++ w)

/-- One of the nonterminals is replaced by one of its alternatives. -/
inductive Rewrites (g : Grammar) : List Symbol → List Symbol → Prop where
  | replace (before : List Symbol) {a : Name} {alternative : Alternative} (after : List Symbol) :
      alternative ∈ g.alternatives a →
      Rewrites g (before ++ .nonterminal a :: after) (before ++ (alternative ++ after))

/-- The sentences of a nonterminal. -/
def Generates (g : Grammar) (a : Name) (w : List Name) : Prop := Derives g [.nonterminal a] w

variable {g : Grammar}

theorem Derives.append {xs ys : List Symbol} {u w : List Name} (hx : Derives g xs u)
    (hy : Derives g ys w) : Derives g (xs ++ ys) (u ++ w) := by
  induction hx with
  | nil => exact hy
  | terminal _ ih => exact .terminal ih
  | nonterminal ha hu _ _ ih =>
    rw [List.append_assoc]
    exact .nonterminal ha hu ih

theorem generates_iff {a : Name} {w : List Name} :
    g.Generates a w ↔ ∃ alternative ∈ g.alternatives a, Derives g alternative w := by
  constructor
  · intro h
    cases h with
    | nonterminal ha hu hrest =>
      cases hrest
      exact ⟨_, ha, by simpa using hu⟩
  · intro h'
    obtain ⟨alternative, ha, h⟩ := h'
    have := Derives.nonterminal ha h .nil
    simpa [Generates] using this

theorem DerivesWithin.derives {d : Nat} {xs : List Symbol} {w : List Name}
    (h : DerivesWithin g d xs w) : Derives g xs w := by
  induction h with
  | nil => exact .nil
  | terminal _ ih => exact .terminal ih
  | nonterminal ha _ _ ihu ihw => exact .nonterminal ha ihu ihw

theorem DerivesWithin.mono {d e : Nat} {xs : List Symbol} {w : List Name}
    (h : DerivesWithin g d xs w) (hde : d ≤ e) : DerivesWithin g e xs w := by
  induction h generalizing e with
  | nil => exact .nil
  | terminal _ ih => exact .terminal (ih hde)
  | nonterminal ha _ _ ihu ihw =>
    obtain ⟨e, rfl⟩ : ∃ k, e = k + 1 := ⟨e - 1, by omega⟩
    exact .nonterminal ha (ihu (by omega)) (ihw (by omega))

/-- Every derivation stays within some depth. -/
theorem derives_iff_exists_derivesWithin {xs : List Symbol} {w : List Name} :
    Derives g xs w ↔ ∃ d, DerivesWithin g d xs w := by
  refine ⟨fun h => ?_, fun ⟨_, h⟩ => h.derives⟩
  induction h with
  | nil => exact ⟨0, .nil⟩
  | terminal _ ih =>
    obtain ⟨d, h⟩ := ih
    exact ⟨d, .terminal h⟩
  | nonterminal ha _ _ ihu ihw =>
    obtain ⟨d, hu⟩ := ihu
    obtain ⟨e, hw⟩ := ihw
    exact ⟨max d e + 1,
      .nonterminal ha (hu.mono (by omega)) (hw.mono (by omega))⟩

end Grammar

end ContextFree
