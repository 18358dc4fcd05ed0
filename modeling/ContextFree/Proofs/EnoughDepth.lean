import ContextFree.Grammar.WellFormed
import ContextFree.Proofs.Sampling
import ContextFree.Proofs.Saturation

/-!
The depth within which a productive nonterminal has a sentence. `saturate` finds the productive
nonterminals one by one, each by an alternative of names that were found before, so a level for each
of them is enough.
-/

namespace ContextFree

/-- A pass over the rules puts each of them on one of its two lists. -/
theorem length_sweep (terminals : Bool) (known : List Name) (rules : List Rule) :
    (sweep terminals known rules).1.length + (sweep terminals known rules).2.length =
      known.length + rules.length := by
  induction rules generalizing known with
  | nil => rfl
  | cons r rest ih =>
    rw [sweep]
    split
    · rw [ih]
      simp only [List.length_append, List.length_cons, List.length_nil]
      omega
    · have hrest := ih known
      simp only [List.length_cons]
      omega

theorem length_saturate_le (terminals : Bool) (known : List Name) (rules : List Rule) :
    (saturate terminals known rules).length ≤ known.length + rules.length := by
  fun_induction saturate terminals known rules with
  | case1 known rules swept hlt ih =>
    exact Nat.le_trans ih (Nat.le_of_eq (length_sweep terminals known rules))
  | case2 known rules swept hlt =>
    rw [← length_sweep terminals known rules]
    exact Nat.le_add_right _ _

namespace Grammar

variable {g : Grammar} {known : List Name} {rules : List Rule}

/-- The nonterminal derives a sentence within the depth. -/
def YieldsWithin (g : Grammar) (d : Nat) (a : Name) : Prop :=
  ∃ w, DerivesWithin g d [.nonterminal a] w

theorem YieldsWithin.mono {d e : Nat} {a : Name} (h : g.YieldsWithin d a) (hde : d ≤ e) :
    g.YieldsWithin e a :=
  h.imp fun _ hw => hw.mono hde

theorem exists_derivesWithin {d : Nat} {xs : List Symbol}
    (h : ∀ s ∈ xs, s.Satisfies true (g.YieldsWithin d)) : ∃ w, DerivesWithin g d xs w := by
  induction xs with
  | nil => exact ⟨[], .nil⟩
  | cons s rest ih =>
    obtain ⟨hs, hrest⟩ := List.forall_mem_cons.mp h
    obtain ⟨v, hv⟩ := ih hrest
    cases s with
    | terminal a => exact ⟨a :: v, .terminal hv⟩
    | nonterminal a =>
      obtain ⟨u, hu⟩ := hs
      exact ⟨u ++ v, derivesWithin_cons_iff.mpr ⟨u, v, rfl, hu, hv⟩⟩

/-- Each name that a pass finds needs one level more than there were names before it. -/
theorem yieldsWithin_sweep (hg : g.ruleNames.Nodup) (hrules : rules ⊆ g.rules)
    (hknown : ∀ a ∈ known, g.YieldsWithin known.length a) :
    ∀ a ∈ (sweep true known rules).1,
      g.YieldsWithin (sweep true known rules).1.length a := by
  induction rules generalizing known with
  | nil => exact hknown
  | cons r rest ih =>
    obtain ⟨hr, hrest⟩ := List.cons_subset.mp hrules
    rw [sweep]
    split
    next hisKnown =>
      apply ih hrest
      rw [List.length_append, List.length_singleton]
      intro a ha
      rcases List.mem_append.mp ha with ha | ha
      · exact (hknown a ha).mono (Nat.le_succ _)
      · obtain ⟨alternative, hmem, hs⟩ := Rule.isKnown_iff.mp hisKnown
        obtain ⟨w, hw⟩ := exists_derivesWithin fun s hs' => (hs s hs').imp hknown
        rw [← alternatives_name hg hr, ← List.mem_singleton.mp ha] at hmem
        exact ⟨w, derivesWithin_nonterminal_iff.mpr ⟨_, rfl, alternative, hmem, hw⟩⟩
    next => exact ih hrest hknown

theorem yieldsWithin_saturate (hg : g.ruleNames.Nodup) (hrules : rules ⊆ g.rules)
    (hknown : ∀ a ∈ known, g.YieldsWithin known.length a) :
    ∀ a ∈ saturate true known rules,
      g.YieldsWithin (saturate true known rules).length a := by
  fun_induction saturate true known rules with
  | case1 known rules swept hlt ih =>
    have hleft := (sweep_snd_sublist true known rules).subset
    exact ih (fun r hr => hrules (hleft hr)) (yieldsWithin_sweep hg hrules hknown)
  | case2 known rules swept hlt => exact yieldsWithin_sweep hg hrules hknown

/-- A depth of as many levels as there are nonterminals is enough for a sentence. -/
theorem mem_productive_iff_yieldsWithin (hg : g.WellFormed) {a : Name} :
    a ∈ g.productive ↔ g.YieldsWithin g.nonterminals.length a := by
  constructor
  · intro ha
    have hlength := length_saturate_le true [] g.rules
    rw [List.length_nil, Nat.zero_add, ← List.length_map Rule.name] at hlength
    have hwithin := yieldsWithin_saturate hg.nodup_ruleNames (fun _ hr => hr) (by simp) a ha
    exact hwithin.mono (hg.ruleNames_eq ▸ hlength)
  · rintro ⟨w, hw⟩
    exact (mem_productive_iff hg.nodup_ruleNames).mpr ⟨w, hw.derives⟩

/-- A nonterminal is productive exactly if a sentence of it can be drawn with as many levels as
there are nonterminals. If it is not, further levels do not help, whatever the source answers. -/
theorem productive_iff_drawn {ι σ : Type} [ChoiceSource σ] {sources : ι → σ} (hg : g.WellFormed)
    (hforced : ChoiceSource.ForcesAll sources)
    (hfew : ∀ r ∈ g.rules, r.alternatives.length < Words.wordCount) :
    (∀ a, a ∈ g.productive ↔
      ∃ i w s, g.generateFrom g.nonterminals.length a (sources i) = .ok w s) ∧
    ∀ a, a ∉ g.productive → ∀ (τ : Type) [ChoiceSource τ] (d : Nat) (s t : τ) (w : List Name),
      g.generateFrom d a s ≠ .ok w t := by
  constructor
  · intro a
    rw [mem_productive_iff_yieldsWithin hg, YieldsWithin]
    simp only [← drawn_iff_derivesWithin hforced hfew]
    exact exists_comm
  · intro a ha τ _ d s t w h
    have hw := (Generation.derivesWithin_of_derive h).derives
    exact ha ((mem_productive_iff hg.nodup_ruleNames).mpr ⟨w, hw⟩)

/-- Every productive nonterminal needs the one behind it, so `S` needs three levels of the four.
`W` derives nothing, although it has alternatives. -/
def ladder : Grammar where
  nonterminals := ["S", "A", "B", "W"]
  terminals := ["a", "b"]
  rules := [
    ⟨"S", [[.nonterminal "S", .nonterminal "A"], [.nonterminal "A", .terminal "a"]]⟩,
    ⟨"A", [[.nonterminal "B", .nonterminal "B"]]⟩,
    ⟨"B", [[.nonterminal "W"], [.terminal "b"], [.nonterminal "A"]]⟩,
    ⟨"W", [[.nonterminal "W", .nonterminal "B"], [.terminal "a", .nonterminal "W"]]⟩]
  start := "S"

theorem productive_ladder_iff_drawn :
    ladder.WellFormed ∧ (∀ r ∈ ladder.rules, r.alternatives.length < Words.wordCount) ∧
      ladder.productive = ["B", "A", "S"] ∧
      (∃ words seed w s, ladder.generateFrom 4 "S" (Words.ofSeed words seed) = .ok w s) ∧
      "W" ∉ ladder.productive ∧
      ∀ d (s t : Words) w, ladder.generateFrom d "W" s ≠ .ok w t := by
  have hwell : ladder.WellFormed := by decide
  have hfew : ∀ r ∈ ladder.rules, r.alternatives.length < Words.wordCount := by decide
  have hproductive : ladder.productive = ["B", "A", "S"] := by decide +kernel
  have hW : "W" ∉ ladder.productive := by
    rw [hproductive]
    decide
  obtain ⟨hdrawn, hnever⟩ := productive_iff_drawn hwell Words.forcesAll_ofSeed hfew
  simp only [Prod.exists] at hdrawn
  refine ⟨hwell, hfew, hproductive, (hdrawn "S").mp ?_, hW, hnever "W" hW Words⟩
  rw [hproductive]
  decide

end Grammar

end ContextFree
