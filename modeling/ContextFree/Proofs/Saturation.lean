import ContextFree.NormalForm.Nullable
import ContextFree.NormalForm.Productive
import ContextFree.Proofs.Derivation

/-!
`saturate` finds the least set of names that is closed under the rules. So the nullable nonterminals
are those that derive the empty sentence, and the productive ones are those that derive any.
-/

namespace ContextFree

/-- Whether a symbol has a property of names, where `terminals` tells whether terminals do. -/
def Symbol.Satisfies (terminals : Bool) (P : Name → Prop) : Symbol → Prop
  | .terminal _ => terminals = true
  | .nonterminal a => P a

theorem Symbol.isKnown_iff {terminals : Bool} {known : List Name} {s : Symbol} :
    s.isKnown terminals known = true ↔ s.Satisfies terminals (· ∈ known) := by
  cases s <;> simp [Symbol.isKnown, Symbol.Satisfies]

theorem Alternative.isKnown_iff {terminals : Bool} {known : List Name}
    {alternative : Alternative} :
    alternative.isKnown terminals known = true ↔
      ∀ s ∈ alternative, s.Satisfies terminals (· ∈ known) := by
  simp [Alternative.isKnown, Symbol.isKnown_iff]

theorem Rule.isKnown_iff {terminals : Bool} {known : List Name} {r : Rule} :
    r.isKnown terminals known = true ↔
      ∃ alternative ∈ r.alternatives, ∀ s ∈ alternative, s.Satisfies terminals (· ∈ known) := by
  simp [Rule.isKnown, Alternative.isKnown_iff]

/-- A property of names that every rule hands on from the symbols of an alternative. -/
def HandedOn (terminals : Bool) (P : Name → Prop) (rules : List Rule) : Prop :=
  ∀ r ∈ rules, ∀ alternative ∈ r.alternatives,
    (∀ s ∈ alternative, s.Satisfies terminals P) → P r.name

theorem Symbol.Satisfies.imp {terminals : Bool} {P Q : Name → Prop} (hPQ : ∀ a, P a → Q a)
    {s : Symbol} (h : s.Satisfies terminals P) : s.Satisfies terminals Q := by
  cases s with
  | terminal _ => exact h
  | nonterminal a => exact hPQ a h

section

variable {terminals : Bool} {known : List Name} {rules : List Rule}

theorem subset_sweep (terminals : Bool) (known : List Name) (rules : List Rule) :
    known ⊆ (sweep terminals known rules).1 := by
  obtain ⟨found, heq, _⟩ := sweep_fst terminals known rules
  rw [heq]
  exact List.subset_append_left _ _

theorem sweep_sound {P : Name → Prop} (hP : HandedOn terminals P rules)
    (hknown : ∀ a ∈ known, P a) : ∀ a ∈ (sweep terminals known rules).1, P a := by
  induction rules generalizing known with
  | nil => exact hknown
  | cons r rest ih =>
    have hrest : HandedOn terminals P rest := fun r hr => hP r (List.mem_cons_of_mem _ hr)
    rw [sweep]
    split
    next hr =>
      obtain ⟨alternative, ha, hs⟩ := Rule.isKnown_iff.mp hr
      have hr : P r.name :=
        hP r List.mem_cons_self alternative ha fun s hmem => (hs s hmem).imp hknown
      apply ih hrest
      intro a ha
      rcases List.mem_append.mp ha with ha | ha
      · exact hknown a ha
      · rwa [List.mem_singleton.mp ha]
    next => exact ih hrest hknown

/-- A pass leaves no rule out: its name becomes known or it stays for the next pass. -/
theorem sweep_cover (terminals : Bool) (known : List Name) {r : Rule} (hr : r ∈ rules) :
    r.name ∈ (sweep terminals known rules).1 ∨ r ∈ (sweep terminals known rules).2 := by
  induction rules generalizing known with
  | nil => cases hr
  | cons s rest ih =>
    rw [sweep]
    split
    · rcases List.mem_cons.mp hr with rfl | hr
      · exact .inl (subset_sweep _ _ _ (by simp))
      · exact ih _ hr
    · rcases List.mem_cons.mp hr with rfl | hr
      · exact .inr List.mem_cons_self
      · exact (ih _ hr).imp_right (List.mem_cons_of_mem _)

/-- A pass that leaves all rules has found none of them known. -/
theorem not_isKnown_of_sweep
    (h : ¬ (sweep terminals known rules).2.length < rules.length) :
    (sweep terminals known rules).1 = known ∧ ∀ r ∈ rules, r.isKnown terminals known = false := by
  induction rules with
  | nil => simp [sweep]
  | cons r rest ih =>
    rw [sweep] at h ⊢
    split
    next hr =>
      rw [if_pos hr] at h
      have hle := (sweep_snd_sublist terminals (known ++ [r.name]) rest).length_le
      simp only [List.length_cons] at h
      omega
    next hr =>
      rw [if_neg hr] at h
      simp only [List.length_cons] at h
      obtain ⟨hfst, hrest⟩ := ih (by omega)
      constructor
      · exact hfst
      · intro s hs
        rcases List.mem_cons.mp hs with rfl | hs
        · simpa using hr
        · exact hrest s hs

theorem saturate_sound {P : Name → Prop} (hP : HandedOn terminals P rules)
    (hknown : ∀ a ∈ known, P a) : ∀ a ∈ saturate terminals known rules, P a := by
  fun_induction saturate terminals known rules with
  | case1 known rules swept hlt ih =>
    have hsub := (sweep_snd_sublist terminals known rules).subset
    exact ih (fun r hr => hP r (hsub hr)) (sweep_sound hP hknown)
  | case2 known rules swept hlt => exact sweep_sound hP hknown

theorem mem_saturate_of_known {a : Name} (ha : a ∈ known) :
    a ∈ saturate terminals known rules := by
  fun_induction saturate terminals known rules with
  | case1 known rules swept hlt ih => exact ih (subset_sweep _ _ _ ha)
  | case2 known rules swept hlt => exact subset_sweep _ _ _ ha

theorem saturate_closed (terminals : Bool) (known : List Name) (rules : List Rule) :
    HandedOn terminals (· ∈ saturate terminals known rules) rules := by
  induction known, rules using saturate.induct terminals with
  | case1 known rules swept hlt ih =>
    intro r hr alternative ha hs
    rw [saturate, if_pos hlt] at hs ⊢
    rcases sweep_cover terminals known hr with hname | hleft
    · exact mem_saturate_of_known hname
    · exact ih r hleft alternative ha hs
  | case2 known rules swept hlt =>
    intro r hr alternative ha hs
    obtain ⟨hfst, hnone⟩ := not_isKnown_of_sweep hlt
    rw [saturate, if_neg hlt, hfst] at hs
    exact absurd (Rule.isKnown_iff.mpr ⟨alternative, ha, hs⟩) (by simp [hnone r hr])

end

namespace Grammar

variable {g : Grammar}

theorem derives_empty_iff {xs : List Symbol} :
    Derives g xs [] ↔ ∀ s ∈ xs, s.Satisfies false (g.Generates · []) := by
  induction xs with
  | nil => simp
  | cons s xs ih =>
    rw [derives_cons_iff, List.forall_mem_cons, ← ih]
    constructor
    · intro h'
      obtain ⟨u, v, huv, hu, hv⟩ := h'
      obtain ⟨rfl, rfl⟩ := List.append_eq_nil_iff.mp huv.symm
      refine ⟨?_, hv⟩
      cases s with
      | terminal a => simp at hu
      | nonterminal a => exact hu
    · intro h'
      obtain ⟨hs, hxs⟩ := h'
      cases s with
      | terminal a => cases hs
      | nonterminal a => exact ⟨[], [], rfl, hs, hxs⟩

theorem exists_derives_iff {xs : List Symbol} :
    (∃ w, Derives g xs w) ↔ ∀ s ∈ xs, s.Satisfies true fun a => ∃ w, g.Generates a w := by
  induction xs with
  | nil => simp
  | cons s xs ih =>
    rw [List.forall_mem_cons, ← ih]
    constructor
    · intro h'
      obtain ⟨w, hw⟩ := h'
      obtain ⟨u, v, rfl, hu, hv⟩ := derives_cons_iff.mp hw
      refine ⟨?_, v, hv⟩
      cases s with
      | terminal a => rfl
      | nonterminal a => exact ⟨u, hu⟩
    · intro h'
      obtain ⟨hs, v, hv⟩ := h'
      cases s with
      | terminal a => exact ⟨_, .terminal hv⟩
      | nonterminal a =>
        obtain ⟨u, hu⟩ := hs
        exact ⟨_, hu.append hv⟩

theorem handedOn_generates_nil (hg : g.ruleNames.Nodup) :
    HandedOn false (g.Generates · []) g.rules := by
  intro r hr alternative ha hs
  have hmem : alternative ∈ g.alternatives r.name := by rwa [alternatives_name hg hr]
  exact .of_alternative hmem (derives_empty_iff.mpr hs)

theorem handedOn_generates (hg : g.ruleNames.Nodup) :
    HandedOn true (fun a => ∃ w, g.Generates a w) g.rules := by
  intro r hr alternative ha hs
  have hmem : alternative ∈ g.alternatives r.name := by rwa [alternatives_name hg hr]
  obtain ⟨w, hw⟩ := exists_derives_iff.mpr hs
  exact ⟨w, .of_alternative hmem hw⟩

/-- What a property needs to hold of all symbols in derivations of the empty sentence. -/
theorem Derives.satisfies_of_nil {P : Name → Prop} (hP : HandedOn false P g.rules)
    {xs : List Symbol} {w : List Name} (hw : Derives g xs w) (hnil : w = []) :
    ∀ s ∈ xs, s.Satisfies false P := by
  induction hw with
  | nil => simp
  | terminal _ _ => simp at hnil
  | nonterminal ha _ _ ihu ihv =>
    obtain ⟨hu, hv⟩ := List.append_eq_nil_iff.mp hnil
    obtain ⟨r, hr, rfl, hmem⟩ := exists_rule ha
    exact List.forall_mem_cons.mpr ⟨hP r hr _ hmem (ihu hu), ihv hv⟩

theorem Derives.satisfies {P : Name → Prop} (hP : HandedOn true P g.rules)
    {xs : List Symbol} {w : List Name} (hw : Derives g xs w) :
    ∀ s ∈ xs, s.Satisfies true P := by
  induction hw with
  | nil => simp
  | terminal _ ih => exact List.forall_mem_cons.mpr ⟨rfl, ih⟩
  | nonterminal ha _ _ ihu ihv =>
    obtain ⟨r, hr, rfl, hmem⟩ := exists_rule ha
    exact List.forall_mem_cons.mpr ⟨hP r hr _ hmem ihu, ihv⟩

theorem handedOn_mem_nullable (g : Grammar) : HandedOn false (· ∈ g.nullable) g.rules := by
  intro r hr alternative ha hs
  by_cases hempty : r.alternatives.contains [] = true
  · apply mem_saturate_of_known
    exact List.mem_map_of_mem (List.mem_filter.mpr ⟨hr, hempty⟩)
  · have hrest : r ∈ g.rules.filter (!·.alternatives.contains []) :=
      List.mem_filter.mpr ⟨hr, by simpa using hempty⟩
    exact saturate_closed _ _ _ r hrest alternative ha hs

/-- The nullable nonterminals are those that derive the empty sentence. -/
theorem mem_nullable_iff (hg : g.ruleNames.Nodup) {a : Name} :
    a ∈ g.nullable ↔ g.Generates a [] := by
  constructor
  · have hP := handedOn_generates_nil hg
    refine saturate_sound (fun r hr => hP r (List.mem_filter.mp hr).1) ?_ a
    intro a ha
    obtain ⟨r, hr, rfl⟩ := List.mem_map.mp ha
    obtain ⟨hr, hempty⟩ := List.mem_filter.mp hr
    exact hP r hr [] (by simpa using hempty) (by simp)
  · intro ha
    exact Derives.satisfies_of_nil (handedOn_mem_nullable g) ha rfl (.nonterminal a) (by simp)

/-- The productive nonterminals are those that derive a sentence. -/
theorem mem_productive_iff (hg : g.ruleNames.Nodup) {a : Name} :
    a ∈ g.productive ↔ ∃ w, g.Generates a w := by
  constructor
  · exact saturate_sound (handedOn_generates hg) (by simp) a
  · intro h'
    obtain ⟨w, hw⟩ := h'
    exact Derives.satisfies (saturate_closed true [] g.rules) hw (.nonterminal a) (by simp)

/-- An alternative derives a sentence if all its nonterminals do. -/
theorem isKnown_productive_iff (hg : g.ruleNames.Nodup) {alternative : Alternative} :
    alternative.isKnown true g.productive = true ↔ ∃ w, Derives g alternative w := by
  have hsame : (· ∈ g.productive) = fun a => ∃ w, g.Generates a w :=
    funext fun _ => propext (mem_productive_iff hg)
  rw [Alternative.isKnown_iff, exists_derives_iff, hsame]

end Grammar

end ContextFree
