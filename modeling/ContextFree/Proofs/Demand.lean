import ContextFree.Proofs.HelperWords

/-!
How many names a round needs: one for every word that some alternative wants a helper for, however
often it occurs. So the order of the rules decides which helper gets which name, but neither how
many helpers there are nor which names they take.
-/

namespace ContextFree

open Grammar

namespace Helpers

variable {g : Grammar} {helpers : Helpers} {Key : Alternative → Prop}

namespace Serves

variable {wanted : Alternative → List (List Symbol)} {answer : Helpers → List Symbol → Option Name}
  {make : Helpers → Alternative → Helpers} {change : Helpers → Alternative → Option Alternative}

/-- Every helper of a round stands for a word of one of the alternatives. -/
theorem names_foldl (hs : Serves wanted answer make change) (hl : Linked make change)
    (alternatives : List Alternative) :
    ∀ a ∈ (alternatives.foldl make helpers).names, a ∈ helpers.names ∨
      ∃ alternative ∈ alternatives, ∃ word ∈ wanted alternative,
        answer (alternatives.foldl make helpers) word = some a := by
  induction alternatives generalizing helpers with
  | nil => exact fun a ha => .inl ha
  | cons alternative rest ih =>
    intro a ha
    rcases ih a ha with ha | ⟨other, hother, word, hword, hanswer⟩
    · refine (hs.names_make a ha).imp_right ?_
      rintro ⟨word, hword, hanswer⟩
      exact ⟨alternative, List.mem_cons_self, word, hword,
        hs.answer_mono (hl.made_prefix_foldl _ rest) hanswer⟩
    · exact .inr ⟨other, List.mem_cons_of_mem _ hother, word, hword, hanswer⟩

/-- Every word of the alternatives has its helper in the end, unless names ran out. -/
theorem answered_foldl (hs : Serves wanted answer make change) (hl : Linked make change)
    (hf : Fits Key make change) (hv : Valid g Key helpers) {alternatives : List Alternative}
    (hknown : ∀ alternative ∈ alternatives, ∀ s ∈ alternative, g.HasSymbol s) :
    (∀ alternative ∈ alternatives, ∀ word ∈ wanted alternative,
      (answer (alternatives.foldl make helpers) word).isSome = true) ∨
      (alternatives.foldl make helpers).free = [] := by
  induction alternatives generalizing helpers with
  | nil => exact .inl (by simp)
  | cons alternative rest ih =>
    obtain ⟨halternative, hrest⟩ := List.forall_mem_cons.mp hknown
    have hmade : Valid g Key (make helpers alternative) := hf.valid hv halternative
    have hgrows := hl.made_prefix_foldl (make helpers alternative) rest
    rcases ih hmade hrest with hall | hfree
    · rcases hs.answered_make helpers alternative with hfirst | hfree
      · refine .inl (List.forall_mem_cons.mpr ⟨fun word hword => ?_, hall⟩)
        obtain ⟨a, ha⟩ := Option.isSome_iff_exists.mp (hfirst word hword)
        exact Option.isSome_iff_exists.mpr ⟨a, hs.answer_mono hgrows ha⟩
      · have hend := Valid.foldl (fun _ _ hv hs => hf.valid hv hs) hrest hmade
        exact .inr (hmade.free_eq_nil hend hgrows hfree)
    · exact .inr hfree

end Serves

end Helpers

theorem changeRules_complete_iff {f : Alternative → Option Alternative} {rules : List Rule} :
    (changeRules f rules).1 = true ↔
      ∀ r ∈ rules, ∀ alternative ∈ r.alternatives, (f alternative).isSome = true := by
  induction rules with
  | nil => simp [changeRules]
  | cons r rest ih =>
    rw [List.forall_mem_cons, ← ih, ← isSome_mapM_iff, changeRules]
    cases r.alternatives.mapM f <;> simp

namespace Grammar

variable {Key : Alternative → Prop} {wanted : Alternative → List (List Symbol)}
  {answer : Helpers → List Symbol → Option Name} {make : Helpers → Alternative → Helpers}
  {change : Helpers → Alternative → Option Alternative} {g : Grammar}

/-- The words that a round makes helpers for, each of them once. -/
def demand (g : Grammar) (wanted : Alternative → List (List Symbol)) : List (List Symbol) :=
  ((g.rules.flatMap Rule.alternatives).flatMap wanted).eraseDups

theorem nodup_demand (g : Grammar) (wanted : Alternative → List (List Symbol)) :
    (g.demand wanted).Nodup := nodup_eraseDups _

theorem mem_demand_iff (hg : g.WellFormed) {word : List Symbol} :
    word ∈ g.demand wanted ↔ ∃ a, ∃ alternative ∈ g.alternatives a, word ∈ wanted alternative := by
  simp only [demand, List.mem_eraseDups, List.mem_flatMap]
  constructor
  · rintro ⟨alternative, ⟨r, hr, ha⟩, hword⟩
    exact ⟨r.name, alternative, by rwa [alternatives_name hg.nodup_ruleNames hr], hword⟩
  · rintro ⟨a, alternative, ha, hword⟩
    obtain ⟨r, hr, _, hmem⟩ := exists_rule ha
    exact ⟨alternative, ⟨r, hr, hmem⟩, hword⟩

theorem hasSymbol_of_mem_demand (hs : Helpers.Serves wanted answer make change)
    (hg : g.WellFormed) {word : List Symbol} (hword : word ∈ g.demand wanted) :
    ∀ s ∈ word, g.HasSymbol s := by
  obtain ⟨a, alternative, ha, hword⟩ := (mem_demand_iff hg).mp hword
  exact fun s hmem => hg.hasSymbol_of_mem ha (hs.mem_of_mem_wanted hword s hmem)

/-- The names of the helpers are the answers for the words. -/
theorem mem_names_gather_iff (hs : Helpers.Serves wanted answer make change)
    (hl : Helpers.Linked make change) {a : Name} :
    a ∈ (g.gather make).names ↔
      ∃ word ∈ g.demand wanted, answer (g.gather make) word = some a := by
  constructor
  · intro ha
    obtain ⟨alternative, hmem, word, hword, hanswer⟩ :=
      (hs.names_foldl hl _ a ha).resolve_left (by simp [Helpers.names])
    exact ⟨word, List.mem_eraseDups.mpr (List.mem_flatMap.mpr ⟨alternative, hmem, hword⟩), hanswer⟩
  · rintro ⟨word, _, hanswer⟩
    exact hs.mem_names hanswer

theorem answer_injective (hs : Helpers.Serves wanted answer make change)
    (hf : Helpers.Fits Key make change) (hg : g.WellFormed) {word word' : List Symbol} {a : Name}
    (hword : word ∈ g.demand wanted) (hword' : word' ∈ g.demand wanted)
    (h : answer (g.gather make) word = some a) (h' : answer (g.gather make) word' = some a) :
    word = word' :=
  hs.injective (valid_gather hf hg) (hasSymbol_of_mem_demand hs hg hword)
    (hasSymbol_of_mem_demand hs hg hword') h h'

/-- A round goes through if every word has its helper. -/
theorem complete_iff_answered (hs : Helpers.Serves wanted answer make change) :
    (changeRules (change (g.gather make)) g.rules).1 = true ↔
      ∀ word ∈ g.demand wanted, (answer (g.gather make) word).isSome = true := by
  simp only [changeRules_complete_iff, hs.change_isSome_iff, demand, List.mem_eraseDups,
    List.mem_flatMap]
  constructor
  · rintro h word ⟨alternative, ⟨r, hr, ha⟩, hword⟩
    exact h r hr alternative ha word hword
  · exact fun h r hr alternative ha word hword => h word ⟨alternative, ⟨r, hr, ha⟩, hword⟩

section

variable (hs : Helpers.Serves wanted answer make change) (hl : Helpers.Linked make change)
  (hf : Helpers.Fits Key make change) (hg : g.WellFormed)
include hs hl hf hg

/-- Each helper stands for one word. -/
theorem filterMap_answer_perm :
    ((g.demand wanted).filterMap (answer (g.gather make))).Perm (g.gather make).names := by
  have hnodup : ((g.demand wanted).filterMap (answer (g.gather make))).Nodup := by
    refine List.pairwise_filterMap.mpr ((g.nodup_demand wanted).imp_of_mem ?_)
    rintro word word' hword hword' hne a ha _ ha' rfl
    exact hne (answer_injective hs hf hg hword hword' ha ha')
  rw [List.perm_ext_iff_of_nodup hnodup (valid_gather hf hg).nodup_names]
  intro a
  rw [List.mem_filterMap, mem_names_gather_iff hs hl]

/-- There are at most as many helpers as words, and as many only if every word has its helper. -/
theorem length_names_gather :
    (g.gather make).names.length ≤ (g.demand wanted).length ∧
      ((g.gather make).names.length = (g.demand wanted).length ↔
        ∀ word ∈ g.demand wanted, (answer (g.gather make) word).isSome = true) := by
  rw [← (filterMap_answer_perm hs hl hf hg).length_eq]
  exact ⟨List.length_filterMap_le _ _, List.filterMap_length_eq_length⟩

/-- Words go without a helper only if all names are taken. -/
theorem answered_or_names_gather :
    (∀ word ∈ g.demand wanted, (answer (g.gather make) word).isSome = true) ∨
      (g.gather make).names = g.freeNames := by
  have hknown : ∀ alternative ∈ g.rules.flatMap Rule.alternatives,
      ∀ s ∈ alternative, g.HasSymbol s := by
    intro alternative ha
    obtain ⟨r, hr, ha⟩ := List.mem_flatMap.mp ha
    exact hg.hasSymbol r hr alternative ha
  have hv := valid_gather hf hg
  refine (hs.answered_foldl hl hf (Helpers.valid_initial g Key) hknown).imp ?_ fun hfree => ?_
  · intro hall word hword
    obtain ⟨alternative, ha, hword⟩ := List.mem_flatMap.mp (List.mem_eraseDups.mp hword)
    exact hall alternative ha word hword
  · have hnames := hv.names_append_free
    rwa [show (g.gather make).free = [] from hfree, List.append_nil] at hnames

/-- Every word has its helper if the free names suffice. -/
theorem answered_iff_length_le :
    (∀ word ∈ g.demand wanted, (answer (g.gather make) word).isSome = true) ↔
      (g.demand wanted).length ≤ g.freeNames.length := by
  obtain ⟨hle, heq⟩ := length_names_gather hs hl hf hg
  constructor
  · intro h
    rw [← heq.mpr h, ← (valid_gather hf hg).names_append_free, List.length_append]
    exact Nat.le_add_right _ _
  · intro h
    rcases answered_or_names_gather hs hl hf hg with hall | hnames
    · exact hall
    · exact heq.mp (Nat.le_antisymm hle (hnames ▸ h))

/-- The helpers take the first free names, one for each word as far as there are so many. -/
theorem names_gather :
    (g.gather make).names = g.freeNames.take (g.demand wanted).length := by
  obtain ⟨hle, heq⟩ := length_names_gather hs hl hf hg
  rcases answered_or_names_gather hs hl hf hg with hall | hnames
  · rw [← heq.mpr hall, ← (valid_gather hf hg).names_append_free, List.take_left]
  · rw [hnames, List.take_of_length_le (hnames ▸ hle)]

/-- A round goes through exactly if there is a free name for every word, and takes the first ones
then. -/
theorem result_round :
    (g.round make change).result =
      if (g.demand wanted).length ≤ g.freeNames.length then
        .ok (g.freeNames.take (g.demand wanted).length)
      else .error .outOfNames := by
  have hcomplete : (changeRules (change (g.gather make)) g.rules).1 = true ↔
      (g.demand wanted).length ≤ g.freeNames.length :=
    (complete_iff_answered hs).trans (answered_iff_length_le hs hl hf hg)
  rw [← names_gather hs hl hf hg]
  simp only [round, hcomplete]

end

theorem length_demand_le (g : Grammar) (wanted : Alternative → List (List Symbol)) :
    (g.demand wanted).length ≤ ((g.rules.flatMap Rule.alternatives).flatMap wanted).length :=
  (List.Nodup.subperm (g.nodup_demand wanted) fun _ hword =>
    List.mem_eraseDups.mp hword).length_le

end Grammar

end ContextFree
