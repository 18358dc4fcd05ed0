import ContextFree.Proofs.HelperUse
import ContextFree.Proofs.Idempotence
import ContextFree.Proofs.Remainder

/-!
A conversion does not touch a grammar that has the normal form already. Had all stages run on it,
they would have taken its useless part out and done nothing else.
-/

namespace ContextFree

namespace Grammar

variable {g : Grammar}

/-- The nonterminals that are reached and derive a sentence. -/
def useful (g : Grammar) : List Name := g.reachable.filter g.productive.contains

/-- The grammar with its useful nonterminals and the start symbol, and with the alternatives whose
nonterminals all derive a sentence. -/
def usefulPart (g : Grammar) : Grammar :=
  (g.restrict g.useful).mapAlternatives (·.filter (Alternative.isKnown true g.productive))

/-- What is productive in the part that is reached is productive in the whole. -/
theorem mem_productive_withoutUnreachable_iff (hg : g.WellFormed) {a : Name}
    (ha : a ∉ g.unreachable) : a ∈ g.withoutUnreachable.productive ↔ a ∈ g.productive := by
  have hreached := hg.withoutUnreachable
  rw [mem_productive_iff hreached.nodup_ruleNames, mem_productive_iff hg.nodup_ruleNames]
  exact exists_congr fun w => generates_withoutUnreachable_iff hg ha

/-- What the two searches find useful is what they do not take out, one after the other. -/
theorem notMem_useless_iff (hg : g.WellFormed) {a : Name} (ha : a ∈ g.nonterminals) :
    (a ∉ g.unreachable ∧ a ∉ g.withoutUnreachable.unproductive) ↔
      a = g.start ∨ a ∈ g.reachable ∧ a ∈ g.productive := by
  by_cases hout : a ∈ g.unreachable
  · obtain ⟨_, hne, hnot⟩ := mem_outside.mp hout
    simp [hout, hne, hnot]
  · have hmem : a ∈ g.withoutUnreachable.nonterminals :=
      mem_nonterminals_withoutUnreachable.mpr ⟨ha, hout⟩
    have hproductive : a ∉ g.withoutUnreachable.unproductive ↔
        a = g.start ∨ a ∈ g.withoutUnreachable.productive := notMem_outside_iff hmem
    rw [hproductive, mem_productive_withoutUnreachable_iff hg hout]
    rcases (notMem_outside_iff ha).mp hout with rfl | hreached
    · simp [hout]
    · simp [hout, hreached]

theorem nonterminals_usefulPart (hg : g.WellFormed) :
    g.usefulPart.nonterminals = g.withoutUnreachable.withoutUnproductive.nonterminals := by
  refine Eq.trans (List.filter_congr fun a ha => ?_) List.filter_filter.symm
  rw [Bool.eq_iff_iff]
  simp only [List.contains_eq_mem, Bool.and_eq_true, Bool.not_eq_true', decide_eq_false_iff_not]
  calc a ∉ g.outside g.useful
      ↔ a = g.start ∨ a ∈ g.reachable ∧ a ∈ g.productive := by simp [notMem_outside_iff ha, useful]
    _ ↔ a ∉ g.unreachable ∧ a ∉ g.withoutUnreachable.unproductive :=
        (notMem_useless_iff hg ha).symm
    _ ↔ a ∉ g.withoutUnreachable.unproductive ∧ a ∉ g.unreachable := and_comm

theorem mem_nonterminals_usefulPart (hg : g.WellFormed) {a : Name} :
    a ∈ g.usefulPart.nonterminals ↔ a = g.start ∨
      Relation.ReflTransGen g.Mentions g.start a ∧ ∃ w, g.Generates a w := by
  have hreached := hg.withoutUnreachable
  have hkept := (prunedTo_withoutUnreachable hg).generates_iff a
  rw [nonterminals_usefulPart hg, mem_nonterminals_withoutUnproductive_iff hreached]
  refine or_congr_right ⟨?_, ?_⟩
  · intro h'
    obtain ⟨w, hw⟩ := h'
    have hmem := mem_nonterminals_of_generates hreached hw
    exact ⟨(mem_nonterminals_withoutUnreachable_iff hg).mp hmem, w, (hkept hmem w).mp hw⟩
  · intro h'
    obtain ⟨hchain, w, hw⟩ := h'
    have hmem := (mem_nonterminals_withoutUnreachable_iff hg).mpr hchain
    exact ⟨w, (hkept hmem w).mpr hw⟩

theorem alternatives_usefulPart {a : Name} (ha : a ∈ g.usefulPart.nonterminals) :
    g.usefulPart.alternatives a =
      (g.alternatives a).filter (Alternative.isKnown true g.productive) :=
  alternatives_restrict_filter (mem_nonterminals_restrict.mp ha).2

/-- Taking out what is not reached and then what derives nothing leaves the useful part. -/
theorem withoutUnproductive_withoutUnreachable (hg : g.WellFormed) :
    g.withoutUnreachable.withoutUnproductive = g.usefulPart := by
  have hreached := hg.withoutUnreachable
  have hwell := (keeps_withoutUnproductive g.withoutUnreachable).wellFormed hreached
  have hnonterminals := nonterminals_usefulPart hg
  have hnames : g.usefulPart.ruleNames = g.usefulPart.nonterminals := by
    rw [usefulPart, ruleNames_mapAlternatives, restrict, ruleNames_without, hg.ruleNames_eq]
    rfl
  refine (eq_of_alternatives hwell.nodup_ruleNames hnonterminals rfl rfl ?_ fun a ha => ?_).symm
  · rw [hnames, hnonterminals, hwell.ruleNames_eq]
  · rw [hwell.ruleNames_eq] at ha
    obtain ⟨hmem, hproductive⟩ := mem_nonterminals_withoutUnproductive.mp ha
    obtain ⟨_, hstays⟩ := mem_nonterminals_withoutUnreachable.mp hmem
    have hleft : g.withoutUnreachable.alternatives a = g.alternatives a :=
      alternatives_without_of_notMem hstays
    have hlast : g.withoutUnreachable.withoutUnproductive.alternatives a =
        (g.withoutUnreachable.alternatives a).filter
          (Alternative.isKnown true g.withoutUnreachable.productive) :=
      alternatives_restrict_filter hproductive
    rw [alternatives_usefulPart (hnonterminals ▸ ha), hlast, hleft]
    refine List.filter_congr fun alternative halternative => Bool.eq_iff_iff.mpr ?_
    rw [isKnown_productive_iff hg.nodup_ruleNames, isKnown_productive_iff hreached.nodup_ruleNames]
    refine exists_congr fun w => (derives_withoutUnreachable_iff hg fun b hb => ?_).symm
    exact notMem_unreachable_of_mentions hg hstays ⟨alternative, halternative, hb⟩

theorem prunedTo_usefulPart (hg : g.WellFormed) :
    PrunedTo g g.usefulPart (g.outside g.useful) := by
  have hsame := withoutUnproductive_withoutUnreachable hg
  have hkeeps := (keeps_withoutUnreachable g).trans (keeps_withoutUnproductive g.withoutUnreachable)
  rw [hsame] at hkeeps
  refine hkeeps.prunedTo hg rfl fun a ha w => ?_
  rw [← hsame] at ha ⊢
  have hmem := (mem_nonterminals_withoutUnproductive.mp ha).1
  calc g.withoutUnreachable.withoutUnproductive.Generates a w
      ↔ g.withoutUnreachable.Generates a w :=
        (prunedTo_withoutUnproductive hg.withoutUnreachable).generates_iff a ha w
    _ ↔ g.Generates a w := (prunedTo_withoutUnreachable hg).generates_iff a hmem w

/-- The alternatives that are left are made of symbols that derive something. -/
theorem mem_alternatives_usefulPart_iff (hg : g.WellFormed) {a : Name}
    (ha : a ∈ g.usefulPart.nonterminals) {alternative : Alternative} :
    alternative ∈ g.usefulPart.alternatives a ↔ alternative ∈ g.alternatives a ∧
      ∀ b, .nonterminal b ∈ alternative → ∃ w, g.Generates b w := by
  rw [alternatives_usefulPart ha, List.mem_filter, Alternative.isKnown_iff, forall_satisfies_iff]
  simp only [mem_productive_iff hg.nodup_ruleNames]

/-- The first two stages have nothing to do on the normal form. -/
theorem pruned_of_isNormal (hg : g.WellFormed) (h : g.isNormal = true) :
    g.pruned = g.usefulPart := by
  have hepsilon : g.withoutEpsilon = g :=
    withoutEpsilon_eq_self hg (nil_notMem_alternatives_of_isNormal h)
  have hrenamings : g.withoutRenamings = g := by
    refine withoutRenamings_eq_self hg.nodup_ruleNames fun a b hab => ?_
    rcases shape_of_isNormal h hab with ⟨_, h⟩ | ⟨_, _, h⟩ <;> cases h
  rw [pruned, hepsilon, hrenamings, withoutUnproductive_withoutUnreachable hg]

/-- The last stage has nothing to do on what is left of the normal form. -/
theorem binarize_usefulPart (hg : g.WellFormed) (h : g.isNormal = true) :
    g.usefulPart.binarize = ⟨.ok [], g.usefulPart⟩ := by
  have hwell := (prunedTo_usefulPart hg).wellFormed
  refine binarize_eq_self hwell ((forall_alternatives_iff hwell).mpr fun a alternative ha => ?_)
  have hmem := hwell.mem_nonterminals ha
  have hold := ((mem_alternatives_usefulPart_iff hg hmem).mp ha).1
  exact (shape_of_isNormal h hold).imp (fun ⟨_, ht⟩ => ht ▸ le_refl 1) id

/-- A conversion does not touch the normal form. All stages, run on it, would have gone through:
they would have found no nullable nonterminal, made no helper, and taken out what is useless. -/
theorem stages_on_normal_form (hg : g.WellFormed) (h : g.isNormal = true) :
    g.convert.grammar = g ∧
    (g.runSucceeds (Stage.all.map .stage) = true ∧ g.nullable = [] ∧
      g.pruned.binarize.result = .ok [] ∧ g.run (Stage.all.map .stage) = g.usefulPart) ∧
    (PrunedTo g g.usefulPart (g.outside g.useful) ∧
      (∀ a, a ∈ g.usefulPart.nonterminals ↔ a = g.start ∨
        (∃ form, Relation.ReflTransGen g.Rewrites [.nonterminal g.start] form ∧
          .nonterminal a ∈ form) ∧ ∃ w, g.Generates a w) ∧
      ∀ a ∈ g.usefulPart.nonterminals,
        (g.usefulPart.alternatives a).Sublist (g.alternatives a) ∧
        ∀ alternative, alternative ∈ g.usefulPart.alternatives a ↔
          alternative ∈ g.alternatives a ∧
            ∀ b, .nonterminal b ∈ alternative → ∃ w, g.Generates b w) ∧
    ∀ w, (g.run (Stage.all.map .stage)).Generates g.start w ↔ g.Generates g.start w := by
  have hnames := hg.nodup_ruleNames
  have hbinary : g.pruned.binarize = ⟨.ok [], g.usefulPart⟩ := by
    rw [pruned_of_isNormal hg h, binarize_usefulPart hg h]
  have hrun : g.run (Stage.all.map .stage) = g.usefulPart := by
    show g.pruned.binarize.grammar = _
    rw [hbinary]
  have hsucceeds : g.runSucceeds (Stage.all.map .stage) = true := by
    show (g.pruned.binarize.result.isOk && true) = true
    rw [hbinary]
    rfl
  have hpruned := prunedTo_usefulPart hg
  refine ⟨by rw [convert_of_isNormal h], ⟨hsucceeds, ?_, by rw [hbinary], hrun⟩,
    ⟨hpruned, fun a => ?_, fun a ha => ⟨?_, fun _ => mem_alternatives_usefulPart_iff hg ha⟩⟩,
    fun w => ?_⟩
  · exact nullable_eq_nil hnames (nil_notMem_alternatives_of_isNormal h)
  · rw [mem_nonterminals_usefulPart hg, chain_iff_exists_form]
  · rw [alternatives_usefulPart ha]
    exact List.filter_sublist
  · rw [hrun]
    exact hpruned.generates_iff g.start ((mem_nonterminals_usefulPart hg).mpr (.inl rfl)) w

/-- In normal form, with a part that is not reached and one that derives nothing, both of which
mention themselves. -/
def wild : Grammar where
  nonterminals := ["U", "N", "S", "A"]
  terminals := ["a", "b"]
  rules := [
    ⟨"U", [[.nonterminal "U", .nonterminal "S"], [.terminal "b"]]⟩,
    ⟨"N", [[.nonterminal "N", .nonterminal "A"], [.nonterminal "S", .nonterminal "N"]]⟩,
    ⟨"S", [[.nonterminal "S", .nonterminal "N"], [.nonterminal "A", .nonterminal "S"],
      [.terminal "b"]]⟩,
    ⟨"A", [[.terminal "a"]]⟩]
  start := "S"

/-- `U` derives a sentence and is not reached, `N` is reached and derives none. -/
theorem stages_on_wild :
    wild.WellFormed ∧ wild.isNormal = true ∧
      wild.run (Stage.all.map .stage) = ⟨["S", "A"], ["a", "b"],
        [⟨"S", [[.nonterminal "A", .nonterminal "S"], [.terminal "b"]]⟩,
          ⟨"A", [[.terminal "a"]]⟩], "S"⟩ ∧
      (∃ w, wild.Generates "U" w) ∧
      (∀ form, Relation.ReflTransGen wild.Rewrites [.nonterminal "S"] form →
        .nonterminal "U" ∉ form) ∧
      ∀ w, ¬ wild.Generates "N" w := by
  have hg : wild.WellFormed := by decide
  have hnormal : wild.isNormal = true := by decide
  obtain ⟨_, ⟨_, _, _, hrun⟩, ⟨_, hleft, _⟩, _⟩ := stages_on_normal_form hg hnormal
  have huseful : wild.usefulPart = ⟨["S", "A"], ["a", "b"],
      [⟨"S", [[.nonterminal "A", .nonterminal "S"], [.terminal "b"]]⟩,
        ⟨"A", [[.terminal "a"]]⟩], "S"⟩ := by cbv
  rw [huseful] at hrun hleft
  have hU : wild.Generates "U" ["b"] := .of_alternative (by decide) (derives_terminals _ ["b"])
  have hSN : [.nonterminal "S", .nonterminal "N"] ∈ wild.alternatives "S" := by decide
  have hN : wild.Rewrites [.nonterminal "S"] [.nonterminal "S", .nonterminal "N"] :=
    .replace [] [] hSN
  refine ⟨hg, hnormal, hrun, ⟨_, hU⟩, fun form hform hmem => ?_, fun w hw => ?_⟩
  · exact absurd ((hleft "U").mpr (.inr ⟨⟨form, hform, hmem⟩, _, hU⟩)) (by decide)
  · exact absurd ((hleft "N").mpr (.inr ⟨⟨_, .single hN, by simp⟩, w, hw⟩)) (by decide)

end Grammar

end ContextFree
