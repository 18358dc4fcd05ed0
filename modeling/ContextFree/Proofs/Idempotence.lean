import ContextFree.Proofs.Absorption
import ContextFree.Proofs.Connected
import ContextFree.Proofs.PairShape
import ContextFree.Proofs.Run

/-!
Every stage is at rest on what it leaves. Each has a condition under which it finds nothing to do
and leaves the grammar as it is, in its order, and each brings that condition about.
-/

namespace ContextFree

namespace Alternative

theorem variants_nil (alternative : Alternative) : variants [] alternative = [alternative] := by
  induction alternative with
  | nil => rfl
  | cons s rest ih =>
    have hs : s.isKnown false [] = false := by cases s <;> rfl
    rw [variants, ih]
    simp [hs]

/-- At most one symbol, or two nonterminals: cutting into pairs has nothing to do. -/
def IsCut (alternative : Alternative) : Prop :=
  alternative.length ≤ 1 ∨ ∃ b c, alternative = [.nonterminal b, .nonterminal c]

theorem CutTo.isCut {old new : Alternative} (h : old.CutTo new) : new.IsCut := by
  rcases h with ⟨hshort, rfl⟩ | ⟨_, hpair⟩
  · exact .inl hshort
  · exact .inr hpair

namespace IsCut

variable {alternative : Alternative} {helpers : Helpers}

theorem length_le (h : alternative.IsCut) : alternative.length ≤ 2 := by
  rcases h with h | ⟨_, _, rfl⟩
  · omega
  · exact le_refl 2

theorem terminalWords_eq_nil (h : alternative.IsCut) :
    Helpers.terminalWords alternative = [] := by
  rw [List.eq_nil_iff_forall_not_mem]
  intro word hword
  obtain ⟨hlength, a, ha, rfl⟩ := Helpers.mem_terminalWords.mp hword
  rcases h with hshort | ⟨b, c, rfl⟩
  · omega
  · simp at ha

theorem wrap_eq_some (h : alternative.IsCut) : helpers.wrap alternative = some alternative := by
  rcases h with hshort | ⟨b, c, rfl⟩
  · exact Helpers.wrap_of_length (by omega)
  · rfl

end IsCut

end Alternative

/-- Rules that keep their alternatives stay as they are. -/
theorem changeRules_eq_self {f : Alternative → Option Alternative} {rules : List Rule}
    (hnodup : ∀ r ∈ rules, r.alternatives.Nodup)
    (h : ∀ r ∈ rules, ∀ alternative ∈ r.alternatives, f alternative = some alternative) :
    changeRules f rules = (true, rules) := by
  induction rules with
  | nil => rfl
  | cons r rest ih =>
    obtain ⟨hr, hrest⟩ := List.forall_mem_cons.mp h
    obtain ⟨hdups, hrestdups⟩ := List.forall_mem_cons.mp hnodup
    have hsame : r.alternatives.mapM f = some r.alternatives :=
      mapM_eq_some_iff.mpr (List.forall₂_same.mpr hr)
    simp only [changeRules, hsame, ih hrestdups hrest, eraseDups_of_nodup hdups]

namespace Grammar

variable {g : Grammar}

theorem nullable_eq_nil (hg : g.ruleNames.Nodup) (h : ∀ a, [] ∉ g.alternatives a) :
    g.nullable = [] := by
  rw [List.eq_nil_iff_forall_not_mem]
  intro a ha
  exact Derives.ne_nil h ((mem_nullable_iff hg).mp ha) (List.cons_ne_nil _ _) rfl

theorem withoutEpsilon_eq_self (hg : g.WellFormed) (h : ∀ a, [] ∉ g.alternatives a) :
    g.withoutEpsilon = g := by
  refine eq_of_alternatives hg.nodup_ruleNames rfl rfl rfl g.ruleNames_withoutEpsilon fun a _ => ?_
  have hkept : (g.alternatives a).filter (· != []) = g.alternatives a := by
    rw [List.filter_eq_self]
    intro alternative ha
    have hne : alternative ≠ [] := fun he => h a (he ▸ ha)
    simpa using hne
  rw [withoutEpsilon, alternatives_mapAlternatives _ rfl, nullable_eq_nil hg.nodup_ruleNames h,
    funext Alternative.variants_nil, List.flatMap_singleton', hkept]
  exact eraseDups_of_nodup (hg.nodup_of_name a)

theorem withoutRenamings_eq_self (hg : g.ruleNames.Nodup) (h : ∀ a b, ¬ g.Renames a b) :
    g.withoutRenamings = g := by
  have hnone : g.absorbAll g.ruleNames = (false, g) :=
    absorbAll_eq_self hg fun a _ => hasRenaming_eq_false_iff.mpr (h a)
  rw [withoutRenamings, hnone]
  rfl

theorem restrict_eq_self {names : List Name} (h : g.outside names = []) :
    g.restrict names = g := by
  simp [restrict, without, h]

theorem withoutUnproductive_eq_self (hg : g.WellFormed) (hnone : g.unproductive = [])
    (h : g.Fruitful) : g.withoutUnproductive = g := by
  have hnames := hg.nodup_ruleNames
  rw [withoutUnproductive, restrict_eq_self hnone]
  refine eq_of_alternatives hnames rfl rfl rfl (ruleNames_mapAlternatives _ _) fun a _ => ?_
  rw [alternatives_mapAlternatives _ List.filter_nil, List.filter_eq_self]
  exact fun alternative ha => (isKnown_productive_iff hnames).mpr (h a alternative ha)

theorem unproductive_withoutUnproductive (hg : g.WellFormed) :
    g.withoutUnproductive.unproductive = [] := by
  rw [List.eq_nil_iff_forall_not_mem]
  intro a ha
  obtain ⟨hmem, hne, hnone⟩ :=
    (mem_unproductive_iff ((keeps_withoutUnproductive g).wellFormed hg)).mp ha
  obtain ⟨w, hw⟩ := exists_generates_withoutUnproductive hg hmem hne
  exact hnone w hw

/-- A round that no alternative wants a helper of, and that changes none, leaves the grammar as it
is. -/
theorem round_eq_self {Key : Alternative → Prop} {wanted : Alternative → List (List Symbol)}
    {answer : Helpers → List Symbol → Option Name} {make : Helpers → Alternative → Helpers}
    {change : Helpers → Alternative → Option Alternative}
    (hs : Helpers.Serves wanted answer make change) (hl : Helpers.Linked make change)
    (hf : Helpers.Fits Key make change) (hg : g.WellFormed)
    (hnone : ∀ r ∈ g.rules, ∀ alternative ∈ r.alternatives, wanted alternative = [])
    (hsame : ∀ helpers, ∀ r ∈ g.rules, ∀ alternative ∈ r.alternatives,
      change helpers alternative = some alternative) :
    g.round make change = ⟨.ok [], g⟩ := by
  have hdemand : g.demand wanted = [] := by
    rw [List.eq_nil_iff_forall_not_mem]
    intro word hword
    obtain ⟨a, alternative, ha, hword⟩ := (mem_demand_iff hg).mp hword
    rw [(forall_alternatives_iff hg).mp hnone a alternative ha] at hword
    cases hword
  have hnames : (g.gather make).names = [] := by
    rw [names_gather hs hl hf hg, hdemand]
    rfl
  have hrules : (g.gather make).rules = [] := by
    rw [Helpers.rules, List.map_eq_nil_iff]
    exact List.map_eq_nil_iff.mp hnames
  simp only [round, changeRules_eq_self hg.nodup_alternatives (hsame _), hnames, hrules,
    List.append_nil, if_true]

theorem binarize_eq_self (hg : g.WellFormed)
    (h : ∀ r ∈ g.rules, ∀ alternative ∈ r.alternatives, alternative.IsCut) :
    g.binarize = ⟨.ok [], g⟩ := by
  have hcut : g.cutLong = ⟨.ok [], g⟩ := by
    apply round_eq_self Helpers.serves_cut Helpers.linked_cut Helpers.fits_cut hg
    · exact fun r hr x hx => Helpers.beginnings_of_length (h r hr x hx).length_le
    · exact fun _ r hr x hx => Helpers.cut_of_length (h r hr x hx).length_le
  have hwrap : g.wrapTerminals = ⟨.ok [], g⟩ := by
    apply round_eq_self Helpers.serves_wrap Helpers.linked_wrap Helpers.fits_wrap hg
    · exact fun r hr x hx => (h r hr x hx).terminalWords_eq_nil
    · exact fun _ r hr x hx => (h r hr x hx).wrap_eq_some
  simp only [binarize, hcut, hwrap]
  rfl

theorem isCut_binarize (hg : g.WellFormed) {names : List Name}
    (h : g.binarize.result = .ok names) :
    ∀ r ∈ g.binarize.grammar.rules, ∀ alternative ∈ r.alternatives, alternative.IsCut := by
  rw [forall_alternatives_iff hg.binarize]
  intro a alternative ha
  have hmem := hg.binarize.mem_nonterminals ha
  rw [nonterminals_binarize hg, ← eq_take_of_binarize hg h] at hmem
  rcases List.mem_append.mp hmem with hmem | hmem
  · obtain ⟨old, _, hcut⟩ := Forall₂.exists_left (forall₂_cutAndWrap hg h hmem) ha
    exact (cutTo_of_cutAndWrap hcut).isCut
  · obtain ⟨word, _, hword⟩ := (mem_names_binarize_iff hg h).mp hmem
    have hfinal := (mem_alternatives_helperFor_iff hg h hword).mp ha
    rcases shape_of_helperFor hword hfinal with ⟨t, rfl⟩ | hpair
    · exact .inl (le_refl 1)
    · exact .inr hpair

/-- A stage that went through has nothing to do on the grammar that it left: a second time it finds
nothing, makes nothing and leaves everything in its place. -/
theorem stages_are_idempotent (hg : g.WellFormed) :
    (∀ stage : Stage, (Operation.stage stage).succeeds g = true →
      stage.apply (stage.apply g) = stage.apply g) ∧
    g.withoutEpsilon.nullable = [] ∧
    g.withoutUnreachable.unreachable = [] ∧
    g.withoutUnproductive.unproductive = [] ∧
    ∀ names, g.binarize.result = .ok names → g.binarize.grammar.binarize.result = .ok [] := by
  have hpairs {names : List Name} (h : g.binarize.result = .ok names) :
      g.binarize.grammar.binarize = ⟨.ok [], g.binarize.grammar⟩ :=
    binarize_eq_self hg.binarize (isCut_binarize hg h)
  have hreached := (connected_iff hg.withoutUnreachable).mp (connected_withoutUnreachable hg)
  have hproductive := unproductive_withoutUnproductive hg
  refine ⟨fun stage h => ?_, ?_, hreached, hproductive, fun names h => by rw [hpairs h]⟩
  · cases stage with
    | epsilon =>
      exact withoutEpsilon_eq_self hg.withoutEpsilon g.nil_notMem_alternatives_withoutEpsilon
    | renamings =>
      refine withoutRenamings_eq_self hg.withoutRenamings.nodup_ruleNames fun a b hab => ?_
      exact Alternative.renamed?_eq_none_iff.mp (renamed?_of_mem_withoutRenamings hab) b rfl
    | reachability => exact restrict_eq_self hreached
    | productivity =>
      exact withoutUnproductive_eq_self ((keeps_withoutUnproductive g).wellFormed hg) hproductive
        (fruitful_withoutUnproductive hg)
    | binary =>
      obtain ⟨names, hnames⟩ := isOk_iff.mp h
      simp only [Stage.apply, hpairs hnames]
  · exact nullable_eq_nil hg.withoutEpsilon.nodup_ruleNames g.nil_notMem_alternatives_withoutEpsilon

/-- Cutting `mixed` makes three helpers, and cutting it again none. -/
theorem stages_are_idempotent_mixed :
    mixed.WellFormed ∧ mixed.binarize.result = .ok ["0", "1", "2"] ∧
      (∀ stage : Stage, stage.apply (stage.apply mixed) = stage.apply mixed) ∧
      mixed.nullable = ["S", "A"] ∧ mixed.withoutEpsilon.nullable = [] ∧
      mixed.binarize.grammar.binarize.result = .ok [] := by
  have hg := mixed_built.wellFormed
  obtain ⟨hagain, hnullable, _, _, hpairs⟩ := stages_are_idempotent hg
  refine ⟨hg, mixed_binarize_result, fun stage => hagain stage ?_, by cbv, hnullable,
    hpairs _ mixed_binarize_result⟩
  cases stage with
  | binary => rw [Operation.succeeds, mixed_binarize_result]; rfl
  | _ => rfl

end Grammar

end ContextFree
