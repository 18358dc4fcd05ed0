import ContextFree.Proofs.EraseDups
import ContextFree.Proofs.Helpers
import ContextFree.Proofs.WellFormed

/-!
A round keeps the sentences of the nonterminals that the grammar had before. It is seen as two
steps: adding the helpers, which no old nonterminal mentions yet, and changing the rules, which
replaces symbols by helpers that stand for them.
-/

namespace ContextFree

/-- What a round makes of a rule. It may leave the rule as it was, or without alternatives. -/
inductive Rule.Change (f : Alternative → Option Alternative) (r : Rule) : Rule → Prop where
  | kept : Change f r r
  | emptied : Change f r { r with alternatives := [] }
  | changed {alternatives : List Alternative} :
      List.Forall₂ (fun x y => f x = some y) r.alternatives alternatives →
      Change f r { r with alternatives := alternatives.eraseDups }

namespace Rule.Change

variable {f : Alternative → Option Alternative} {r r' : Rule}

theorem name_eq (h : Change f r r') : r'.name = r.name := by
  cases h <;> rfl

theorem nodup (h : Change f r r') (hr : r.alternatives.Nodup) : r'.alternatives.Nodup := by
  cases h with
  | kept => exact hr
  | emptied => exact List.nodup_nil
  | changed _ => exact nodup_eraseDups _

/-- Every alternative that is left comes from an old one. -/
theorem exists_of_mem (h : Change f r r') {alternative : Alternative}
    (ha : alternative ∈ r'.alternatives) :
    alternative ∈ r.alternatives ∨ ∃ old ∈ r.alternatives, f old = some alternative := by
  cases h with
  | kept => exact .inl ha
  | emptied => cases ha
  | changed hf =>
    obtain ⟨old, hold, h⟩ := Forall₂.exists_left hf (List.mem_eraseDups.mp ha)
    exact .inr ⟨old, hold, h⟩

end Rule.Change

theorem forall₂_changeRules (f : Alternative → Option Alternative) (rules : List Rule) :
    List.Forall₂ (Rule.Change f) rules (changeRules f rules).2 := by
  have hkept (rest : List Rule) : List.Forall₂ (Rule.Change f) rest rest :=
    List.forall₂_same.mpr fun _ _ => .kept
  induction rules with
  | nil => exact .nil
  | cons r rest ih =>
    rw [changeRules]
    split
    next => exact .cons .emptied (hkept rest)
    next alternatives h => exact .cons (.changed (mapM_eq_some_iff.mp h)) ih

/-- When nothing fails, every alternative of every rule is changed. -/
theorem forall₂_changeRules_of_complete {f : Alternative → Option Alternative}
    {rules : List Rule} (h : (changeRules f rules).1 = true) :
    List.Forall₂
      (fun r r' => ∃ alternatives,
        List.Forall₂ (fun x y => f x = some y) r.alternatives alternatives ∧
          r' = { r with alternatives := alternatives.eraseDups })
      rules (changeRules f rules).2 := by
  induction rules with
  | nil => exact .nil
  | cons r rest ih =>
    rw [changeRules] at h ⊢
    split at h
    next => cases h
    next alternatives heq =>
      exact .cons ⟨alternatives, mapM_eq_some_iff.mp heq, rfl⟩ (ih h)

theorem map_name_changeRules (f : Alternative → Option Alternative) (rules : List Rule) :
    (changeRules f rules).2.map Rule.name = rules.map Rule.name := by
  have h := forall₂_changeRules f rules
  generalize (changeRules f rules).2 = changed at h
  induction h with
  | nil => rfl
  | cons hr _ ih => rw [List.map_cons, List.map_cons, hr.name_eq, ih]

namespace Grammar

variable {g : Grammar} {Key : Alternative → Prop} {helpers : Helpers}
  {make : Helpers → Alternative → Helpers}
  {change : Helpers → Alternative → Option Alternative} {names : List Name}

/-- The grammar with the helpers behind its own nonterminals. -/
def withHelpers (g : Grammar) (helpers : Helpers) : Grammar :=
  { g with
    nonterminals := g.nonterminals ++ helpers.names
    rules := g.rules ++ helpers.rules }

/-- The grammar that a round leaves. -/
theorem grammar_round (g : Grammar) (make : Helpers → Alternative → Helpers)
    (change : Helpers → Alternative → Option Alternative) :
    (g.round make change).grammar =
      { g with rules := (changeRules (change (g.gather make)) g.rules).2 }.withHelpers
        (g.gather make) := rfl

theorem rules_round (g : Grammar) (make : Helpers → Alternative → Helpers)
    (change : Helpers → Alternative → Option Alternative) :
    (g.round make change).grammar.rules =
      (changeRules (change (g.gather make)) g.rules).2 ++ (g.gather make).rules := rfl

theorem result_round_eq_ite (g : Grammar) (make : Helpers → Alternative → Helpers)
    (change : Helpers → Alternative → Option Alternative) :
    (g.round make change).result =
      if (changeRules (change (g.gather make)) g.rules).1 then .ok (g.gather make).names
      else .error .outOfNames := rfl

theorem result_round_eq_ok_iff :
    (g.round make change).result = .ok names ↔
      (changeRules (change (g.gather make)) g.rules).1 = true ∧ names = (g.gather make).names := by
  rw [result_round_eq_ite]
  split_ifs with h <;> simp [h, eq_comm]

/-- A round can only run out of names. -/
theorem eq_outOfNames_of_round {fault : GrammarError}
    (h : (g.round make change).result = .error fault) : fault = .outOfNames := by
  rw [result_round_eq_ite] at h
  split_ifs at h
  exact (Except.error.inj h).symm

theorem hasSymbol_withHelpers {s : Symbol} (h : helpers.Knows g s) :
    (g.withHelpers helpers).HasSymbol s := by
  rcases h with h | ⟨a, ha, rfl⟩
  · exact h.mono (List.Subset.refl _) fun a _ ha => List.mem_append_left _ ha
  · exact List.mem_append_right _ ha

theorem mem_withHelpers_rules {r : Rule} :
    r ∈ (g.withHelpers helpers).rules ↔
      r ∈ g.rules ∨ ∃ entry ∈ helpers.made, r = ⟨entry.2, [entry.1]⟩ := by
  simp [withHelpers, Helpers.rules, eq_comm]

theorem valid_gather (hf : Helpers.Fits Key make change) (hg : g.WellFormed) :
    Helpers.Valid g Key (g.gather make) := by
  have hs : ∀ alternative ∈ g.rules.flatMap Rule.alternatives,
      ∀ s ∈ alternative, g.HasSymbol s := by
    intro alternative ha
    obtain ⟨r, hr, ha⟩ := List.mem_flatMap.mp ha
    exact hg.hasSymbol r hr alternative ha
  exact .foldl (fun _ _ hv hs => hf.valid hv hs) hs (Helpers.valid_initial g Key)

/-- Putting in helpers and changing rules with them keeps a grammar well-formed, whether the
changes go through or not. -/
theorem WellFormed.withHelpers (hf : Helpers.Fits Key make change) (hg : g.WellFormed)
    (hv : Helpers.Valid g Key helpers) {rules : List Rule}
    (hrules : List.Forall₂ (Rule.Change (change helpers)) g.rules rules)
    (hnames : rules.map Rule.name = g.ruleNames) :
    ({ g with rules }.withHelpers helpers).WellFormed := by
  have hadded : helpers.rules.map Rule.name = helpers.names := by
    simp [Helpers.rules, Helpers.names]
  have hnodup : (helpers.rules.map Rule.name).Nodup := hadded ▸ hv.nodup_names
  refine hg.extend rules helpers.rules rfl rfl (hadded ▸ rfl) rfl hnames hnodup ?_ ?_ ?_
  · intro r hr
    exact hv.mem_freeNames (hadded ▸ List.mem_map_of_mem hr)
  · intro r hr alternative ha s hs
    apply hasSymbol_withHelpers (g := { g with rules })
    rcases mem_withHelpers_rules.mp hr with hr | ⟨entry, hentry, rfl⟩
    · obtain ⟨old, hold, hchange⟩ := Forall₂.exists_left hrules hr
      rcases hchange.exists_of_mem ha with ha | ⟨before, hbefore, h⟩
      · exact .inl (hg.hasSymbol old hold alternative ha s hs)
      · exact hf.knows h (fun t ht => .inl (hg.hasSymbol old hold before hbefore t ht)) s hs
    · rw [List.mem_singleton.mp ha] at hs
      exact hv.knows entry hentry s hs
  · intro r hr
    rcases mem_withHelpers_rules.mp hr with hr | ⟨entry, _, rfl⟩
    · obtain ⟨old, hold, hchange⟩ := Forall₂.exists_left hrules hr
      exact hchange.nodup (hg.nodup_alternatives old hold)
    · exact List.nodup_singleton _

/-- The first of the two steps: the helpers are there, and no rule mentions them yet. -/
theorem WellFormed.withHelpers_gather (hf : Helpers.Fits Key make change) (hg : g.WellFormed) :
    (g.withHelpers (g.gather make)).WellFormed :=
  hg.withHelpers hf (valid_gather hf hg) (List.forall₂_same.mpr fun _ _ => .kept) rfl

theorem WellFormed.round (hf : Helpers.Fits Key make change) (hg : g.WellFormed) :
    (g.round make change).grammar.WellFormed :=
  hg.withHelpers hf (valid_gather hf hg) (forall₂_changeRules _ _) (map_name_changeRules _ _)

theorem mem_nonterminals_round {a : Name} :
    a ∈ (g.round make change).grammar.nonterminals ↔
      a ∈ g.nonterminals ∨ a ∈ (g.gather make).names := List.mem_append

theorem hasSymbol_round {s : Symbol} (h : (g.gather make).Knows g s) :
    (g.round make change).grammar.HasSymbol s := by
  rcases h with h | ⟨a, ha, rfl⟩
  · exact h.mono (List.Subset.refl _) fun a _ ha => mem_nonterminals_round.mpr (.inl ha)
  · exact mem_nonterminals_round.mpr (.inr ha)

/-- What a round that goes through leaves: changed alternatives, and those of the helpers. -/
theorem mem_alternatives_round_iff (hf : Helpers.Fits Key make change) (hg : g.WellFormed)
    (hround : (g.round make change).result = .ok names) {a : Name} {alternative : Alternative} :
    alternative ∈ (g.round make change).grammar.alternatives a ↔
      (∃ old ∈ g.alternatives a, change (g.gather make) old = some alternative) ∨
        (alternative, a) ∈ (g.gather make).made := by
  have hrules := forall₂_changeRules_of_complete (result_round_eq_ok_iff.mp hround).1
  rw [mem_alternatives (hg.round hf).nodup_ruleNames, grammar_round]
  constructor
  · intro h'
    obtain ⟨r, hr, rfl, ha⟩ := h'
    rcases mem_withHelpers_rules.mp hr with hr | ⟨entry, hentry, rfl⟩
    · obtain ⟨old, hold, alternatives, hchange, rfl⟩ := Forall₂.exists_left hrules hr
      obtain ⟨before, hbefore, h⟩ := Forall₂.exists_left hchange (List.mem_eraseDups.mp ha)
      exact .inl ⟨before, (mem_alternatives hg.nodup_ruleNames).mpr ⟨old, hold, rfl, hbefore⟩, h⟩
    · rw [List.mem_singleton.mp ha]
      exact .inr hentry
  · rintro (⟨before, hbefore, h⟩ | hentry)
    · obtain ⟨old, hold, rfl, hmem⟩ := exists_rule hbefore
      obtain ⟨_, hnew, alternatives, hchange, rfl⟩ := Forall₂.exists_right hrules hold
      obtain ⟨after, hafter, hafter'⟩ := Forall₂.exists_right hchange hmem
      obtain rfl := Option.some.inj (h.symm.trans hafter')
      exact ⟨_, mem_withHelpers_rules.mpr (.inl hnew), rfl, List.mem_eraseDups.mpr hafter⟩
    · exact ⟨_, mem_withHelpers_rules.mpr (.inr ⟨_, hentry, rfl⟩), rfl, List.mem_singleton_self _⟩

/-- A round that goes through changes the alternatives of the nonterminals that were there. -/
theorem mem_alternatives_round_of_mem (hf : Helpers.Fits Key make change) (hg : g.WellFormed)
    (hround : (g.round make change).result = .ok names) {a : Name} (ha : a ∈ g.nonterminals)
    {alternative : Alternative} :
    alternative ∈ (g.round make change).grammar.alternatives a ↔
      ∃ old ∈ g.alternatives a, change (g.gather make) old = some alternative := by
  rw [mem_alternatives_round_iff hf hg hround, or_iff_left]
  intro hentry
  exact (valid_gather hf hg).notMem_nonterminals (List.mem_map_of_mem hentry) ha

/-- The only alternative of a helper. -/
theorem mem_alternatives_round_of_made (hf : Helpers.Fits Key make change) (hg : g.WellFormed)
    (hround : (g.round make change).result = .ok names) {key : Alternative} {a : Name}
    (hentry : (key, a) ∈ (g.gather make).made) {alternative : Alternative} :
    alternative ∈ (g.round make change).grammar.alternatives a ↔ alternative = key := by
  have hv := valid_gather hf hg
  have hnew : a ∉ g.nonterminals := hv.notMem_nonterminals (List.mem_map_of_mem hentry)
  rw [mem_alternatives_round_iff hf hg hround, or_iff_right]
  · exact ⟨fun hother => hv.key_unique hother hentry, fun heq => heq ▸ hentry⟩
  · rintro ⟨old, hold, _⟩
    exact hnew (hg.mem_nonterminals hold)

theorem exists_changed (hround : (g.round make change).result = .ok names) {r : Rule}
    (hr : r ∈ g.rules) {alternative : Alternative} (ha : alternative ∈ r.alternatives) :
    ∃ changed, change (g.gather make) alternative = some changed := by
  have hrules := forall₂_changeRules_of_complete (result_round_eq_ok_iff.mp hround).1
  obtain ⟨_, _, alternatives, hchange, _⟩ := Forall₂.exists_right hrules hr
  obtain ⟨changed, _, h⟩ := Forall₂.exists_right hchange ha
  exact ⟨changed, h⟩

/-- A round that goes through leaves every alternative in a changed form. -/
theorem exists_mem_changed (hf : Helpers.Fits Key make change) (hg : g.WellFormed)
    (hround : (g.round make change).result = .ok names) {a : Name} {alternative : Alternative}
    (ha : alternative ∈ g.alternatives a) :
    ∃ changed ∈ (g.round make change).grammar.alternatives a,
      change (g.gather make) alternative = some changed := by
  obtain ⟨r, hr, rfl, hmem⟩ := exists_rule ha
  obtain ⟨changed, h⟩ := exists_changed hround hr hmem
  exact ⟨changed, (mem_alternatives_round_iff hf hg hround).mpr (.inl ⟨alternative, ha, h⟩), h⟩

/-- The shape that a round gives to all alternatives, those of the helpers included. -/
theorem forall_alternatives_round (hf : Helpers.Fits Key make change) (hg : g.WellFormed)
    (hround : (g.round make change).result = .ok names)
    {P Q : Alternative → Prop} (hP : ∀ r ∈ g.rules, ∀ alternative ∈ r.alternatives, P alternative)
    (hchange : ∀ helpers alternative changed, change helpers alternative = some changed →
      P alternative → Q changed)
    (hkey : ∀ alternative, Key alternative → Q alternative) :
    ∀ r ∈ (g.round make change).grammar.rules, ∀ alternative ∈ r.alternatives, Q alternative := by
  intro r hr alternative ha
  rw [← alternatives_name (hg.round hf).nodup_ruleNames hr] at ha
  rcases (mem_alternatives_round_iff hf hg hround).mp ha with ⟨before, hbefore, h⟩ | hentry
  · obtain ⟨old, hold, _, hmem⟩ := exists_rule hbefore
    exact hchange _ before alternative h (hP old hold before hmem)
  · exact hkey _ ((valid_gather hf hg).key _ hentry)

/-- Nonterminals that were there before do not see the helpers. -/
theorem generates_withHelpers_iff (hg : g.WellFormed) (hv : Helpers.Valid g Key helpers)
    (hh : (g.withHelpers helpers).WellFormed) {a : Name} (ha : a ∈ g.nonterminals)
    {w : List Name} : (g.withHelpers helpers).Generates a w ↔ g.Generates a w := by
  have hsame : ∀ b ∈ g.nonterminals, ∀ alternative,
      alternative ∈ (g.withHelpers helpers).alternatives b ↔ alternative ∈ g.alternatives b := by
    intro b hb alternative
    rw [mem_alternatives hh.nodup_ruleNames, mem_alternatives hg.nodup_ruleNames]
    constructor
    · intro h'
      obtain ⟨r, hr, rfl, hmem⟩ := h'
      rcases mem_withHelpers_rules.mp hr with hr | ⟨entry, hentry, rfl⟩
      · exact ⟨r, hr, rfl, hmem⟩
      · exact absurd hb (hv.notMem_nonterminals (List.mem_map_of_mem hentry))
    · intro h'
      obtain ⟨r, hr, rfl, hmem⟩ := h'
      exact ⟨r, mem_withHelpers_rules.mpr (.inl hr), rfl, hmem⟩
  constructor
  · intro hw
    apply hw.transfer (P := (· ∈ g.nonterminals))
    · intro b hb alternative hmem c hc
      exact hg.hasSymbol_of_mem ((hsame b hb alternative).mp hmem) hc
    · intro b hb alternative hmem w hw
      exact .of_alternative ((hsame b hb alternative).mp hmem) hw
    · simpa using ha
  · exact Derives.follow fun b alternative hmem w hw =>
      .of_alternative ((hsame b (hg.mem_nonterminals hmem) alternative).mpr hmem) hw

/-- Putting a helper's alternative back in its place leads from the changed rules to the old. -/
theorem Derives.of_change (hf : Helpers.Fits Key make change)
    (hh : (g.withHelpers helpers).WellFormed) {rules : List Rule}
    (hrules : List.Forall₂ (Rule.Change (change helpers)) g.rules rules)
    {xs : List Symbol} {w : List Name}
    (hw : Derives ({ g with rules }.withHelpers helpers) xs w) :
    Derives (g.withHelpers helpers) xs w := by
  have hk : helpers.StandFor (g.withHelpers helpers) :=
    Helpers.standFor_of_rules hh.nodup_ruleNames (List.subset_append_right _ _)
  apply hw.follow
  intro a alternative ha w hw
  obtain ⟨r, hr, rfl, hr'⟩ := exists_rule ha
  rcases mem_withHelpers_rules.mp hr with hr | hentry
  · obtain ⟨old, hold, hchange⟩ := Forall₂.exists_left hrules hr
    have hmem {before : Alternative} (h : before ∈ old.alternatives) :
        before ∈ (g.withHelpers helpers).alternatives r.name :=
      (mem_alternatives hh.nodup_ruleNames).mpr
        ⟨old, mem_withHelpers_rules.mpr (.inl hold), hchange.name_eq.symm, h⟩
    rcases hchange.exists_of_mem hr' with ha | ⟨before, hbefore, h⟩
    · exact .of_alternative (hmem ha) hw
    · exact .of_alternative (hmem hbefore) ((hf.derives h hk w).mp hw)
  · have hr : r ∈ (g.withHelpers helpers).rules := mem_withHelpers_rules.mpr (.inr hentry)
    exact .of_alternative ((mem_alternatives hh.nodup_ruleNames).mpr ⟨r, hr, rfl, hr'⟩) hw

theorem standFor_round (hf : Helpers.Fits Key make change) (hg : g.WellFormed) :
    (g.gather make).StandFor (g.round make change).grammar :=
  Helpers.standFor_of_rules (hg.round hf).nodup_ruleNames (List.subset_append_right _ _)

/-- A round that goes through can follow every derivation. -/
theorem Derives.round (hf : Helpers.Fits Key make change) (hg : g.WellFormed)
    (hround : (g.round make change).result = .ok names) {xs : List Symbol} {w : List Name}
    (hw : Derives g xs w) : Derives (g.round make change).grammar xs w := by
  apply hw.follow
  intro a alternative ha w hw
  obtain ⟨changed, hchanged, h⟩ := exists_mem_changed hf hg hround ha
  exact .of_alternative hchanged ((hf.derives h (standFor_round hf hg) w).mpr hw)

theorem generates_helper_iff (hf : Helpers.Fits Key make change) (hg : g.WellFormed)
    {alternative : Alternative} {a : Name} (hentry : (alternative, a) ∈ (g.gather make).made)
    {w : List Name} :
    (g.round make change).grammar.Generates a w ↔
      Derives (g.round make change).grammar alternative w := by
  have hr : ⟨a, [alternative]⟩ ∈ (g.round make change).grammar.rules := by
    rw [grammar_round]
    exact mem_withHelpers_rules.mpr (.inr ⟨_, hentry, rfl⟩)
  have halternatives := alternatives_name (hg.round hf).nodup_ruleNames hr
  rw [generates_iff, halternatives]
  simp

/-- Whether a round goes through or not, it adds no sentences to the nonterminals that were there
before. -/
theorem Generates.of_round (hf : Helpers.Fits Key make change) (hg : g.WellFormed) {a : Name}
    (ha : a ∈ g.nonterminals) {w : List Name}
    (hw : (g.round make change).grammar.Generates a w) : g.Generates a w := by
  have hv := valid_gather hf hg
  have hh := hg.withHelpers_gather hf
  rw [grammar_round] at hw
  have hold := Derives.of_change hf hh (forall₂_changeRules _ _) hw
  exact (generates_withHelpers_iff hg hv hh ha).mp hold

/-- A round that goes through keeps the sentences of the nonterminals that were there before. -/
theorem generates_round_iff (hf : Helpers.Fits Key make change) (hg : g.WellFormed)
    (hround : (g.round make change).result = .ok names) {a : Name}
    (ha : a ∈ g.nonterminals) {w : List Name} :
    (g.round make change).grammar.Generates a w ↔ g.Generates a w :=
  ⟨.of_round hf hg ha, .round hf hg hround⟩

end Grammar

end ContextFree
