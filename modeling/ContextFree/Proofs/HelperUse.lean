import ContextFree.Proofs.Binary
import ContextFree.Proofs.Saturation

/-!
No helper of a round is made in vain. A property of nonterminals that goes from every helper to its
alternative goes from a changed alternative to the one that it was, and to all helpers made for it
on the way. A property that goes from alternatives to their helpers goes the other way.
-/

namespace ContextFree

open Grammar

/-- A property of names that every rule hands back to the symbols of its alternatives. -/
def HandedBack (P : Name → Prop) (rules : List Rule) : Prop :=
  ∀ r ∈ rules, P r.name → ∀ alternative ∈ r.alternatives, ∀ s ∈ alternative, s.Satisfies true P

theorem HandedBack.mono {P : Name → Prop} {rules rules' : List Rule} (hsub : rules ⊆ rules')
    (h : HandedBack P rules') : HandedBack P rules := fun r hr => h r (hsub hr)

/-- Where terminals count, the nonterminals of an alternative decide. -/
theorem forall_satisfies_iff {P : Name → Prop} {alternative : Alternative} :
    (∀ s ∈ alternative, s.Satisfies true P) ↔ ∀ a, .nonterminal a ∈ alternative → P a := by
  constructor
  · exact fun h a ha => h _ ha
  · intro h s hs
    cases s with
    | terminal a => rfl
    | nonterminal a => exact h a hs

namespace Helpers

variable {helpers all : Helpers} {P : Name → Prop}

theorem made_prefix_make (helpers : Helpers) (alternative : Alternative) :
    helpers.made <+: (helpers.make alternative).made := by
  rcases helpers.make_cases alternative with h | ⟨a, free, _, _, h⟩
  · exact h.symm ▸ List.prefix_rfl
  · rw [h]
    exact List.prefix_append _ _

theorem made_prefix_makePairs (helpers : Helpers) (first : Symbol) (rest : List Symbol) :
    helpers.made <+: (helpers.makePairs first rest).made := by
  fun_induction Helpers.makePairs helpers first rest with
  | case1 helpers first second third rest made a ha ih =>
    exact (helpers.made_prefix_make _).trans ih
  | case2 helpers first second third rest made ha => exact helpers.made_prefix_make _
  | case3 => exact List.prefix_rfl

theorem made_prefix_makeForTerminal (helpers : Helpers) (s : Symbol) :
    helpers.made <+: (helpers.makeForTerminal s).made := by
  cases s with
  | terminal a => exact helpers.made_prefix_make _
  | nonterminal a => exact List.prefix_rfl

/-- Helpers made later take no alternative away from a helper. -/
theorem name?_mono (hall : helpers.made <+: all.made) {alternative : Alternative} {a : Name}
    (h : helpers.name? alternative = some a) : all.name? alternative = some a := by
  obtain ⟨later, hlater⟩ := hall
  rw [name?] at h
  rw [name?, ← hlater, List.lookup_append, h, Option.some_or]

theorem wrapSymbol_mono (hall : helpers.made <+: all.made) {s t : Symbol}
    (h : helpers.wrapSymbol s = some t) : all.wrapSymbol s = some t := by
  cases s with
  | terminal a =>
    obtain ⟨b, hb, rfl⟩ := Option.map_eq_some_iff.mp h
    exact Option.map_eq_some_iff.mpr ⟨b, name?_mono hall hb, rfl⟩
  | nonterminal a => exact h

theorem mem_names_make {alternative : Alternative} {a : Name}
    (h : a ∈ (helpers.make alternative).names) :
    a ∈ helpers.names ∨ (helpers.make alternative).name? alternative = some a := by
  rcases helpers.make_cases alternative with heq | ⟨b, free, hnone, _, heq⟩
  · rw [heq] at h
    exact .inl h
  · rw [heq] at h ⊢
    simp only [names, List.map_append, List.mem_append, List.map_singleton,
      List.mem_singleton] at h
    rcases h with h | rfl
    · exact .inl h
    · right
      rw [name?] at hnone
      simp [name?, List.lookup_append, hnone]

theorem mem_names_makeForTerminal {s : Symbol} {a : Name}
    (h : a ∈ (helpers.makeForTerminal s).names) :
    a ∈ helpers.names ∨ (helpers.makeForTerminal s).wrapSymbol s = some (.nonterminal a) := by
  cases s with
  | terminal b =>
    refine (mem_names_make h).imp_right ?_
    exact fun h => Option.map_eq_some_iff.mpr ⟨a, h, rfl⟩
  | nonterminal b => exact .inl h

/-- How the helpers of a round hang together with the alternatives that it changes. -/
structure Linked (make : Helpers → Alternative → Helpers)
    (change : Helpers → Alternative → Option Alternative) : Prop where
  made_grows (helpers : Helpers) (alternative : Alternative) :
    helpers.made <+: (make helpers alternative).made
  handedOn {helpers : Helpers} {P : Name → Prop} {alternative changed : Alternative} :
    HandedOn true P helpers.rules → change helpers alternative = some changed →
    (∀ s ∈ alternative, s.Satisfies true P) → ∀ s ∈ changed, s.Satisfies true P
  handedBack {helpers : Helpers} {P : Name → Prop} {alternative changed : Alternative} :
    HandedBack P helpers.rules → change helpers alternative = some changed →
    (∀ s ∈ changed, s.Satisfies true P) → ∀ s ∈ alternative, s.Satisfies true P
  handedBack_names {helpers all : Helpers} {P : Name → Prop}
    {alternative changed : Alternative} :
    HandedBack P all.rules → (make helpers alternative).made <+: all.made →
    change all alternative = some changed → (∀ s ∈ changed, s.Satisfies true P) →
    ∀ a ∈ (make helpers alternative).names, a ∈ helpers.names ∨ P a

theorem satisfies_cutFrom (hP : HandedOn true P helpers.rules) {first : Symbol}
    {rest : List Symbol} {changed : Alternative} (h : helpers.cutFrom first rest = some changed)
    (hs : ∀ s ∈ first :: rest, s.Satisfies true P) : ∀ s ∈ changed, s.Satisfies true P := by
  fun_induction cutFrom helpers first rest with
  | case1 first second third rest ih =>
    obtain ⟨a, ha, h⟩ := Option.bind_eq_some_iff.mp h
    simp only [List.forall_mem_cons] at hs
    obtain ⟨hfirst, hsecond, hrest⟩ := hs
    have hpair : P a := hP _ (rule_mem_of_name? ha) [first, second] (by simp)
      (by simp [hfirst, hsecond])
    exact ih a h (List.forall_mem_cons.mpr ⟨hpair, List.forall_mem_cons.mpr hrest⟩)
  | case2 => rwa [← Option.some.inj h]

theorem satisfies_of_cutFrom (hP : HandedBack P helpers.rules) {first : Symbol}
    {rest : List Symbol} {changed : Alternative} (h : helpers.cutFrom first rest = some changed)
    (hs : ∀ s ∈ changed, s.Satisfies true P) : ∀ s ∈ first :: rest, s.Satisfies true P := by
  fun_induction cutFrom helpers first rest with
  | case1 first second third rest ih =>
    obtain ⟨a, ha, h⟩ := Option.bind_eq_some_iff.mp h
    obtain ⟨hpair, hrest⟩ := List.forall_mem_cons.mp (ih a h)
    have hsymbols := hP _ (rule_mem_of_name? ha) hpair [first, second] (by simp)
    simp only [List.forall_mem_cons] at hsymbols ⊢
    exact ⟨hsymbols.1, hsymbols.2.1, List.forall_mem_cons.mp hrest⟩
  | case2 => rwa [Option.some.inj h]

/-- The helpers made for a long alternative lead from the last one back to the first one. -/
theorem names_makePairs (hP : HandedBack P all.rules) {first : Symbol} {rest : List Symbol}
    (hall : (helpers.makePairs first rest).made <+: all.made) {changed : Alternative}
    (h : all.cutFrom first rest = some changed) (hs : ∀ s ∈ changed, s.Satisfies true P) :
    ∀ a ∈ (helpers.makePairs first rest).names, a ∈ helpers.names ∨ P a := by
  fun_induction Helpers.makePairs helpers first rest with
  | case1 helpers first second third rest made a ha ih =>
    have hname : all.name? [first, second] = some a :=
      name?_mono ((made.made_prefix_makePairs _ _).trans hall) ha
    rw [cutFrom, hname] at h
    have hpair : P a := satisfies_of_cutFrom hP h hs _ List.mem_cons_self
    intro b hb
    rcases ih hall h b hb with hmade | hb
    · refine (mem_names_make hmade).imp_right fun hb => ?_
      rwa [← Option.some.inj (ha.symm.trans hb)]
    · exact .inr hb
  | case2 helpers first second third rest made ha =>
    intro b hb
    exact (mem_names_make hb).imp_right fun hb => by cases ha.symm.trans hb
  | case3 => exact fun b hb => .inl hb

theorem linked_cut : Linked makeForLong cut where
  made_grows helpers alternative := by
    cases alternative with
    | nil => exact List.prefix_rfl
    | cons first rest => exact helpers.made_prefix_makePairs first rest
  handedOn {helpers P alternative changed} hP h hs := by
    cases alternative with
    | nil =>
      obtain rfl := Option.some.inj h
      exact hs
    | cons first rest => exact satisfies_cutFrom hP h hs
  handedBack {helpers P alternative changed} hP h hs := by
    cases alternative with
    | nil => simp
    | cons first rest => exact satisfies_of_cutFrom hP h hs
  handedBack_names {helpers all P alternative changed} hP hall h hs := by
    cases alternative with
    | nil => exact fun a ha => .inl ha
    | cons first rest => exact names_makePairs hP hall h hs

/-- The helpers made for the terminals of a pair stand in the changed pair. -/
theorem names_makeForPair {alternative changed : Alternative}
    (hall : (helpers.makeForPair alternative).made <+: all.made)
    (h : all.wrap alternative = some changed) (hs : ∀ s ∈ changed, s.Satisfies true P) :
    ∀ a ∈ (helpers.makeForPair alternative).names, a ∈ helpers.names ∨ P a := by
  unfold makeForPair at hall ⊢
  split at hall
  next first second =>
    have hmem : ∀ s ∈ [first, second], ∀ a, all.wrapSymbol s = some (.nonterminal a) → P a := by
      intro s hmem a ha
      have hwrap := (wrap_eq_some h).resolve_right fun h => h.1 rfl
      obtain ⟨t, ht, hst⟩ := Forall₂.exists_right hwrap.2 hmem
      obtain rfl := Option.some.inj (ha.symm.trans hst)
      exact hs _ ht
    intro a ha
    rcases mem_names_makeForTerminal ha with ha | ha
    · refine (mem_names_makeForTerminal ha).imp_right fun ha => ?_
      have hfirst := (made_prefix_makeForTerminal _ second).trans hall
      exact hmem first (by simp) a (wrapSymbol_mono hfirst ha)
    · exact .inr (hmem second (by simp) a (wrapSymbol_mono hall ha))
  next => exact fun a ha => .inl ha

theorem linked_wrap : Linked makeForPair wrap where
  made_grows helpers alternative := by
    unfold makeForPair
    split
    next first second =>
      exact (helpers.made_prefix_makeForTerminal first).trans (made_prefix_makeForTerminal _ second)
    next => exact List.prefix_rfl
  handedOn {helpers P alternative changed} hP h hs := by
    rcases wrap_eq_some h with ⟨_, hwrap⟩ | ⟨_, rfl⟩
    · intro t ht
      obtain ⟨s, hmem, hst⟩ := Forall₂.exists_left hwrap ht
      cases s with
      | terminal a =>
        obtain ⟨b, hb, rfl⟩ := Option.map_eq_some_iff.mp hst
        exact hP _ (rule_mem_of_name? hb) [.terminal a] (by simp) (by simp [Symbol.Satisfies])
      | nonterminal a =>
        rw [← Option.some.inj hst]
        exact hs _ hmem
    · exact hs
  handedBack {helpers P alternative changed} hP h hs := by
    rcases wrap_eq_some h with ⟨_, hwrap⟩ | ⟨_, rfl⟩
    · rw [forall_satisfies_iff]
      intro a ha
      obtain ⟨t, ht, hst⟩ := Forall₂.exists_right hwrap ha
      obtain rfl := Option.some.inj hst
      exact hs _ ht
    · exact hs
  handedBack_names _ hall h hs := names_makeForPair hall h hs

variable {make : Helpers → Alternative → Helpers}
  {change : Helpers → Alternative → Option Alternative}

theorem Linked.made_prefix_foldl (hl : Linked make change) (helpers : Helpers)
    (alternatives : List Alternative) :
    helpers.made <+: (alternatives.foldl make helpers).made := by
  induction alternatives generalizing helpers with
  | nil => exact List.prefix_rfl
  | cons alternative rest ih => exact (hl.made_grows helpers alternative).trans (ih _)

theorem Linked.names_foldl (hl : Linked make change) (hP : HandedBack P all.rules)
    {alternatives : List Alternative} (hall : (alternatives.foldl make helpers).made <+: all.made)
    (hchange : ∀ alternative ∈ alternatives, ∃ changed, change all alternative = some changed ∧
      ∀ s ∈ changed, s.Satisfies true P) :
    ∀ a ∈ (alternatives.foldl make helpers).names, a ∈ helpers.names ∨ P a := by
  induction alternatives generalizing helpers with
  | nil => exact fun a ha => .inl ha
  | cons alternative rest ih =>
    obtain ⟨⟨changed, h, hs⟩, hrest⟩ := List.forall_mem_cons.mp hchange
    have hmade := (hl.made_prefix_foldl (make helpers alternative) rest).trans hall
    intro a ha
    rcases ih hall hrest a ha with ha | ha
    · exact hl.handedBack_names hP hmade h hs a ha
    · exact .inr ha

end Helpers

namespace Grammar

variable {g : Grammar} {Key : Alternative → Prop} {make : Helpers → Alternative → Helpers}
  {change : Helpers → Alternative → Option Alternative} {names : List Name}

/-- A property that helpers hand back reaches every helper from the changed alternatives. -/
theorem forall_names_round (hl : Helpers.Linked make change) (hg : g.WellFormed)
    (hround : (g.round make change).result = .ok names) {P : Name → Prop}
    (hP : HandedBack P (g.gather make).rules)
    (hchange : ∀ a, ∀ alternative ∈ g.alternatives a, ∀ changed,
      change (g.gather make) alternative = some changed → ∀ s ∈ changed, s.Satisfies true P) :
    ∀ a ∈ (g.gather make).names, P a := by
  intro a ha
  refine (hl.names_foldl hP List.prefix_rfl ?_ a ha).resolve_left (by simp [Helpers.names])
  intro alternative hmem
  obtain ⟨r, hr, hmem⟩ := List.mem_flatMap.mp hmem
  obtain ⟨changed, h⟩ := exists_changed hround hr hmem
  rw [← alternatives_name hg.nodup_ruleNames hr] at hmem
  exact ⟨changed, h, hchange r.name alternative hmem changed h⟩

/-- What rounds that go through keep, cutting into pairs keeps. -/
theorem binarize_induction {P : Grammar → Prop}
    (hround : ∀ {Key make change} {k : Grammar} {names : List Name},
      Helpers.Fits Key make change → Helpers.Linked make change → k.WellFormed →
      (k.round make change).result = .ok names → P k → P (k.round make change).grammar)
    (hg : g.WellFormed) (hbinary : g.binarize.result = .ok names) (h : P g) :
    P g.binarize.grammar := by
  obtain ⟨_, _, hpairs, hwrappers, _, heq⟩ := binarize_eq_ok hbinary
  have hkept : P g.cutLong.grammar := hround Helpers.fits_cut Helpers.linked_cut hg hpairs h
  rw [heq]
  exact hround Helpers.fits_wrap Helpers.linked_wrap hg.cutLong hwrappers hkept

end Grammar

end ContextFree
