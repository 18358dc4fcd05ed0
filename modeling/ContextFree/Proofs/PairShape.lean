import ContextFree.Proofs.Connected
import ContextFree.Proofs.HelperMeaning

/-!
What the alternatives look like once both rounds are through. A round keeps different words of the
grammar's symbols different, so alternatives never merge and helpers never get the same alternative.
-/

namespace ContextFree

open Grammar

namespace Helpers

variable {g : Grammar} {helpers : Helpers} {Key : Alternative → Prop}

/-- A change keeps different words of the grammar's symbols different. -/
def Separates (change : Helpers → Alternative → Option Alternative) : Prop :=
  ∀ ⦃g : Grammar⦄ ⦃Key : Alternative → Prop⦄ ⦃helpers : Helpers⦄ ⦃x y changed : Alternative⦄,
    Valid g Key helpers → (∀ s ∈ x, g.HasSymbol s) → (∀ s ∈ y, g.HasSymbol s) →
    change helpers x = some changed → change helpers y = some changed → x = y

/-- A word that was cut begins with a helper, so it is not a word of the grammar's symbols. -/
theorem Valid.exists_not_hasSymbol (hv : Valid g Key helpers) {word : List Symbol} {last : Symbol}
    {changed : Alternative} (hlong : 2 ≤ word.length)
    (h : helpers.cut (word ++ [last]) = some changed) : ∃ s ∈ changed, ¬g.HasSymbol s := by
  rw [cut_concat hlong] at h
  obtain ⟨b, hb, rfl⟩ := Option.map_eq_some_iff.mp h
  exact ⟨.nonterminal b, List.mem_cons_self, hv.notMem_nonterminals (mem_names_of_pairFor hb)⟩

theorem separates_cut : Separates cut := by
  intro g Key helpers x y changed hv hx hy h h'
  -- words of at most two symbols stay, and the others begin with a helper then, as no word does
  rcases length_cases x with hshort | ⟨word, last, rfl, hlong, _⟩ <;>
  rcases length_cases y with hshort' | ⟨word', last', rfl, hlong', _⟩
  · rw [cut_of_length hshort] at h
    rw [cut_of_length hshort'] at h'
    exact Option.some.inj (h.trans h'.symm)
  · obtain ⟨s, hs, hnew⟩ := hv.exists_not_hasSymbol hlong' h'
    rw [cut_of_length hshort] at h
    exact absurd (hx s (Option.some.inj h ▸ hs)) hnew
  · obtain ⟨s, hs, hnew⟩ := hv.exists_not_hasSymbol hlong h
    rw [cut_of_length hshort'] at h'
    exact absurd (hy s (Option.some.inj h' ▸ hs)) hnew
  · rw [cut_concat hlong] at h
    rw [cut_concat hlong'] at h'
    obtain ⟨b, hb, rfl⟩ := Option.map_eq_some_iff.mp h
    obtain ⟨b', hb', heq⟩ := Option.map_eq_some_iff.mp h'
    simp only [List.cons.injEq, Symbol.nonterminal.injEq, and_true] at heq
    obtain ⟨rfl, rfl⟩ := heq
    rw [List.forall_mem_append] at hx hy
    rw [pairFor_injective hv hx.1 hy.1 hb hb']

/-- A symbol that is wrapped stays, or is a terminal and gives way to its helper. -/
theorem wrapSymbol_cases {s t : Symbol} (h : helpers.wrapSymbol s = some t) :
    t = s ∨ ∃ a b, s = .terminal a ∧ t = .nonterminal b ∧ ([.terminal a], b) ∈ helpers.made := by
  cases s with
  | terminal a =>
    obtain ⟨b, hb, rfl⟩ := Option.map_eq_some_iff.mp h
    exact .inr ⟨a, b, rfl, rfl, mem_made_of_name? hb⟩
  | nonterminal a => exact .inl (Option.some.inj h).symm

theorem Valid.wrapSymbol_injective (hv : Valid g Key helpers) {s t changed : Symbol}
    (hs : g.HasSymbol s) (ht : g.HasSymbol t) (h : helpers.wrapSymbol s = some changed)
    (h' : helpers.wrapSymbol t = some changed) : s = t := by
  have hnew {key : Alternative} {b : Name} (hentry : (key, b) ∈ helpers.made) :
      ¬g.HasSymbol (.nonterminal b) := hv.notMem_nonterminals (List.mem_map_of_mem hentry)
  rcases wrapSymbol_cases h with rfl | ⟨a, b, rfl, rfl, hentry⟩ <;>
  rcases wrapSymbol_cases h' with heq | ⟨a', b', rfl, heq, hentry'⟩
  · exact heq
  · exact absurd hs (heq ▸ hnew hentry')
  · exact absurd ht (heq ▸ hnew hentry)
  · obtain rfl := Symbol.nonterminal.inj heq
    exact List.singleton_inj.mp (hv.key_unique hentry hentry')

theorem separates_wrap : Separates wrap := by
  intro g Key helpers x y changed hv hx hy h h'
  have hunique : Relator.LeftUnique fun s t => g.HasSymbol s ∧ helpers.wrapSymbol s = some t :=
    fun s t changed hs ht => hv.wrapSymbol_injective hs.1 ht.1 hs.2 ht.2
  rcases wrap_eq_some h with ⟨hlength, hwrap⟩ | ⟨hlength, rfl⟩ <;>
  rcases wrap_eq_some h' with ⟨hlength', hwrap'⟩ | ⟨hlength', heq⟩
  · exact List.left_unique_forall₂' hunique ((List.forall₂_and_left _ _).mpr ⟨hx, hwrap⟩)
      ((List.forall₂_and_left _ _).mpr ⟨hy, hwrap'⟩)
  · exact absurd (heq ▸ hwrap.length_eq ▸ hlength) hlength'
  · exact absurd (hwrap'.length_eq ▸ hlength') hlength
  · exact heq

end Helpers

/-- How an alternative may come out of both rounds: unchanged if it has at most one symbol, and else
as a pair of nonterminals. -/
def Alternative.CutTo (old new : Alternative) : Prop :=
  old.length ≤ 1 ∧ new = old ∨ 2 ≤ old.length ∧ ∃ b c, new = [.nonterminal b, .nonterminal c]

namespace Grammar

variable {g : Grammar} {names : List Name} {a : Name}

/-- A round that keeps words apart changes the alternatives one by one, and none of them merge. -/
theorem forall₂_round {Key : Alternative → Prop} {make : Helpers → Alternative → Helpers}
    {change : Helpers → Alternative → Option Alternative} (hseparates : Helpers.Separates change)
    (hf : Helpers.Fits Key make change) (hg : g.WellFormed)
    (hround : (g.round make change).result = .ok names) (ha : a ∈ g.nonterminals) :
    List.Forall₂ (fun x y => change (g.gather make) x = some y) (g.alternatives a)
      ((g.round make change).grammar.alternatives a) := by
  obtain ⟨r, hr, rfl⟩ := mem_ruleNames.mp (hg.ruleNames_eq ▸ ha)
  have hrules := forall₂_changeRules_of_complete (result_round_eq_ok_iff.mp hround).1
  obtain ⟨_, hmem, alternatives, hchange, rfl⟩ := Forall₂.exists_right hrules hr
  have hrule : { r with alternatives := alternatives.eraseDups } ∈
      (g.round make change).grammar.rules := List.mem_append_left _ hmem
  have hnew : (g.round make change).grammar.alternatives r.name = alternatives.eraseDups :=
    alternatives_name (hg.round hf).nodup_ruleNames hrule
  have hnodup : alternatives.Nodup := Forall₂.nodup hchange (hg.nodup_alternatives r hr)
    fun x hx y hy _ => hseparates (valid_gather hf hg) (hg.hasSymbol r hr x hx)
      (hg.hasSymbol r hr y hy)
  rwa [hnew, eraseDups_of_nodup hnodup, alternatives_name hg.nodup_ruleNames hr]

/-- Both rounds keep different words of the grammar's symbols different. -/
theorem cutAndWrap_injective (hg : g.WellFormed) {x y final : Alternative}
    (hx : ∀ s ∈ x, g.HasSymbol s) (hy : ∀ s ∈ y, g.HasSymbol s)
    (h : g.cutAndWrap x = some final) (h' : g.cutAndWrap y = some final) : x = y := by
  have hknown {word changed : Alternative} (hword : ∀ s ∈ word, g.HasSymbol s)
      (hchanged : g.pairs.cut word = some changed) :
      ∀ s ∈ changed, g.cutLong.grammar.HasSymbol s := fun s hs =>
    hasSymbol_round (Helpers.fits_cut.knows hchanged (fun s hs => .inl (hword s hs)) s hs)
  obtain ⟨x', hx', hwrap⟩ := Option.bind_eq_some_iff.mp h
  obtain ⟨y', hy', hwrap'⟩ := Option.bind_eq_some_iff.mp h'
  obtain rfl := Helpers.separates_wrap (valid_gather Helpers.fits_wrap hg.cutLong) (hknown hx hx')
    (hknown hy hy') hwrap hwrap'
  exact Helpers.separates_cut (valid_gather Helpers.fits_cut hg) hx hy hx' hy'

theorem cutTo_of_cutAndWrap {old new : Alternative} (h : g.cutAndWrap old = some new) :
    old.CutTo new := by
  obtain ⟨middle, hcut, hwrap⟩ := Option.bind_eq_some_iff.mp h
  rcases Helpers.cut_eq_some hcut with ⟨hshort, rfl⟩ | ⟨hlong, hlength⟩
  · rw [Helpers.wrap_of_length hshort.ne] at hwrap
    exact .inl ⟨Nat.le_of_lt_succ hshort, (Option.some.inj hwrap).symm⟩
  · exact .inr ⟨hlong, Helpers.exists_pair_of_wrap hwrap hlength⟩

theorem shape_of_helperFor {word : List Symbol} {final : Alternative}
    (ha : g.helperFor word = some a) (hfinal : g.cutAndWrap word = some final) :
    (∃ t, final = [.terminal t]) ∨ ∃ b c, final = [.nonterminal b, .nonterminal c] := by
  rcases helperFor_eq_some_iff.mp ha with ha | ⟨t, rfl, _⟩
  · have hlong := Helpers.length_of_pairFor ha
    rcases cutTo_of_cutAndWrap hfinal with ⟨hshort, _⟩ | ⟨_, hpair⟩
    · omega
    · exact .inr hpair
  · rw [cutAndWrap_of_length (by simp)] at hfinal
    exact .inl ⟨t, (Option.some.inj hfinal).symm⟩

section

variable (hg : g.WellFormed) (h : g.binarize.result = .ok names)
include hg h

theorem forall₂_cutAndWrap (ha : a ∈ g.nonterminals) :
    List.Forall₂ (fun x y => g.cutAndWrap x = some y) (g.alternatives a)
      (g.binarize.grammar.alternatives a) := by
  obtain ⟨_, _, hpairs, hwrappers, _, heq⟩ := binarize_eq_ok h
  have ha' : a ∈ g.cutLong.grammar.nonterminals := mem_nonterminals_round.mpr (.inl ha)
  have hfirst := forall₂_round Helpers.separates_cut Helpers.fits_cut hg hpairs ha
  have hsecond := forall₂_round Helpers.separates_wrap Helpers.fits_wrap hg.cutLong hwrappers ha'
  rw [heq]
  exact (Forall₂.trans hfirst hsecond).imp fun _ _ => Option.bind_eq_some_iff.mpr

/-- A helper has one alternative, which is what becomes of its word. -/
theorem exists_alternatives_helperFor {word : List Symbol} (ha : g.helperFor word = some a) :
    ∃ final, g.cutAndWrap word = some final ∧ g.binarize.grammar.alternatives a = [final] := by
  have hmem (final : Alternative) : final ∈ g.binarize.grammar.alternatives a ↔
      g.cutAndWrap word = some final := mem_alternatives_helperFor_iff hg h ha
  obtain ⟨final, hfinal⟩ : ∃ final, g.cutAndWrap word = some final := by
    rcases helperFor_eq_some_iff.mp ha with ha | ⟨t, rfl, _⟩
    · exact exists_cutAndWrap_of_pairFor hg h ha
    · exact ⟨_, cutAndWrap_of_length (by simp)⟩
  refine ⟨final, hfinal, List.perm_singleton.mp ?_⟩
  rw [List.perm_ext_iff_of_nodup (hg.binarize.nodup_of_name a) (List.nodup_singleton final)]
  intro other
  rw [hmem, hfinal, Option.some_inj, List.mem_singleton, eq_comm]

/-- No two helpers have the same alternative. -/
theorem nodup_alternatives_binarize : (names.map g.binarize.grammar.alternatives).Nodup := by
  have hnodup : names.Nodup :=
    eq_take_of_binarize hg h ▸ g.nodup_freeNames.sublist (List.take_sublist _ _)
  refine hnodup.map_on fun a ha b hb hab => ?_
  obtain ⟨word, hword, ha⟩ := (mem_names_binarize_iff hg h).mp ha
  obtain ⟨word', hword', hb⟩ := (mem_names_binarize_iff hg h).mp hb
  obtain ⟨final, hfinal, halternatives⟩ := exists_alternatives_helperFor hg h ha
  obtain ⟨final', hfinal', halternatives'⟩ := exists_alternatives_helperFor hg h hb
  obtain rfl : final = final' := by
    rwa [halternatives, halternatives', List.singleton_inj] at hab
  obtain rfl := cutAndWrap_injective hg (hasSymbol_of_mem_helperWords hg hword)
    (hasSymbol_of_mem_helperWords hg hword') hfinal hfinal'
  exact Option.some.inj (ha.symm.trans hb)

/-- Every nonterminal is reached from one that was there before cutting. -/
theorem exists_chain_binarize (ha : a ∈ g.binarize.grammar.nonterminals) :
    ∃ b ∈ g.nonterminals, Relation.ReflTransGen g.binarize.grammar.Mentions b a := by
  obtain ⟨_, _, hpairs, hwrappers, _, heq⟩ := binarize_eq_ok h
  rw [heq] at ha ⊢
  obtain ⟨c, hc, hca⟩ :=
    exists_chain_round Helpers.fits_wrap Helpers.linked_wrap hg.cutLong hwrappers ha
  obtain ⟨b, hb, hbc⟩ := exists_chain_round Helpers.fits_cut Helpers.linked_cut hg hpairs hc
  have hbc' := Relation.reflTransGen_closed
    (fun _ _ => Mentions.round Helpers.fits_wrap Helpers.linked_wrap hg.cutLong hwrappers) _ _ hbc
  exact ⟨b, hb, hbc'.trans hca⟩

/-- Every helper is used: the last step of a chain that leads to it mentions it. -/
theorem exists_mentions_of_mem_names (ha : a ∈ names) :
    ∃ b, g.binarize.grammar.Mentions b a := by
  obtain rfl := eq_take_of_binarize hg h
  have hmem : a ∈ g.binarize.grammar.nonterminals :=
    nonterminals_binarize hg ▸ List.mem_append_right _ ha
  obtain ⟨b, hb, hba⟩ := exists_chain_binarize hg h hmem
  rcases Relation.ReflTransGen.cases_tail hba with rfl | ⟨c, _, hca⟩
  · -- the chain is not empty, since a helper is new
    exact absurd hb (mem_freeNames.mp (List.mem_of_mem_take ha)).2.1
  · exact ⟨c, hca⟩

/-- After cutting into pairs, the alternatives of a nonterminal that was there correspond to those
that it had, short ones unchanged and the others as two nonterminals. Each helper has one
alternative, a terminal or two nonterminals, which no other helper has, and each is used. -/
theorem binarize_shape :
    (∀ a ∈ g.nonterminals, (g.binarize.grammar.alternatives a).Nodup ∧
      List.Forall₂ Alternative.CutTo (g.alternatives a) (g.binarize.grammar.alternatives a)) ∧
    (∀ a ∈ names, ∃ final, g.binarize.grammar.alternatives a = [final] ∧
      ((∃ t, final = [.terminal t]) ∨ ∃ b c, final = [.nonterminal b, .nonterminal c])) ∧
    (names.map g.binarize.grammar.alternatives).Nodup ∧
    ∀ a ∈ names, ∃ b, g.binarize.grammar.Mentions b a := by
  refine ⟨fun a ha => ⟨hg.binarize.nodup_of_name a, ?_⟩, fun a ha => ?_,
    nodup_alternatives_binarize hg h, fun a ha => exists_mentions_of_mem_names hg h ha⟩
  · exact (forall₂_cutAndWrap hg h ha).imp fun _ _ => cutTo_of_cutAndWrap
  · obtain ⟨word, hword, ha⟩ := (mem_names_binarize_iff hg h).mp ha
    obtain ⟨final, hfinal, halternatives⟩ := exists_alternatives_helperFor hg h ha
    exact ⟨final, halternatives, shape_of_helperFor ha hfinal⟩

end

theorem binarize_mixed_shape :
    mixed.WellFormed ∧ mixed.binarize.result = .ok ["0", "1", "2"] ∧
      (∀ a ∈ ["S", "A", "N", "U"], List.Forall₂ Alternative.CutTo (mixed.alternatives a)
        (mixed.binarize.grammar.alternatives a)) ∧
      (["0", "1", "2"].map mixed.binarize.grammar.alternatives).Nodup ∧
      ∃ b, mixed.binarize.grammar.Mentions b "2" := by
  obtain ⟨hkept, _, hapart, hused⟩ :=
    binarize_shape mixed_built.wellFormed mixed_binarize_result
  exact ⟨mixed_built.wellFormed, mixed_binarize_result, fun a ha => (hkept a ha).2, hapart,
    hused "2" (by decide)⟩

end Grammar

end ContextFree
