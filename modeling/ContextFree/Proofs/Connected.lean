import ContextFree.Proofs.Fruitful

/-!
Cutting alternatives into pairs neither strands a nonterminal nor brings a stranded one back. So a
conversion leaves nonterminals that are not reached exactly if the stage that takes the unproductive
ones out does, which comes after the search for reachable ones.
-/

namespace ContextFree

open Grammar

/-- A property goes back from names to what they lead to, if rules hand it back. -/
theorem handedBack_of_mentions {k : Grammar} (hk : k.ruleNames.Nodup) {P : Name → Prop}
    (h : ∀ a b, P a → k.Mentions a b → P b) : HandedBack P k.rules := by
  intro r hr hP alternative ha
  rw [← alternatives_name hk hr] at ha
  exact forall_satisfies_iff.mpr fun a hmem => h r.name a hP ⟨alternative, ha, hmem⟩

/-- Put together from names with a property, each helper from what its alternative holds. -/
inductive Helpers.Covers (helpers : Helpers) (P : Name → Prop) : Name → Prop
  | given {a : Name} : P a → Covers helpers P a
  | helper {alternative : Alternative} {a : Name} : (alternative, a) ∈ helpers.made →
      (∀ b, .nonterminal b ∈ alternative → Covers helpers P b) → Covers helpers P a

namespace Helpers

variable {g : Grammar} {helpers : Helpers} {Key : Alternative → Prop} {P : Name → Prop} {a : Name}

theorem handedOn_covers (helpers : Helpers) (P : Name → Prop) :
    HandedOn true (helpers.Covers P) helpers.rules := by
  intro r hr alternative ha hs
  obtain ⟨⟨key, a⟩, hentry, rfl⟩ := List.mem_map.mp hr
  obtain rfl := List.mem_singleton.mp ha
  exact .helper hentry fun b hb => hs _ hb

theorem Covers.of_mem (h : helpers.Covers P a) (hv : helpers.Valid g Key)
    (ha : a ∈ g.nonterminals) : P a := by
  cases h with
  | given hgiven => exact hgiven
  | helper hentry _ => exact absurd ha (hv.notMem_nonterminals (List.mem_map_of_mem hentry))

theorem Covers.parts (h : helpers.Covers P a) (hv : helpers.Valid g Key)
    (hold : ∀ b, P b → b ∈ g.nonterminals) {alternative : Alternative}
    (hentry : (alternative, a) ∈ helpers.made) :
    ∀ b, .nonterminal b ∈ alternative → helpers.Covers P b := by
  cases h with
  | given hgiven =>
    exact absurd (hold a hgiven) (hv.notMem_nonterminals (List.mem_map_of_mem hentry))
  | helper hentry' hparts =>
    have hsame := List.inj_on_of_nodup_map hv.nodup_names hentry hentry' rfl
    exact fun b hb => hparts b ((Prod.mk.inj hsame).1 ▸ hb)

end Helpers

namespace Grammar

variable {g : Grammar}

/-- Every nonterminal is reached from the start symbol. -/
def Connected (g : Grammar) : Prop :=
  ∀ a ∈ g.nonterminals, Relation.ReflTransGen g.Mentions g.start a

theorem connected_iff (hg : g.WellFormed) : g.Connected ↔ g.unreachable = [] := by
  simp [List.eq_nil_iff_forall_not_mem, mem_unreachable_iff hg, Connected]

section

variable {Key : Alternative → Prop} {make : Helpers → Alternative → Helpers}
  {change : Helpers → Alternative → Option Alternative} {names : List Name}

theorem handedBack_gather (hf : Helpers.Fits Key make change) (hg : g.WellFormed)
    {P : Name → Prop} (h : ∀ a b, P a → (g.round make change).grammar.Mentions a b → P b) :
    HandedBack P (g.gather make).rules :=
  (handedBack_of_mentions (hg.round hf).nodup_ruleNames h).mono (List.subset_append_right _ _)

/-- What an alternative held is reached over the helpers that replace it. -/
theorem Mentions.round (hf : Helpers.Fits Key make change) (hl : Helpers.Linked make change)
    (hg : g.WellFormed) (hround : (g.round make change).result = .ok names) {a b : Name}
    (hab : g.Mentions a b) : Relation.ReflTransGen (g.round make change).grammar.Mentions a b := by
  obtain ⟨alternative, ha, hb⟩ := hab
  obtain ⟨changed, hchanged, hchange⟩ := exists_mem_changed hf hg hround ha
  refine hl.handedBack (handedBack_gather hf hg fun _ _ hc hcd => hc.tail hcd) hchange ?_ _ hb
  exact forall_satisfies_iff.mpr fun c hc => .single ⟨changed, hchanged, hc⟩

/-- Every nonterminal is reached from one that was there before the round. -/
theorem exists_chain_round (hf : Helpers.Fits Key make change) (hl : Helpers.Linked make change)
    (hg : g.WellFormed) (hround : (g.round make change).result = .ok names) {a : Name}
    (ha : a ∈ (g.round make change).grammar.nonterminals) :
    ∃ b ∈ g.nonterminals, Relation.ReflTransGen (g.round make change).grammar.Mentions b a := by
  rcases mem_nonterminals_round.mp ha with ha | ha
  · exact ⟨a, ha, .refl⟩
  · have hback : HandedBack (fun c => ∃ b ∈ g.nonterminals,
        Relation.ReflTransGen (g.round make change).grammar.Mentions b c)
        (g.gather make).rules := by
      apply handedBack_gather hf hg
      intro c d h' hcd
      obtain ⟨b, hb, hbc⟩ := h'
      exact ⟨b, hb, hbc.tail hcd⟩
    refine forall_names_round hl hg hround hback ?_ a ha
    intro b alternative hmem changed hchange
    have hchanged :=
      (mem_alternatives_round_iff hf hg hround).mpr (.inl ⟨alternative, hmem, hchange⟩)
    exact forall_satisfies_iff.mpr fun c hc =>
      ⟨b, hg.mem_nonterminals hmem, .single ⟨changed, hchanged, hc⟩⟩

/-- A chain of the new rules stays with the old nonterminals that the old rules lead to, and with
helpers for parts of their alternatives. -/
theorem covers_of_mentions (hf : Helpers.Fits Key make change) (hl : Helpers.Linked make change)
    (hg : g.WellFormed) (hround : (g.round make change).result = .ok names) {P : Name → Prop}
    (hold : ∀ a, P a → a ∈ g.nonterminals) (hP : ∀ a b, P a → g.Mentions a b → P b) {a b : Name}
    (ha : (g.gather make).Covers P a) (hab : (g.round make change).grammar.Mentions a b) :
    (g.gather make).Covers P b := by
  have hv := valid_gather hf hg
  obtain ⟨alternative, hmem, hb⟩ := hab
  rcases (mem_alternatives_round_iff hf hg hround).mp hmem with ⟨before, hbefore, h⟩ | hentry
  · have hPa : P a := ha.of_mem hv (hg.mem_nonterminals hbefore)
    refine hl.handedOn (Helpers.handedOn_covers _ _) h ?_ _ hb
    exact forall_satisfies_iff.mpr fun c hc => .given (hP a c hPa ⟨before, hbefore, hc⟩)
  · exact ha.parts hv hold hentry b hb

theorem chain_of_round (hf : Helpers.Fits Key make change) (hl : Helpers.Linked make change)
    (hg : g.WellFormed) (hround : (g.round make change).result = .ok names) {a b : Name}
    (ha : a ∈ g.nonterminals) (hb : b ∈ g.nonterminals)
    (hab : Relation.ReflTransGen (g.round make change).grammar.Mentions a b) :
    Relation.ReflTransGen g.Mentions a b := by
  have hcovers : (g.gather make).Covers
      (fun c => c ∈ g.nonterminals ∧ Relation.ReflTransGen g.Mentions a c) b := by
    -- only the end of the whole chain is known to be an old nonterminal
    clear hb
    induction hab with
    | refl => exact .given ⟨ha, .refl⟩
    | tail _ hcd ih =>
      refine covers_of_mentions hf hl hg hround (fun c hc => hc.1) ?_ ih hcd
      intro c d hc hcd
      obtain ⟨alternative, hmem, hd⟩ := hcd
      exact ⟨hg.hasSymbol_of_mem hmem hd, hc.2.tail ⟨alternative, hmem, hd⟩⟩
  exact (hcovers.of_mem (valid_gather hf hg) hb).2

/-- A round that goes through keeps whether everything is reached. -/
theorem connected_round_iff (hf : Helpers.Fits Key make change) (hl : Helpers.Linked make change)
    (hg : g.WellFormed) (hround : (g.round make change).result = .ok names) :
    (g.round make change).grammar.Connected ↔ g.Connected := by
  constructor
  · intro h a ha
    have hreached := h a (mem_nonterminals_round.mpr (.inl ha))
    exact chain_of_round hf hl hg hround hg.start_mem ha hreached
  · intro h a ha
    obtain ⟨b, hb, hba⟩ := exists_chain_round hf hl hg hround ha
    have hstart := Relation.reflTransGen_closed
      (fun _ _ => Mentions.round hf hl hg hround) _ _ (h b hb)
    exact hstart.trans hba

end

variable {names : List Name} {report : Report}

theorem connected_binarize_iff (hg : g.WellFormed) (hbinary : g.binarize.result = .ok names) :
    g.binarize.grammar.Connected ↔ g.Connected := by
  refine binarize_induction (P := fun k => k.Connected ↔ g.Connected) ?_ hg hbinary .rfl
  exact fun hf hl hk hround hkept => (connected_round_iff hf hl hk hround).trans hkept

theorem connected_withoutUnreachable (hg : g.WellFormed) : g.withoutUnreachable.Connected := by
  intro a ha
  have hchain := (mem_nonterminals_withoutUnreachable_iff hg).mp ha
  clear ha
  induction hchain with
  | refl => exact .refl
  | @tail b c hb hbc ih =>
    obtain ⟨alternative, hmem, hc⟩ := hbc
    have hstays : b ∉ g.unreachable := fun h => ((mem_unreachable_iff hg).mp h).2 hb
    exact ih.tail ⟨alternative, mem_alternatives_withoutUnreachable.mpr ⟨hstays, hmem⟩, hc⟩

/-- Where everything derives a sentence, nothing is taken out. -/
theorem Connected.withoutUnproductive (hg : g.WellFormed) (h : g.Connected)
    (hnone : g.unproductive = []) (hstart : ∃ w, g.Generates g.start w) :
    g.withoutUnproductive.Connected := by
  have hproductive : ∀ a ∈ g.nonterminals, a ∈ g.productive := by
    intro a ha
    by_contra hnot
    have hne : a ≠ g.start := by
      rintro rfl
      exact hnot ((mem_productive_iff hg.nodup_ruleNames).mpr hstart)
    have hout : a ∈ g.unproductive := mem_outside.mpr ⟨ha, hne, hnot⟩
    simp [hnone] at hout
  have hmentions : ∀ a b, g.Mentions a b → g.withoutUnproductive.Mentions a b := by
    intro a b h'
    obtain ⟨alternative, hmem, hb⟩ := h'
    have hknown : alternative.isKnown true g.productive = true := by
      rw [Alternative.isKnown_iff, forall_satisfies_iff]
      exact fun c hc => hproductive c (hg.hasSymbol_of_mem hmem hc)
    exact ⟨alternative, mem_alternatives_withoutUnproductive.mpr
      ⟨by simp [hnone], hmem, hknown⟩, hb⟩
  intro a ha
  exact Relation.ReflTransGen.mono hmentions _ _ (h a (List.mem_filter.mp ha).1)

/-- After a conversion that had something to do everything is reached exactly if a second search,
behind the stage that takes the unproductive nonterminals out, finds nothing. So it is if that stage
takes nothing out and the start symbol has sentences. -/
theorem connected_convert_iff (hg : g.Obtained) (h : g.convert.result = .ok report)
    (hnew : report.alreadyNormal = false) :
    (g.convert.grammar.Connected ↔ g.pruned.unreachable = []) ∧
    (report.unproductive = [] → (∃ w, w ≠ [] ∧ g.Generates g.start w) →
      g.convert.grammar.Connected) := by
  have hwell := hg.wellFormed
  have hnormal := isNormal_of_report h hnew
  obtain ⟨helpers, hbinary, rfl⟩ := exists_helpers_of_convert hnormal h
  have hpruned := hwell.pruned
  have hrenamings := hwell.withoutEpsilon.withoutRenamings
  have hreached := hrenamings.withoutUnreachable
  have hbinarize := connected_binarize_iff hpruned hbinary
  rw [convert_grammar hnormal, ← connected_iff hpruned]
  refine ⟨hbinarize, fun hnone h' => hbinarize.mpr ?_⟩
  obtain ⟨w, hne, hw⟩ := h'
  refine (connected_withoutUnreachable hrenamings).withoutUnproductive hreached hnone ⟨w, ?_⟩
  have hstart : g.withoutEpsilon.withoutRenamings.start = g.start :=
    (keeps_withoutRenamings g.withoutEpsilon).start_eq
  have hmem : g.start ∈ g.pruned.nonterminals := (keeps_pruned g).start_eq ▸ hpruned.start_mem
  have hkept := (generates_pruned_iff hwell hmem).mpr ⟨hw, hne⟩
  exact hstart.symm ▸ (derives_withoutUnproductive_iff hreached).mp hkept

theorem connected_convert_mixed :
    (mixed.run [.addFresh]).convert.result =
        .ok ⟨false, ["S", "A"], true, ["U", "0"], ["N"], ["0", "1"]⟩ ∧
      (mixed.run [.addFresh]).convert.grammar.Connected := by
  have hobtained : (mixed.run [.addFresh]).Obtained := ⟨mixed, _, mixed_built, rfl⟩
  have hnone : (mixed.run [.addFresh]).pruned.unreachable = [] := by
    rw [mixed_run_addFresh, pruned]
    conv => lhs; arg 1; cbv
    cbv
  have hiff := (connected_convert_iff hobtained convert_mixed_result rfl).1
  exact ⟨convert_mixed_result, hiff.mpr hnone⟩

/-- The only alternative that mentions `A` also mentions `N`, which has no sentences. -/
def stranded : Grammar where
  nonterminals := ["S", "A", "N"]
  terminals := ["a", "b"]
  rules := [
    ⟨"S", [[.terminal "a", .nonterminal "A", .nonterminal "N"], [.terminal "b"]]⟩,
    ⟨"A", [[.terminal "a"]]⟩,
    ⟨"N", [[.nonterminal "N", .nonterminal "N"]]⟩]
  start := "S"

def strandedDeclaration : Declaration where
  nonterminals := ["S", "A", "N"]
  terminals := ["a", "b"]
  rules := [("S", [["a", "A", "N"], ["b"]]), ("A", [["a"]]), ("N", [["N", "N"]])]
  start := "S"

theorem stranded_built : stranded.Built := .declared (d := strandedDeclaration) rfl

/-- What a conversion makes of it. -/
def strandedNormal : Grammar where
  nonterminals := ["S", "A"]
  terminals := ["a", "b"]
  rules := [⟨"S", [[.terminal "b"]]⟩, ⟨"A", [[.terminal "a"]]⟩]
  start := "S"

theorem stranded_missed :
    stranded.Built ∧ stranded.convert.result = .ok ⟨false, [], false, [], ["N"], []⟩ ∧
      stranded.convert.grammar = strandedNormal ∧
      "A" ∈ stranded.convert.grammar.nonterminals ∧
      ¬ Relation.ReflTransGen stranded.convert.grammar.Mentions
        stranded.convert.grammar.start "A" := by
  have hnormal : stranded.isNormal = false := by decide
  have hpruned : stranded.pruned = strandedNormal := by
    rw [pruned]
    cbv
  have hgrammar : stranded.convert.grammar = strandedNormal := by
    rw [convert_grammar hnormal, hpruned]
    rfl
  have hresult : stranded.convert.result = .ok ⟨false, [], false, [], ["N"], []⟩ := by
    have hbinary : strandedNormal.binarize.result = .ok [] := rfl
    rw [convert_result hnormal, hpruned, hbinary]
    cbv
  have hwell : strandedNormal.WellFormed := by decide
  have hunreachable : strandedNormal.unreachable = ["A"] := by cbv
  rw [hgrammar]
  refine ⟨stranded_built, hresult, rfl, by decide, ?_⟩
  exact ((mem_unreachable_iff hwell).mp (hunreachable ▸ List.mem_cons_self)).2

end Grammar

end ContextFree
