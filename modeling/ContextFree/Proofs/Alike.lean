import ContextFree.Proofs.Order
import ContextFree.Proofs.Relabel
import Mathlib.Data.Fintype.EquivFin
import Mathlib.GroupTheory.Perm.Basic

/-!
A conversion depends on the grammar, not on the order in which it is written down.
-/

namespace ContextFree

/-- A function that is defined and injective on a list of names, and stays in it, is a permutation
there, which leaves all other names as they are. -/
theorem exists_perm_of_injective {names : List Name} {Sends : Name → Name → Prop}
    (htotal : ∀ a ∈ names, ∃ b ∈ names, Sends a b)
    (hinjective : ∀ a ∈ names, ∀ a' ∈ names, ∀ b, Sends a b → Sends a' b → a = a') :
    ∃ τ : Equiv.Perm Name, (∀ a ∈ names, Sends a (τ a)) ∧ ∀ a ∉ names, τ a = a := by
  choose send hmem hsends using htotal
  let step (a : {a // a ∈ names}) : {a // a ∈ names} := ⟨send a a.2, hmem a a.2⟩
  have hstep : Function.Injective step := by
    intro a a' h
    have heq : send a a.2 = send a' a'.2 := congrArg Subtype.val h
    exact Subtype.ext (hinjective a a.2 a' a'.2 _ (hsends a a.2) (heq ▸ hsends a' a'.2))
  let τ := Equiv.ofBijective step (Finite.injective_iff_bijective.mp hstep)
  refine ⟨Equiv.Perm.ofSubtype τ, fun a ha => ?_, fun a ha => ?_⟩
  · have happly : Equiv.Perm.ofSubtype τ a = send a ha :=
      Equiv.Perm.ofSubtype_apply_of_mem τ ha
    rw [happly]
    exact hsends a ha
  · exact Equiv.Perm.ofSubtype_apply_of_not_mem τ ha

namespace Grammar

variable {g h : Grammar} {σ : Equiv.Perm Name}

/-- The grammars have the same symbols, and the same alternatives but for the order and for names of
nonterminals that are permuted. -/
structure Alike (σ : Equiv.Perm Name) (g h : Grammar) : Prop where
  start_eq : σ g.start = h.start
  terminals : SameMembers g.terminals h.terminals
  nonterminals : SameMembers g.nonterminals h.nonterminals
  eq_of_notMem : ∀ a ∉ g.nonterminals, σ a = a
  mem_alternatives_iff : ∀ a alternative,
    alternative ∈ g.alternatives a ↔ Alternative.relabel σ alternative ∈ h.alternatives (σ a)

theorem Equiv.alike (e : g.Equiv h) : Alike 1 g h where
  start_eq := e.1
  terminals := e.2.1
  nonterminals := e.2.2.1
  eq_of_notMem a _ := rfl
  mem_alternatives_iff a alternative := by
    have hid : Alternative.relabel (1 : Equiv.Perm Name) alternative = alternative :=
      alternative.relabel_id
    rw [hid]
    exact e.mem_alternatives_iff

namespace Alike

theorem relabel_symm (σ : Equiv.Perm Name) (alternative : Alternative) :
    Alternative.relabel σ (Alternative.relabel σ.symm alternative) = alternative := by
  rw [Alternative.relabel_relabel, σ.self_comp_symm, Alternative.relabel_id]

theorem symm_relabel (σ : Equiv.Perm Name) (alternative : Alternative) :
    Alternative.relabel σ.symm (Alternative.relabel σ alternative) = alternative := by
  rw [Alternative.relabel_relabel, σ.symm_comp_self, Alternative.relabel_id]

theorem symm (l : Alike σ g h) : Alike σ.symm h g where
  start_eq := by rw [← l.start_eq, σ.symm_apply_apply]
  terminals := l.terminals.symm
  nonterminals := l.nonterminals.symm
  eq_of_notMem a ha := by
    rw [σ.symm_apply_eq, l.eq_of_notMem a fun hmem => ha (l.nonterminals.1 a hmem)]
  mem_alternatives_iff a alternative := by
    rw [l.mem_alternatives_iff, relabel_symm, σ.apply_symm_apply]

theorem apply_mem_nonterminals_iff (l : Alike σ g h) {a : Name} :
    σ a ∈ g.nonterminals ↔ a ∈ g.nonterminals := by
  constructor
  · intro hmem
    by_contra ha
    exact ha (l.eq_of_notMem a ha ▸ hmem)
  · intro ha
    by_contra hmem
    exact hmem ((σ.injective (l.eq_of_notMem _ hmem)).symm ▸ ha)

/-- Under the other names the first grammar is the second one but for the order. -/
theorem equiv (hg : g.WellFormed) (hh : h.WellFormed) (l : Alike σ g h) :
    (g.relabel σ).Equiv h := by
  have hnames : SameMembers (g.nonterminals.map σ) h.nonterminals := by
    refine .of_iff fun a => ?_
    obtain ⟨a, rfl⟩ := σ.surjective a
    rw [List.mem_map_of_injective σ.injective, ← l.nonterminals.mem_iff,
      l.apply_mem_nonterminals_iff]
  have hrules : (g.relabel σ).ruleNames = g.nonterminals.map σ := by
    rw [← hg.ruleNames_eq]
    simp [ruleNames, relabel, Rule.relabel]
  refine ⟨l.start_eq, l.terminals, hnames, ?_, fun a _ => .of_iff fun alternative => ?_⟩
  · rwa [hrules, hh.ruleNames_eq]
  · obtain ⟨a, rfl⟩ := σ.surjective a
    rw [alternatives_relabel σ.injective, ← relabel_symm σ alternative,
      List.mem_map_of_injective (Alternative.relabel_injective σ.injective),
      l.mem_alternatives_iff]

theorem freeNames_eq (l : Alike σ g h) : g.freeNames = h.freeNames := by
  unfold freeNames
  apply List.filter_congr
  intro a _
  simp [names, l.nonterminals.mem_iff, l.terminals.mem_iff]

section

variable {wanted : Alternative → List (List Symbol)}
  {answer : Helpers → List Symbol → Option Name} {make : Helpers → Alternative → Helpers}
  {change : Helpers → Alternative → Option Alternative} {Key : Alternative → Prop}

/-- Under the other names the same words want helpers. -/
theorem relabel_mem_demand_iff (hr : Helpers.Relabels wanted answer change) (hg : g.WellFormed)
    (hh : h.WellFormed) (l : Alike σ g h) {word : List Symbol} :
    Alternative.relabel σ word ∈ h.demand wanted ↔ word ∈ g.demand wanted := by
  rw [mem_demand_iff hg, mem_demand_iff hh]
  constructor
  · rintro ⟨a, alternative, ha, hword⟩
    rw [← σ.apply_symm_apply a, ← relabel_symm σ alternative, ← l.mem_alternatives_iff] at ha
    rw [← relabel_symm σ alternative] at hword
    obtain ⟨old, hold, heq⟩ := hr.mem_wanted_relabel.mp hword
    obtain rfl := Alternative.relabel_injective σ.injective heq
    exact ⟨_, _, ha, hold⟩
  · rintro ⟨a, alternative, ha, hword⟩
    exact ⟨_, _, (l.mem_alternatives_iff a alternative).mp ha,
      hr.mem_wanted_relabel.mpr ⟨word, hword, rfl⟩⟩

theorem length_demand_eq (hr : Helpers.Relabels wanted answer change) (hg : g.WellFormed)
    (hh : h.WellFormed) (l : Alike σ g h) :
    (g.demand wanted).length = (h.demand wanted).length := by
  have hnodup : ((g.demand wanted).map (Alternative.relabel σ)).Nodup :=
    (g.nodup_demand wanted).map (Alternative.relabel_injective σ.injective)
  have hperm : ((g.demand wanted).map (Alternative.relabel σ)).Perm (h.demand wanted) := by
    rw [List.perm_ext_iff_of_nodup hnodup (h.nodup_demand wanted)]
    intro word
    rw [← relabel_symm σ word, List.mem_map_of_injective
      (Alternative.relabel_injective σ.injective), l.relabel_mem_demand_iff hr hg hh]
  rw [← hperm.length_eq, List.length_map]

section

variable (hs : Helpers.Serves wanted answer make change) (hl : Helpers.Linked make change)
  (hf : Helpers.Fits Key make change) (hr : Helpers.Relabels wanted answer change)
  (hg : g.WellFormed) (hh : h.WellFormed) (l : Alike σ g h)
include hs hl hf hr hg hh l

/-- A round goes through for both grammars or for none, and takes the same names. -/
theorem result_round_eq : (g.round make change).result = (h.round make change).result := by
  rw [result_round hs hl hf hg, result_round hs hl hf hh, l.length_demand_eq hr hg hh,
    l.freeNames_eq]

/-- A permutation of the new names takes each helper to the one that stands for the same word. -/
theorem exists_perm_names {names : List Name} (hround : (g.round make change).result = .ok names) :
    ∃ ρ : Equiv.Perm Name, (∀ a ∉ names, ρ a = σ a) ∧
      ∀ word ∈ g.demand wanted, ∀ a, answer (g.gather make) word = some a →
        answer (h.gather make) (Alternative.relabel ρ word) = some (ρ a) := by
  have hround' := (l.result_round_eq hs hl hf hr hg hh).symm.trans hround
  obtain ⟨_, hnames⟩ := result_round_eq_ok_iff.mp hround
  obtain ⟨hcomplete, hnames'⟩ := result_round_eq_ok_iff.mp hround'
  have hanswered := (complete_iff_answered hs).mp hcomplete
  have hnew {a : Name} (ha : a ∈ names) : a ∉ g.nonterminals :=
    (valid_gather hf hg).notMem_nonterminals (hnames ▸ ha)
  let Sends (a b : Name) : Prop := ∃ word ∈ g.demand wanted,
    answer (g.gather make) word = some a ∧
      answer (h.gather make) (Alternative.relabel σ word) = some b
  have htotal : ∀ a ∈ names, ∃ b ∈ names, Sends a b := by
    intro a ha
    obtain ⟨word, hword, hanswer⟩ := (mem_names_gather_iff hs hl).mp (hnames ▸ ha)
    have hword' := (l.relabel_mem_demand_iff hr hg hh).mpr hword
    obtain ⟨b, hb⟩ := Option.isSome_iff_exists.mp (hanswered _ hword')
    exact ⟨b, hnames' ▸ hs.mem_names hb, word, hword, hanswer, hb⟩
  have hinjective : ∀ a ∈ names, ∀ a' ∈ names, ∀ b, Sends a b → Sends a' b → a = a' := by
    rintro a _ a' _ b ⟨word, hword, ha, hb⟩ ⟨word', hword', ha', hb'⟩
    have hsame := answer_injective hs hf hh ((l.relabel_mem_demand_iff hr hg hh).mpr hword)
      ((l.relabel_mem_demand_iff hr hg hh).mpr hword') hb hb'
    obtain rfl := Alternative.relabel_injective σ.injective hsame
    exact Option.some.inj (ha.symm.trans ha')
  obtain ⟨τ, hτ, hfixed⟩ := exists_perm_of_injective htotal hinjective
  have hold {a : Name} (ha : a ∈ g.nonterminals) : (σ.trans τ) a = σ a :=
    hfixed _ fun hmem => hnew hmem (l.apply_mem_nonterminals_iff.mpr ha)
  have hother {a : Name} (ha : a ∉ g.nonterminals) : (σ.trans τ) a = τ a :=
    congrArg τ (l.eq_of_notMem a ha)
  refine ⟨σ.trans τ, fun a ha => ?_, fun word hword a ha => ?_⟩
  · by_cases hmem : a ∈ g.nonterminals
    · exact hold hmem
    · rw [hother hmem, hfixed a ha, l.eq_of_notMem a hmem]
  · have hmem : a ∈ names := hnames ▸ hs.mem_names ha
    obtain ⟨word', hword', ha', hb⟩ := hτ a hmem
    obtain rfl := answer_injective hs hf hg hword hword' ha ha'
    have hsame : Alternative.relabel (σ.trans τ) word = Alternative.relabel σ word := by
      apply Alternative.relabel_congr
      intro b hb
      exact hold (hasSymbol_of_mem_demand hs hg hword _ hb)
    rw [hsame, hother (hnew hmem), hb]

/-- Alternatives that a round leaves in one grammar it leaves in the other one, under other names
for the helpers. -/
theorem relabel_mem_alternatives_round {names : List Name}
    (hround : (g.round make change).result = .ok names) {ρ : Equiv.Perm Name}
    (hold : ∀ a ∈ g.nonterminals, ρ a = σ a)
    (hanswer : ∀ word ∈ g.demand wanted, ∀ a, answer (g.gather make) word = some a →
      answer (h.gather make) (Alternative.relabel ρ word) = some (ρ a))
    {a : Name} {alternative : Alternative}
    (ha : alternative ∈ (g.round make change).grammar.alternatives a) :
    Alternative.relabel ρ alternative ∈ (h.round make change).grammar.alternatives (ρ a) := by
  have hround' := (l.result_round_eq hs hl hf hr hg hh).symm.trans hround
  have hwords {b : Name} {old : Alternative} (hmem : old ∈ g.alternatives b) :
      ∀ word ∈ wanted old, ∀ a, answer (g.gather make) word = some a →
        answer (h.gather make) (Alternative.relabel ρ word) = some (ρ a) :=
    fun word hword => hanswer word ((mem_demand_iff hg).mpr ⟨b, old, hmem, hword⟩)
  rw [mem_alternatives_round_iff hf hh hround']
  rcases (mem_alternatives_round_iff hf hg hround).mp ha with ⟨old, hmem, hchange⟩ | hentry
  · have hsame : Alternative.relabel ρ old = Alternative.relabel σ old := by
      apply Alternative.relabel_congr
      exact fun b hb => hold b (hg.hasSymbol_of_mem hmem hb)
    refine .inl ⟨Alternative.relabel σ old, ?_, hsame ▸ hr.change_relabel (hwords hmem) hchange⟩
    rw [hold a (hg.mem_nonterminals hmem)]
    exact (l.mem_alternatives_iff a old).mp hmem
  · obtain ⟨word, hword, hanswered⟩ :=
      (mem_names_gather_iff hs hl).mp (List.mem_map_of_mem hentry)
    obtain ⟨b, old, hmem, hword⟩ := (mem_demand_iff hg).mp hword
    obtain ⟨key, hkey, hkey'⟩ := hr.exists_key (hwords hmem) hword hanswered
    exact .inr ((valid_gather hf hg).key_unique hkey hentry ▸ hkey')

/-- A round that goes through leaves grammars that are alike under a permutation that also takes
the helpers into account. -/
theorem round {names : List Name} (hround : (g.round make change).result = .ok names) :
    ∃ ρ : Equiv.Perm Name, (∀ a ∉ names, ρ a = σ a) ∧
      Alike ρ (g.round make change).grammar (h.round make change).grammar := by
  have hround' := (l.result_round_eq hs hl hf hr hg hh).symm.trans hround
  obtain ⟨hcomplete, hnames⟩ := result_round_eq_ok_iff.mp hround
  obtain ⟨_, hnames'⟩ := result_round_eq_ok_iff.mp hround'
  have hanswered := (complete_iff_answered hs).mp hcomplete
  obtain ⟨ρ, hρ, hanswer⟩ := l.exists_perm_names hs hl hf hr hg hh hround
  have hold (a : Name) (ha : a ∈ g.nonterminals) : ρ a = σ a :=
    hρ a fun hmem => (valid_gather hf hg).notMem_nonterminals (hnames ▸ hmem) ha
  have hold' (a : Name) (ha : a ∈ h.nonterminals) : ρ.symm a = σ.symm a := by
    have hmem : σ.symm a ∈ g.nonterminals := by
      rw [← l.apply_mem_nonterminals_iff, σ.apply_symm_apply, l.nonterminals.mem_iff]
      exact ha
    rw [ρ.symm_apply_eq, hold _ hmem, σ.apply_symm_apply]
  have hanswer' (word : List Symbol) (hword : word ∈ h.demand wanted) (b : Name)
      (hb : answer (h.gather make) word = some b) :
      answer (g.gather make) (Alternative.relabel ρ.symm word) = some (ρ.symm b) := by
    obtain ⟨old, rfl⟩ : ∃ old, Alternative.relabel σ old = word := ⟨_, relabel_symm σ word⟩
    have hword := (l.relabel_mem_demand_iff hr hg hh).mp hword
    have hsame : Alternative.relabel σ old = Alternative.relabel ρ old := by
      apply Alternative.relabel_congr
      exact fun a ha => (hold a (hasSymbol_of_mem_demand hs hg hword _ ha)).symm
    obtain ⟨a, ha⟩ := Option.isSome_iff_exists.mp (hanswered old hword)
    rw [hsame] at hb ⊢
    obtain rfl := Option.some.inj ((hanswer old hword a ha).symm.trans hb)
    rw [symm_relabel, ρ.symm_apply_apply, ha]
  refine ⟨ρ, hρ, ?_⟩
  constructor
  case start_eq => exact (hold _ hg.start_mem).trans l.start_eq
  case terminals => exact l.terminals
  case nonterminals =>
    refine .of_iff fun a => ?_
    rw [mem_nonterminals_round, mem_nonterminals_round, ← hnames, ← hnames',
      l.nonterminals.mem_iff]
  case eq_of_notMem =>
    intro a ha
    rw [mem_nonterminals_round, ← hnames, not_or] at ha
    rw [hρ a ha.2, l.eq_of_notMem a ha.1]
  case mem_alternatives_iff =>
    intro a alternative
    constructor
    · exact l.relabel_mem_alternatives_round hs hl hf hr hg hh hround hold hanswer
    · intro ha
      have hback :=
        l.symm.relabel_mem_alternatives_round hs hl hf hr hh hg hround' hold' hanswer' ha
      rwa [symm_relabel, ρ.symm_apply_apply] at hback

end

end

/-- Cutting into pairs goes through for both grammars or for none, and takes the same names. What it
leaves is alike up to a permutation of them. -/
theorem binarize (hg : g.WellFormed) (hh : h.WellFormed) (l : Alike σ g h) :
    g.binarize.result = h.binarize.result ∧
      ∀ names, g.binarize.result = .ok names → ∃ ρ : Equiv.Perm Name,
        (∀ a ∉ names, ρ a = σ a) ∧ Alike ρ g.binarize.grammar h.binarize.grammar := by
  have hcut : g.cutLong.result = h.cutLong.result :=
    l.result_round_eq Helpers.serves_cut Helpers.linked_cut Helpers.fits_cut Helpers.relabels_cut
      hg hh
  rcases g.binarize_cases with ⟨fault, hfault, heq⟩ | ⟨pairs, hpairs, heq⟩
  · have heq' : h.binarize = ⟨.error fault, h.cutLong.grammar⟩ := by
      rw [Grammar.binarize, ← hcut, hfault]
    rw [heq, heq']
    refine ⟨rfl, fun names hnames => ?_⟩
    cases hnames
  · have heq' : h.binarize = ⟨h.cutLong.grammar.wrapTerminals.result.map (pairs ++ ·),
        h.cutLong.grammar.wrapTerminals.grammar⟩ := by
      rw [Grammar.binarize, ← hcut, hpairs]
    obtain ⟨ρ, hρ, l'⟩ := l.round Helpers.serves_cut Helpers.linked_cut Helpers.fits_cut
      Helpers.relabels_cut hg hh hpairs
    have hwrap : g.cutLong.grammar.wrapTerminals.result = h.cutLong.grammar.wrapTerminals.result :=
      l'.result_round_eq Helpers.serves_wrap Helpers.linked_wrap Helpers.fits_wrap
        Helpers.relabels_wrap hg.cutLong hh.cutLong
    rw [heq, heq', ← hwrap]
    refine ⟨rfl, fun names hnames => ?_⟩
    cases hwrappers : g.cutLong.grammar.wrapTerminals.result with
    | error fault => simp [hwrappers, Except.map] at hnames
    | ok wrappers =>
      obtain ⟨τ, hτ, l''⟩ := l'.round Helpers.serves_wrap Helpers.linked_wrap Helpers.fits_wrap
        Helpers.relabels_wrap hg.cutLong hh.cutLong hwrappers
      simp only [hwrappers, Except.map, Except.ok.injEq] at hnames
      refine ⟨τ, fun a ha => ?_, l''⟩
      rw [← hnames, List.mem_append, not_or] at ha
      rw [hτ a ha.2, hρ a ha.1]

end Alike

end Grammar

/-- The reports tell the same, with nonterminals listed in any order except for the helpers. -/
structure Report.Agrees (r s : Report) : Prop where
  alreadyNormal : r.alreadyNormal = s.alreadyNormal
  nullable : SameMembers r.nullable s.nullable
  startNullable : r.startNullable = s.startNullable
  unreachable : SameMembers r.unreachable s.unreachable
  unproductive : SameMembers r.unproductive s.unproductive
  helpers : r.helpers = s.helpers

namespace Grammar

variable {g h : Grammar}

/-- Equivalent grammars are both converted or both not, and the results are equivalent up to a
permutation of the helpers. -/
theorem Equiv.convert (hg : g.WellFormed) (hh : h.WellFormed) (e : g.Equiv h) :
    (∃ fault, g.convert.result = .error fault ∧ h.convert.result = .error fault) ∨
      ∃ report report', g.convert.result = .ok report ∧ h.convert.result = .ok report' ∧
        report.Agrees report' ∧
        ∃ σ : Equiv.Perm Name, (∀ a ∉ report.helpers, σ a = a) ∧
          (g.convert.grammar.relabel σ).Equiv h.convert.grammar := by
  cases hnormal : g.isNormal with
  | true =>
    have hnormal' := (e.isNormal_eq hg hh).symm.trans hnormal
    rw [convert_of_isNormal hnormal, convert_of_isNormal hnormal']
    refine .inr ⟨_, _, rfl, rfl, ⟨rfl, .refl _, rfl, .refl _, .refl _, rfl⟩, 1, fun a _ => rfl, ?_⟩
    exact e.alike.equiv hg hh
  | false =>
    have hnormal' := (e.isNormal_eq hg hh).symm.trans hnormal
    have hepsilon := e.withoutEpsilon hg hh
    have hrenamings := hepsilon.withoutRenamings hg.withoutEpsilon hh.withoutEpsilon
    have hwell := hg.withoutEpsilon.withoutRenamings
    have hwell' := hh.withoutEpsilon.withoutRenamings
    have hreached := hrenamings.withoutUnreachable hwell hwell'
    obtain ⟨hbinary, hgrammar⟩ := (e.pruned hg hh).alike.binarize hg.pruned hh.pruned
    rw [convert_result hnormal, convert_result hnormal', ← hbinary, convert_grammar hnormal,
      convert_grammar hnormal']
    cases hresult : g.pruned.binarize.result with
    | error fault => exact .inl ⟨fault, rfl, rfl⟩
    | ok names =>
      obtain ⟨σ, hσ, l⟩ := hgrammar names hresult
      have hstart : g.nullable.contains g.start = h.nullable.contains h.start := by
        rw [e.1, Bool.eq_iff_iff]
        simp [(e.nullable hg hh).mem_iff]
      refine .inr ⟨_, _, rfl, rfl, ⟨rfl, e.nullable hg hh, hstart, ?_, ?_, rfl⟩, σ, hσ, ?_⟩
      · exact hrenamings.unreachable hwell hwell'
      · exact hreached.unproductive hwell.withoutUnreachable hwell'.withoutUnreachable
      · exact l.equiv hg.pruned.binarize hh.pruned.binarize

/-- What is done to a grammar does not depend on the order in which it is written down. Every stage
in front of the last one gives equivalent grammars, and so does the conversion as a whole up to a
permutation of the helpers. -/
theorem convert_of_equiv (hg : g.Obtained) (hh : h.Obtained) (e : g.Equiv h) :
    (g.withoutEpsilon.Equiv h.withoutEpsilon ∧ SameMembers g.nullable h.nullable) ∧
    g.withoutRenamings.Equiv h.withoutRenamings ∧
    (g.withoutUnreachable.Equiv h.withoutUnreachable ∧
      SameMembers g.unreachable h.unreachable) ∧
    (g.withoutUnproductive.Equiv h.withoutUnproductive ∧
      SameMembers g.unproductive h.unproductive) ∧
    ((∃ fault, g.convert.result = .error fault ∧ h.convert.result = .error fault) ∨
      ∃ report report', g.convert.result = .ok report ∧ h.convert.result = .ok report' ∧
        report.Agrees report' ∧
        ∃ σ : Equiv.Perm Name, (∀ a ∉ report.helpers, σ a = a) ∧
          (g.convert.grammar.relabel σ).Equiv h.convert.grammar) := by
  have hwell := hg.wellFormed
  have hwell' := hh.wellFormed
  refine ⟨⟨?_, ?_⟩, ?_, ⟨?_, ?_⟩, ⟨?_, ?_⟩, e.convert hwell hwell'⟩
  · exact e.withoutEpsilon hwell hwell'
  · exact e.nullable hwell hwell'
  · exact e.withoutRenamings hwell hwell'
  · exact e.withoutUnreachable hwell hwell'
  · exact e.unreachable hwell hwell'
  · exact e.withoutUnproductive hwell hwell'
  · exact e.unproductive hwell hwell'

/-- Two long alternatives without a common beginning. -/
def crossing : Grammar where
  nonterminals := ["S"]
  terminals := ["a", "b"]
  rules := [⟨"S", [[.terminal "a", .terminal "b", .terminal "b"],
    [.terminal "b", .terminal "a", .terminal "a"]]⟩]
  start := "S"

/-- The same alternatives the other way round. -/
def crossed : Grammar where
  nonterminals := ["S"]
  terminals := ["a", "b"]
  rules := [⟨"S", [[.terminal "b", .terminal "a", .terminal "a"],
    [.terminal "a", .terminal "b", .terminal "b"]]⟩]
  start := "S"

theorem crossing_built : crossing.Built :=
  .declared (d := ⟨["S"], ["a", "b"], [("S", [["a", "b", "b"], ["b", "a", "a"]])], "S"⟩) rfl

theorem crossed_built : crossed.Built :=
  .declared (d := ⟨["S"], ["a", "b"], [("S", [["b", "a", "a"], ["a", "b", "b"]])], "S"⟩) rfl

theorem convert_crossing :
    crossing.convert.result = .ok ⟨false, [], false, [], [], ["0", "1", "2", "3"]⟩ ∧
      crossing.convert.grammar.alternatives "2" = [[.terminal "b"]] := by
  have hnormal : crossing.isNormal = false := by decide
  have hpruned : crossing.pruned = crossing := by
    rw [pruned]
    cbv
  have hbinary : crossing.binarize.result = .ok ["0", "1", "2", "3"] := rfl
  constructor
  · rw [convert_result hnormal, hpruned, hbinary]
    cbv
  · rw [convert_grammar hnormal, hpruned]
    rfl

theorem convert_crossed : crossed.convert.grammar.alternatives "2" = [[.terminal "a"]] := by
  have hnormal : crossed.isNormal = false := by decide
  have hpruned : crossed.pruned = crossed := by
    rw [pruned]
    cbv
  rw [convert_grammar hnormal, hpruned]
  rfl

/-- The helper `2` stands for different terminals, so the order does show in the names. -/
theorem convert_crossing_of_equiv :
    crossing.Built ∧ crossed.Built ∧ crossing.Equiv crossed ∧
      crossing.convert.result = .ok ⟨false, [], false, [], [], ["0", "1", "2", "3"]⟩ ∧
      ¬ crossing.convert.grammar.Equiv crossed.convert.grammar ∧
      ∃ σ : Equiv.Perm Name, (∀ a ∉ ["0", "1", "2", "3"], σ a = a) ∧
        (crossing.convert.grammar.relabel σ).Equiv crossed.convert.grammar := by
  have hequiv : crossing.Equiv crossed := by decide
  obtain ⟨hresult, hgrammar⟩ := convert_crossing
  have hsame := convert_of_equiv ⟨crossing, [], crossing_built, rfl⟩
    ⟨crossed, [], crossed_built, rfl⟩ hequiv
  refine ⟨crossing_built, crossed_built, hequiv, hresult, fun hsame => ?_, ?_⟩
  · have hmem : [.terminal "b"] ∈ crossing.convert.grammar.alternatives "2" := by simp [hgrammar]
    rw [hsame.mem_alternatives_iff, convert_crossed] at hmem
    revert hmem
    decide
  · rcases hsame.2.2.2.2 with ⟨fault, hfault, _⟩ | ⟨report, _, hreport, _, _, hσ⟩
    · cases hresult.symm.trans hfault
    · obtain rfl := Except.ok.inj (hresult.symm.trans hreport)
      exact hσ

end Grammar

end ContextFree
