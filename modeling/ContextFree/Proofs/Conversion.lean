import ContextFree.Proofs.Representation
import Mathlib.Data.List.Permutation

/-!
A conversion that succeeds leaves a grammar in Chomsky normal form. Every nonterminal that is not
reported as useless keeps its sentences, except the empty one.
-/

namespace ContextFree

theorem Alternative.isNormal_iff {alternative : Alternative} :
    alternative.isNormal = true ↔
      (∃ a, alternative = [.terminal a]) ∨
        ∃ a b, alternative = [.nonterminal a, .nonterminal b] := by
  constructor
  · intro h
    unfold isNormal at h
    split at h
    next a => exact .inl ⟨a, rfl⟩
    next a b => exact .inr ⟨a, b, rfl⟩
    next => cases h
  · rintro (⟨a, rfl⟩ | ⟨a, b, rfl⟩) <;> rfl

namespace Grammar

variable {g : Grammar} {report : Report}

theorem isNormal_iff :
    g.isNormal = true ↔
      ∀ r ∈ g.rules, ∀ alternative ∈ r.alternatives, alternative.isNormal = true := by
  simp [isNormal]

/-- A conversion that has something to do succeeds if its last stage does. -/
theorem exists_helpers_of_convert (hnormal : g.isNormal = false)
    (h : g.convert.result = .ok report) :
    ∃ helpers, g.pruned.binarize.result = .ok helpers ∧
      report = ⟨false, g.nullable, g.nullable.contains g.start,
        g.withoutEpsilon.withoutRenamings.unreachable,
        g.withoutEpsilon.withoutRenamings.withoutUnreachable.unproductive, helpers⟩ := by
  rw [convert_result hnormal] at h
  cases hbinary : g.pruned.binarize.result with
  | error fault => simp [hbinary, Except.map] at h
  | ok helpers =>
    rw [hbinary] at h
    exact ⟨helpers, rfl, (Except.ok.inj h).symm⟩

/-- A conversion that does not report the normal form did not find it. -/
theorem isNormal_of_report (h : g.convert.result = .ok report)
    (hnew : report.alreadyNormal = false) : g.isNormal = false := by
  cases hnormal : g.isNormal with
  | false => rfl
  | true =>
    rw [convert_of_isNormal hnormal] at h
    obtain rfl := Except.ok.inj h
    cases hnew

theorem eq_outOfNames_of_convert {fault : GrammarError}
    (h : g.convert.result = .error fault) : fault = .outOfNames := by
  cases hnormal : g.isNormal with
  | true =>
    rw [convert_of_isNormal hnormal] at h
    cases h
  | false =>
    rw [convert_result hnormal, map_eq_error_iff] at h
    exact eq_outOfNames_of_binarize h

/-- The alternatives that are left for the last stage are neither empty nor renamings. -/
theorem of_mem_alternatives_pruned {a : Name} {alternative : Alternative}
    (h : alternative ∈ g.pruned.alternatives a) :
    alternative ≠ [] ∧ alternative.renamed? = none := by
  obtain ⟨_, h, _⟩ := mem_alternatives_withoutUnproductive.mp h
  obtain ⟨_, h⟩ := mem_alternatives_withoutUnreachable.mp h
  obtain ⟨hr, b, _, hb⟩ := mem_alternatives_withoutRenamings.mp h
  exact ⟨(mem_alternatives_withoutEpsilon.mp hb).1, hr⟩

/-- An alternative of one symbol that is no renaming is a terminal. -/
theorem exists_terminal {alternative : Alternative} (hlength : alternative.length < 2)
    (hne : alternative ≠ []) (hr : alternative.renamed? = none) :
    ∃ a, alternative = [.terminal a] := by
  match alternative with
  | [] => exact absurd rfl hne
  | [.terminal a] => exact ⟨a, rfl⟩
  | [.nonterminal a] => simp [Alternative.renamed?] at hr
  | _ :: _ :: _ =>
    simp only [List.length_cons] at hlength
    omega

/-- Cutting a grammar without empty alternatives and renamings gives the normal form. -/
theorem isNormal_binarize (hg : g.WellFormed)
    (hshape : ∀ r ∈ g.rules, ∀ alternative ∈ r.alternatives,
      alternative ≠ [] ∧ alternative.renamed? = none)
    {names : List Name} (h : g.binarize.result = .ok names) :
    g.binarize.grammar.isNormal = true := by
  obtain ⟨_, _, hpairs, hwrappers, _, heq⟩ := binarize_eq_ok h
  have hshort := forall_alternatives_round Helpers.fits_cut hg hpairs
    (Q := fun x => (∃ a, x = [.terminal a]) ∨ x.length = 2) hshape ?_ fun _ => .inr
  · rw [heq, isNormal_iff]
    refine forall_alternatives_round Helpers.fits_wrap hg.cutLong hwrappers hshort ?_ ?_
    · intro helpers alternative changed hchange hs
      rw [Alternative.isNormal_iff]
      by_cases hlength : alternative.length = 2
      · exact .inr (Helpers.exists_pair_of_wrap hchange hlength)
      · rcases Helpers.wrap_eq_some hchange with ⟨hlength', _⟩ | ⟨_, rfl⟩
        · exact absurd hlength' hlength
        · exact .inl (hs.resolve_right hlength)
    · exact fun alternative ha => Alternative.isNormal_iff.mpr (.inl ha)
  · intro helpers alternative changed hchange hs
    rcases Helpers.cut_eq_some hchange with ⟨hlength, rfl⟩ | ⟨_, hlength⟩
    · exact .inl (exists_terminal hlength hs.1 hs.2)
    · exact .inr hlength

/-- Conversion succeeds with the normal form only. -/
theorem isNormal_convert (hg : g.WellFormed) (h : g.convert.result = .ok report) :
    g.convert.grammar.isNormal = true := by
  cases hnormal : g.isNormal with
  | true => rwa [convert_of_isNormal hnormal]
  | false =>
    obtain ⟨helpers, hbinary, _⟩ := exists_helpers_of_convert hnormal h
    have hpruned := hg.pruned
    have hshape : ∀ r ∈ g.pruned.rules, ∀ alternative ∈ r.alternatives,
        alternative ≠ [] ∧ alternative.renamed? = none :=
      (forall_alternatives_iff hpruned).mpr fun _ _ => of_mem_alternatives_pruned
    rw [convert_grammar hnormal]
    exact isNormal_binarize hpruned hshape hbinary

theorem shape_of_isNormal (h : g.isNormal = true) {a : Name} {alternative : Alternative}
    (ha : alternative ∈ g.alternatives a) :
    (∃ b, alternative = [.terminal b]) ∨
      ∃ b c, alternative = [.nonterminal b, .nonterminal c] := by
  obtain ⟨r, hr, _, hmem⟩ := exists_rule ha
  exact Alternative.isNormal_iff.mp (isNormal_iff.mp h r hr alternative hmem)

/-- A converted grammar derives nothing from nothing. -/
theorem nil_notMem_alternatives_of_isNormal (h : g.isNormal = true) (a : Name) :
    [] ∉ g.alternatives a := by
  intro hmem
  rcases shape_of_isNormal h hmem with ⟨_, h⟩ | ⟨_, _, h⟩ <;> cases h

theorem nonterminals_withoutRenamings (g : Grammar) :
    g.withoutRenamings.nonterminals = g.nonterminals :=
  withoutRenamings_induction (P := fun k => k.nonterminals = g.nonterminals) (fun _ _ hk => hk) rfl

/-- The nonterminals that the first four stages leave, in the order that they had. -/
theorem nonterminals_pruned (g : Grammar) :
    g.pruned.nonterminals =
      g.nonterminals.filter (!(g.withoutEpsilon.withoutRenamings.unreachable ++
        g.withoutEpsilon.withoutRenamings.withoutUnreachable.unproductive).contains ·) := by
  have hbefore : g.withoutEpsilon.withoutRenamings.nonterminals = g.nonterminals :=
    nonterminals_withoutRenamings _
  rw [← hbefore]
  refine List.filter_filter.trans (List.filter_congr fun a _ => ?_)
  rw [Bool.eq_iff_iff]
  simp [unreachable, unproductive, and_comm]

theorem mem_nonterminals_pruned {a : Name} :
    a ∈ g.pruned.nonterminals ↔
      a ∈ g.nonterminals ∧ a ∉ g.withoutEpsilon.withoutRenamings.unreachable ∧
        a ∉ g.withoutEpsilon.withoutRenamings.withoutUnreachable.unproductive := by
  simp [nonterminals_pruned]

/-- The first four stages cost a nonterminal that they leave the empty sentence only. -/
theorem generates_pruned_iff (hg : g.WellFormed) {a : Name} (ha : a ∈ g.pruned.nonterminals)
    {w : List Name} : g.pruned.Generates a w ↔ g.Generates a w ∧ w ≠ [] := by
  have hrenamings := hg.withoutEpsilon.withoutRenamings
  calc g.pruned.Generates a w
      ↔ g.withoutEpsilon.withoutRenamings.withoutUnreachable.Generates a w :=
        derives_withoutUnproductive_iff hrenamings.withoutUnreachable
    _ ↔ g.withoutEpsilon.withoutRenamings.Generates a w :=
        generates_withoutUnreachable_iff hrenamings (mem_nonterminals_pruned.mp ha).2.1
    _ ↔ g.withoutEpsilon.Generates a w := derives_withoutRenamings_iff
    _ ↔ g.Generates a w ∧ w ≠ [] := generates_withoutEpsilon_iff hg.nodup_ruleNames

theorem generates_convert_iff (hg : g.WellFormed) (h : g.convert.result = .ok report) {a : Name}
    (ha : a ∈ g.nonterminals) (hreached : a ∉ report.unreachable)
    (hproductive : a ∉ report.unproductive) {w : List Name} :
    g.convert.grammar.Generates a w ↔ g.Generates a w ∧ w ≠ [] := by
  cases hnormal : g.isNormal with
  | true =>
    rw [convert_of_isNormal hnormal]
    constructor
    · intro hw
      exact ⟨hw, Derives.ne_nil (nil_notMem_alternatives_of_isNormal hnormal) hw (by simp)⟩
    · exact And.left
  | false =>
    obtain ⟨helpers, hbinary, rfl⟩ := exists_helpers_of_convert hnormal h
    have hmem : a ∈ g.pruned.nonterminals := mem_nonterminals_pruned.mpr ⟨ha, hreached, hproductive⟩
    rw [convert_grammar hnormal, generates_binarize_iff hg.pruned hbinary hmem]
    exact generates_pruned_iff hg hmem

/-- The start symbol is never reported as useless. -/
theorem start_notMem_report (h : g.convert.result = .ok report) :
    g.start ∉ report.unreachable ∧ g.start ∉ report.unproductive := by
  cases hnormal : g.isNormal with
  | true =>
    rw [convert_of_isNormal hnormal] at h
    obtain rfl := Except.ok.inj h
    simp
  | false =>
    obtain ⟨helpers, _, rfl⟩ := exists_helpers_of_convert hnormal h
    have hstart := (keeps_withoutRenamings g.withoutEpsilon).start_eq
    constructor
    · exact fun hmem => (mem_outside.mp hmem).2.1 hstart.symm
    · exact fun hmem => (mem_outside.mp hmem).2.1 hstart.symm

/-- A conversion that succeeds costs the start symbol, and every nonterminal that is not reported as
useless, the empty sentence and nothing else. -/
theorem convert_keeps_sentences (hg : g.Obtained) (h : g.convert.result = .ok report) :
    g.convert.grammar.start = g.start ∧
      (∀ w, g.convert.grammar.Generates g.start w ↔ g.Generates g.start w ∧ w ≠ []) ∧
      ∀ a ∈ g.nonterminals, a ∉ report.unreachable → a ∉ report.unproductive →
        ∀ w, g.convert.grammar.Generates a w ↔ g.Generates a w ∧ w ≠ [] := by
  have hwell := hg.wellFormed
  have hstart := start_notMem_report h
  refine ⟨(keeps_convert g).start_eq, fun w => ?_, fun a ha hreached hproductive w => ?_⟩
  · exact generates_convert_iff hwell h hwell.start_mem hstart.1 hstart.2
  · exact generates_convert_iff hwell h ha hreached hproductive

/-- The fresh nonterminal `0` has no alternatives yet. -/
theorem mixed_run_addFresh : mixed.run [.addFresh] =
    { mixed with
      nonterminals := ["S", "A", "N", "U", "0"]
      rules := mixed.rules ++ [⟨"0", []⟩] } := rfl

theorem convert_mixed_result :
    (mixed.run [.addFresh]).convert.result =
      .ok ⟨false, ["S", "A"], true, ["U", "0"], ["N"], ["0", "1"]⟩ := by
  have hbinary : (mixed.run [.addFresh]).pruned.binarize.result = .ok ["0", "1"] := by
    rw [mixed_run_addFresh, pruned]
    conv => lhs; arg 1; arg 1; cbv
    rfl
  rw [convert_result (by decide), hbinary, mixed_run_addFresh]
  cbv

/-- The helper `0` has another meaning than the nonterminal of that name that was taken out. -/
theorem convert_mixed_keeps_sentences :
    (mixed.run [.addFresh]).convert.result =
        .ok ⟨false, ["S", "A"], true, ["U", "0"], ["N"], ["0", "1"]⟩ ∧
      ∀ w, (mixed.run [.addFresh]).convert.grammar.Generates "A" w ↔
        (mixed.run [.addFresh]).Generates "A" w ∧ w ≠ [] := by
  have hobtained : (mixed.run [.addFresh]).Obtained := ⟨mixed, _, mixed_built, rfl⟩
  have hkeeps := convert_keeps_sentences hobtained convert_mixed_result
  exact ⟨convert_mixed_result, hkeeps.2.2 "A" (by decide) (by decide) (by decide)⟩

/-- A conversion that succeeds leaves the normal form, and every further conversion finds it and
touches nothing. -/
theorem convert_is_final (hg : g.Obtained) (h : g.convert.result = .ok report) :
    (∀ r ∈ g.convert.grammar.rules, ∀ alternative ∈ r.alternatives,
      (∃ a, alternative = [.terminal a]) ∨
        ∃ a b, alternative = [.nonterminal a, .nonterminal b]) ∧
    g.convert.grammar.isNormal = true ∧
    ∀ n, (g.convert.grammar.run (List.replicate n .convert)).convert =
      ⟨.ok ⟨true, [], false, [], [], []⟩, [], g.convert.grammar⟩ := by
  have hnormal := isNormal_convert hg.wellFormed h
  refine ⟨fun r hr alternative ha => ?_, hnormal, fun n => ?_⟩
  · exact Alternative.isNormal_iff.mp (isNormal_iff.mp hnormal r hr alternative ha)
  · have hfixed : g.convert.grammar.run (List.replicate n .convert) = g.convert.grammar := by
      induction n with
      | zero => rfl
      | succ n ih =>
        rw [List.replicate_succ, run, List.foldl_cons]
        rw [Operation.apply, convert_of_isNormal hnormal]
        exact ih
    rw [hfixed, convert_of_isNormal hnormal]

theorem convert_mixed_is_final :
    (mixed.run [.addFresh]).convert.result =
        .ok ⟨false, ["S", "A"], true, ["U", "0"], ["N"], ["0", "1"]⟩ ∧
      (mixed.run [.addFresh]).convert.grammar.isNormal = true ∧
      (mixed.run [.addFresh, .convert, .convert]).convert =
        ⟨.ok ⟨true, [], false, [], [], []⟩, [], (mixed.run [.addFresh]).convert.grammar⟩ := by
  have hobtained : (mixed.run [.addFresh]).Obtained := ⟨mixed, _, mixed_built, rfl⟩
  have hfinal := convert_is_final hobtained convert_mixed_result
  exact ⟨convert_mixed_result, hfinal.2.1, hfinal.2.2 1⟩

end Grammar

end ContextFree
