import ContextFree.Proofs.Conversion

/-!
Runs in which every operation goes through. Whatever their order, they cost the start symbol at most
the empty sentence, and that one exactly if empty alternatives are taken out on the way.
-/

namespace ContextFree

theorem isOk_iff {ε α : Type} {x : Except ε α} : x.isOk = true ↔ ∃ a, x = .ok a := by
  cases x <;> simp [Except.isOk, Except.toBool]

namespace Grammar

variable {g : Grammar}

/-- A new name has no alternatives, as if it had no rule. -/
theorem alternatives_addFresh (g : Grammar) (b : Name) :
    g.addFresh.grammar.alternatives b = g.alternatives b := by
  unfold addFresh
  split
  next => rfl
  next a _ _ =>
    unfold alternatives alternatives?
    rw [List.find?_append]
    cases g.rules.find? (·.name == b) with
    | some r => rfl
    | none => by_cases hab : a = b <;> simp [hab]

theorem start_notMem_outside (g : Grammar) (names : List Name) : g.start ∉ g.outside names :=
  fun h => (mem_outside.mp h).2.1 rfl

theorem generates_stage_iff (hg : g.WellFormed) {stage : Stage}
    (h : (Operation.stage stage).succeeds g = true) {w : List Name} :
    (stage.apply g).Generates g.start w ↔
      g.Generates g.start w ∧ ((Operation.stage stage).dropsEmpty g = true → w ≠ []) := by
  cases stage with
  | epsilon =>
    have hkept := generates_withoutEpsilon_iff hg.nodup_ruleNames (a := g.start) (w := w)
    simpa [Stage.apply, Operation.dropsEmpty] using hkept
  | renamings =>
    have hkept : g.withoutRenamings.Generates g.start w ↔ g.Generates g.start w :=
      derives_withoutRenamings_iff
    simpa [Stage.apply, Operation.dropsEmpty] using hkept
  | reachability =>
    have hkept := generates_withoutUnreachable_iff hg (g.start_notMem_outside g.reachable) (w := w)
    simpa [Stage.apply, Operation.dropsEmpty] using hkept
  | productivity =>
    have hkept : g.withoutUnproductive.Generates g.start w ↔ g.Generates g.start w :=
      derives_withoutUnproductive_iff hg
    simpa [Stage.apply, Operation.dropsEmpty] using hkept
  | binary =>
    obtain ⟨names, hnames⟩ := isOk_iff.mp h
    have hkept := generates_binarize_iff hg hnames hg.start_mem (w := w)
    simpa [Stage.apply, Operation.dropsEmpty] using hkept

/-- What one operation that goes through costs the start symbol. -/
theorem generates_apply_iff (hg : g.WellFormed) {operation : Operation}
    (h : operation.succeeds g = true) {w : List Name} :
    (operation.apply g).Generates g.start w ↔
      g.Generates g.start w ∧ (operation.dropsEmpty g = true → w ≠ []) := by
  cases operation with
  | stage stage => exact generates_stage_iff hg h
  | addFresh =>
    have hkept : g.addFresh.grammar.Generates g.start w ↔ g.Generates g.start w :=
      derives_congr g.alternatives_addFresh
    simpa [Operation.apply, Operation.dropsEmpty] using hkept
  | convert =>
    cases hnormal : g.isNormal with
    | true => simp [Operation.apply, Operation.dropsEmpty, convert_of_isNormal hnormal, hnormal]
    | false =>
      obtain ⟨report, hreport⟩ := isOk_iff.mp h
      obtain ⟨hreached, hproductive⟩ := start_notMem_report hreport
      have hkept := generates_convert_iff hg hreport hg.start_mem hreached hproductive (w := w)
      simpa [Operation.apply, Operation.dropsEmpty, hnormal] using hkept

/-- What a run costs the start symbol is what its operations cost it one by one. -/
theorem generates_run_iff (hg : g.WellFormed) {operations : List Operation}
    (h : g.runSucceeds operations = true) {w : List Name} :
    (g.run operations).Generates g.start w ↔
      g.Generates g.start w ∧ (g.runDropsEmpty operations = true → w ≠ []) := by
  induction operations generalizing g with
  | nil => simp [run, runDropsEmpty]
  | cons operation rest ih =>
    obtain ⟨hfirst, hrest⟩ := Bool.and_eq_true_iff.mp h
    have hkeeps := keeps_apply g operation
    have hlater := ih (hkeeps.wellFormed hg) hrest
    rw [hkeeps.start_eq] at hlater
    show ((operation.apply g).run rest).Generates g.start w ↔ _
    rw [hlater, generates_apply_iff hg hfirst, runDropsEmpty, Bool.or_eq_true, or_imp, and_assoc]

/-- Operations that go through keep every sentence but the empty one, in whatever order they are
asked for and however often. The empty one stays exactly if none of them takes empty alternatives
out. -/
theorem run_keeps_sentences (hg : g.Built) {operations : List Operation}
    (h : g.runSucceeds operations = true) :
    (∀ w, w ≠ [] → ((g.run operations).Generates (g.run operations).start w ↔
      g.Generates g.start w)) ∧
    ((g.run operations).Generates (g.run operations).start [] ↔
      g.Generates g.start [] ∧ g.runDropsEmpty operations = false) := by
  have hkept (w : List Name) := generates_run_iff hg.wellFormed h (w := w)
  rw [(keeps_run g operations).start_eq]
  constructor
  · intro w hw
    simp [hkept, hw]
  · simp [hkept]

/-- The conversion in between costs `mixed` its empty sentence, and nothing else. -/
theorem run_mixed_keeps_sentences :
    mixed.Built ∧
      mixed.runSucceeds [.addFresh, .convert, .stage .reachability, .stage .renamings] = true ∧
      (∀ w, w ≠ [] →
        ((mixed.run [.addFresh, .convert, .stage .reachability, .stage .renamings]).Generates
          (mixed.run [.addFresh, .convert, .stage .reachability, .stage .renamings]).start w ↔
            mixed.Generates "S" w)) ∧
      ¬ (mixed.run [.addFresh, .convert, .stage .reachability, .stage .renamings]).Generates
        (mixed.run [.addFresh, .convert, .stage .reachability, .stage .renamings]).start [] := by
  have hsucceeds :
      mixed.runSucceeds [.addFresh, .convert, .stage .reachability, .stage .renamings] = true := by
    have hconvert : (mixed.run [.addFresh]).convert.result.isOk = true := by
      rw [convert_mixed_result]
      rfl
    show (true && ((mixed.run [.addFresh]).convert.result.isOk && true)) = true
    rw [hconvert]
    rfl
  obtain ⟨hkeeps, hempty⟩ := run_keeps_sentences mixed_built hsucceeds
  refine ⟨mixed_built, hsucceeds, hkeeps, fun h => ?_⟩
  have hdrops :
      (false || (!(mixed.run [.addFresh]).isNormal || (false || (false || false)))) = false :=
    (hempty.mp h).2
  exact absurd hdrops (by decide)

end Grammar

end ContextFree
