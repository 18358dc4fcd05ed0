import ContextFree.Proofs.Conversion

/-!
The report of a conversion against the grammar that was converted. Unproductive nonterminals are
looked for behind three other stages, but these cost the nonterminals that they leave no sentence
except the empty one.
-/

namespace ContextFree

namespace Grammar

variable {g : Grammar} {report : Report}

theorem not_generates_nil_of_isNormal (h : g.isNormal = true) (a : Name) : ¬ g.Generates a [] :=
  fun hw => Derives.ne_nil (nil_notMem_alternatives_of_isNormal h) hw (by simp) rfl

/-- What is reached and then found unproductive had no sentence to begin with, except possibly the
empty one. -/
theorem mem_unproductive_withoutUnreachable_iff (hg : g.WellFormed) {a : Name} :
    a ∈ g.withoutEpsilon.withoutRenamings.withoutUnreachable.unproductive ↔
      a ∈ g.nonterminals ∧ a ≠ g.start ∧ a ∉ g.withoutEpsilon.withoutRenamings.unreachable ∧
        ∀ w, w ≠ [] → ¬ g.Generates a w := by
  have hrenamings := hg.withoutEpsilon.withoutRenamings
  have hstart : g.withoutEpsilon.withoutRenamings.withoutUnreachable.start = g.start :=
    (keeps_withoutRenamings g.withoutEpsilon).start_eq
  have hkept (ha : a ∉ g.withoutEpsilon.withoutRenamings.unreachable) (w : List Name) :
      g.withoutEpsilon.withoutRenamings.withoutUnreachable.Generates a w ↔
        g.Generates a w ∧ w ≠ [] :=
    calc g.withoutEpsilon.withoutRenamings.withoutUnreachable.Generates a w
        ↔ g.withoutEpsilon.withoutRenamings.Generates a w :=
          generates_withoutUnreachable_iff hrenamings ha
      _ ↔ g.withoutEpsilon.Generates a w := derives_withoutRenamings_iff
      _ ↔ g.Generates a w ∧ w ≠ [] := generates_withoutEpsilon_iff hg.nodup_ruleNames
  rw [mem_unproductive_iff hrenamings.withoutUnreachable, mem_nonterminals_withoutUnreachable,
    nonterminals_withoutRenamings, hstart]
  constructor
  · intro h'
    obtain ⟨⟨ha, hreached⟩, hne, hnone⟩ := h'
    refine ⟨ha, hne, hreached, fun w hw hgen => hnone w ?_⟩
    exact (hkept hreached w).mpr ⟨hgen, hw⟩
  · intro h'
    obtain ⟨ha, hne, hreached, hnone⟩ := h'
    refine ⟨⟨ha, hreached⟩, hne, fun w hgen => ?_⟩
    obtain ⟨hgen, hw⟩ := (hkept hreached w).mp hgen
    exact hnone w hw hgen

/-- A conversion tells the truth about the grammar that it was given: whether its start symbol
derives the empty sentence, which nonterminals do, and which of those that are reached derive no
other sentence. -/
theorem report_is_true (hg : g.Obtained) (h : g.convert.result = .ok report) :
    (report.startNullable = true ↔ g.Generates g.start []) ∧
    (report.alreadyNormal = false →
      (∀ a, a ∈ report.nullable ↔ a ∈ g.nonterminals ∧ g.Generates a []) ∧
      ∀ a, a ∈ report.unproductive ↔
        a ∈ g.nonterminals ∧ a ≠ g.start ∧ a ∉ report.unreachable ∧
          ∀ w, w ≠ [] → ¬ g.Generates a w) := by
  have hwell := hg.wellFormed
  have hnullable (a : Name) : a ∈ g.nullable ↔ g.Generates a [] :=
    mem_nullable_iff hwell.nodup_ruleNames
  cases hnormal : g.isNormal with
  | true =>
    rw [convert_of_isNormal hnormal] at h
    obtain rfl := Except.ok.inj h
    simpa using not_generates_nil_of_isNormal hnormal g.start
  | false =>
    obtain ⟨helpers, _, rfl⟩ := exists_helpers_of_convert hnormal h
    refine ⟨by simpa using hnullable g.start, fun _ => ⟨fun a => ?_, fun a => ?_⟩⟩
    · rw [hnullable]
      exact ⟨fun ha => ⟨mem_nonterminals_of_generates hwell ha, ha⟩, And.right⟩
    · exact mem_unproductive_withoutUnreachable_iff hwell

/-- `N` derives nothing at all, and `0`, which has no alternatives, is not reached either. -/
theorem report_mixed_is_true :
    (mixed.run [.addFresh]).convert.result =
        .ok ⟨false, ["S", "A"], true, ["U", "0"], ["N"], ["0", "1"]⟩ ∧
      (mixed.run [.addFresh]).Generates "S" [] ∧ (mixed.run [.addFresh]).Generates "A" [] ∧
      ∀ w, w ≠ [] → ¬ (mixed.run [.addFresh]).Generates "N" w := by
  have hobtained : (mixed.run [.addFresh]).Obtained := ⟨mixed, _, mixed_built, rfl⟩
  obtain ⟨hstart, hnew⟩ := report_is_true hobtained convert_mixed_result
  obtain ⟨hnullable, hunproductive⟩ := hnew rfl
  exact ⟨convert_mixed_result, hstart.mp rfl, ((hnullable "A").mp (by decide)).2,
    ((hunproductive "N").mp (by decide)).2.2.2⟩

end Grammar

end ContextFree
