import ContextFree.Proofs.Connected
import ContextFree.Proofs.Run

/-!
What a conversion shows after each stage. What one stage establishes is not undone by the later
ones, except that nonterminals may be stranded again behind the search for reachable ones.
-/

namespace ContextFree

namespace Grammar

variable {g k : Grammar} {report : Report}

/-- Taking nonterminals or alternatives out leaves the shape of those that stay. -/
theorem forall_alternatives_of_subset {P : Alternative → Prop} (hg : g.WellFormed)
    (hk : k.WellFormed) (hless : ∀ a, k.alternatives a ⊆ g.alternatives a)
    (h : ∀ r ∈ g.rules, ∀ alternative ∈ r.alternatives, P alternative) :
    ∀ r ∈ k.rules, ∀ alternative ∈ r.alternatives, P alternative := by
  rw [forall_alternatives_iff hk]
  rw [forall_alternatives_iff hg] at h
  exact fun a alternative ha => h a alternative (hless a ha)

/-- What holds of the grammar `k` that is shown after a stage of the conversion of `g`. -/
structure ShownAfter (g : Grammar) (stage : Stage) (k : Grammar) : Prop where
  wellFormed : k.WellFormed
  start_eq : k.start = g.start
  /-- The start symbol has lost the empty sentence and nothing else. -/
  generates_iff : ∀ w, k.Generates k.start w ↔ g.Generates g.start w ∧ w ≠ []
  ne_nil : ∀ r ∈ k.rules, ∀ alternative ∈ r.alternatives, alternative ≠ []
  not_renaming : stage ≠ .epsilon →
    ∀ r ∈ k.rules, ∀ alternative ∈ r.alternatives, ∀ a, alternative ≠ [.nonterminal a]
  connected : stage = .reachability → k.Connected
  productive : stage = .productivity ∨ stage = .binary →
    ∀ a ∈ k.nonterminals, a ≠ k.start → ∃ w, k.Generates a w
  isNormal : stage = .binary → k.isNormal = true

theorem shownAfter_epsilon (hg : g.WellFormed) : ShownAfter g .epsilon g.withoutEpsilon where
  wellFormed := hg.withoutEpsilon
  start_eq := rfl
  generates_iff _ := generates_withoutEpsilon_iff hg.nodup_ruleNames
  ne_nil := by
    rw [forall_alternatives_iff hg.withoutEpsilon]
    exact fun _ _ h => (mem_alternatives_withoutEpsilon.mp h).1
  not_renaming h := absurd rfl h
  connected := nofun
  productive := nofun
  isNormal := nofun

namespace ShownAfter

theorem renamings (h : ShownAfter g .epsilon k) : ShownAfter g .renamings k.withoutRenamings where
  wellFormed := h.wellFormed.withoutRenamings
  start_eq := (keeps_withoutRenamings k).start_eq.trans h.start_eq
  generates_iff w := by
    rw [(keeps_withoutRenamings k).start_eq, ← h.generates_iff]
    exact derives_withoutRenamings_iff
  ne_nil := by
    -- the alternatives that a name inherits were alternatives of another
    rw [forall_alternatives_iff h.wellFormed.withoutRenamings]
    intro a alternative ha
    obtain ⟨_, b, _, hb⟩ := mem_alternatives_withoutRenamings.mp ha
    exact (forall_alternatives_iff h.wellFormed).mp h.ne_nil b alternative hb
  not_renaming _ := by
    rw [forall_alternatives_iff h.wellFormed.withoutRenamings]
    intro a alternative ha
    exact Alternative.renamed?_eq_none_iff.mp (renamed?_of_mem_withoutRenamings ha)
  connected := nofun
  productive := nofun
  isNormal := nofun

theorem reachability (h : ShownAfter g .renamings k) :
    ShownAfter g .reachability k.withoutUnreachable := by
  have hwell := h.wellFormed.withoutUnreachable
  have hless (a : Name) : k.withoutUnreachable.alternatives a ⊆ k.alternatives a :=
    fun _ hx => (mem_alternatives_withoutUnreachable.mp hx).2
  exact {
    wellFormed := hwell
    start_eq := h.start_eq
    generates_iff := by
      intro w
      rw [← h.generates_iff]
      exact generates_withoutUnreachable_iff h.wellFormed (k.start_notMem_outside k.reachable)
    ne_nil := forall_alternatives_of_subset h.wellFormed hwell hless h.ne_nil
    not_renaming := fun _ =>
      forall_alternatives_of_subset h.wellFormed hwell hless (h.not_renaming (by decide))
    connected := fun _ => connected_withoutUnreachable h.wellFormed
    productive := nofun
    isNormal := nofun }

theorem productivity (h : ShownAfter g .reachability k) :
    ShownAfter g .productivity k.withoutUnproductive := by
  have hwell := (keeps_withoutUnproductive k).wellFormed h.wellFormed
  have hless (a : Name) : k.withoutUnproductive.alternatives a ⊆ k.alternatives a :=
    fun _ hx => (mem_alternatives_withoutUnproductive.mp hx).2.1
  exact {
    wellFormed := hwell
    start_eq := h.start_eq
    generates_iff := by
      intro w
      rw [← h.generates_iff]
      exact derives_withoutUnproductive_iff h.wellFormed
    ne_nil := forall_alternatives_of_subset h.wellFormed hwell hless h.ne_nil
    not_renaming := fun _ =>
      forall_alternatives_of_subset h.wellFormed hwell hless (h.not_renaming (by decide))
    connected := nofun
    productive := fun _ _ ha hne => exists_generates_withoutUnproductive h.wellFormed ha hne
    isNormal := nofun }

end ShownAfter

/-- The last stage is shown only if it goes through. -/
theorem shownAfter_convert (hg : g.WellFormed) (hnormal : g.isNormal = false)
    (h : g.convert.result = .ok report) : ShownAfter g .binary g.convert.grammar := by
  have hshape := isNormal_iff.mp (isNormal_convert hg h)
  have hnew : report.alreadyNormal = false := by
    obtain ⟨_, _, rfl⟩ := exists_helpers_of_convert hnormal h
    rfl
  have hstart := (keeps_convert g).start_eq
  exact {
    wellFormed := (keeps_convert g).wellFormed hg
    start_eq := hstart
    generates_iff := by
      intro w
      obtain ⟨hreached, hproductive⟩ := start_notMem_report h
      rw [hstart]
      exact generates_convert_iff hg h hg.start_mem hreached hproductive
    ne_nil := by
      rintro r hr alternative ha rfl
      cases hshape r hr [] ha
    not_renaming := by
      rintro _ r hr alternative ha a rfl
      cases hshape r hr [.nonterminal a] ha
    connected := nofun
    productive := by
      intro _ a ha hne
      have halternatives := alternatives_convert_ne_nil hg h hnew ha (hstart ▸ hne)
      exact (fruitful_convert hg h hnew).ne_nil_iff.mp halternatives
    isNormal := fun _ => isNormal_convert hg h }

/-- A conversion of a grammar that is not in normal form shows the grammar after every stage, or
after all but the last if names run out. Each stage has done its work there, and so have the ones
before it. -/
theorem convert_shows_stages (hg : g.Obtained) (hnormal : g.isNormal = false) :
    ((∃ report, g.convert.result = .ok report) ∧ g.convert.snapshots.map Prod.fst = Stage.all ∧
        (.binary, g.convert.grammar) ∈ g.convert.snapshots ∨
      g.convert.result = .error .outOfNames ∧
        g.convert.snapshots.map Prod.fst = Stage.all.take 4) ∧
    ∀ s ∈ g.convert.snapshots, ShownAfter g s.1 s.2 := by
  have hepsilon := shownAfter_epsilon hg.wellFormed
  have hrenamings := hepsilon.renamings
  have hreachability := hrenamings.reachability
  have hproductivity : ShownAfter g .productivity g.pruned := hreachability.productivity
  rw [convert_snapshots hnormal]
  cases hresult : g.convert.result with
  | error fault =>
    obtain rfl := eq_outOfNames_of_convert hresult
    constructor
    · exact .inr ⟨rfl, rfl⟩
    · simp [Except.isOk, Except.toBool, hepsilon, hrenamings, hreachability, hproductivity]
  | ok report =>
    have hbinary := shownAfter_convert hg.wellFormed hnormal hresult
    constructor
    · exact .inl ⟨⟨report, rfl⟩, rfl, by simp [Except.isOk, Except.toBool]⟩
    · simp [Except.isOk, Except.toBool, hepsilon, hrenamings, hreachability, hproductivity, hbinary]

theorem convert_mixed_shows_stages :
    (mixed.run [.addFresh]).isNormal = false ∧
      (mixed.run [.addFresh]).convert.snapshots.map Prod.fst = Stage.all ∧
      ∀ s ∈ (mixed.run [.addFresh]).convert.snapshots,
        ShownAfter (mixed.run [.addFresh]) s.1 s.2 := by
  have hobtained : (mixed.run [.addFresh]).Obtained := ⟨mixed, _, mixed_built, rfl⟩
  have hnormal : (mixed.run [.addFresh]).isNormal = false := by decide
  obtain ⟨⟨_, hstages, _⟩ | ⟨hfault, _⟩, hshown⟩ := convert_shows_stages hobtained hnormal
  · exact ⟨hnormal, hstages, hshown⟩
  · rw [convert_mixed_result] at hfault
    cases hfault

end Grammar

end ContextFree
