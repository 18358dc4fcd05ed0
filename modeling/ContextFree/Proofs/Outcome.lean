import ContextFree.Proofs.Fruitful
import ContextFree.Proofs.Sampling

/-!
How drawing a sentence may end. It fails only where the depth is used up or at a nonterminal that
the start symbol leads to and that has no rule or no alternatives. A conversion that had something
to do leaves none of these, except for a start symbol without sentences.
-/

namespace ContextFree

namespace Generation

open Grammar

variable {σ α β : Type} {g : Grammar}

theorem bind_eq_error_iff {x : Generation σ α} {f : α → Generation σ β} {s t : σ}
    {e : GenerationError} :
    (x >>= f) s = .error e t ↔ x s = .error e t ∨ ∃ a r, x s = .ok a r ∧ f a r = .error e t := by
  show EStateM.bind x f s = .error e t ↔ _
  unfold EStateM.bind
  cases x s with
  | ok a r => simp
  | error e r => simp

/-- An alternative is spelled unless replacing one of its nonterminals fails. -/
theorem exists_of_spell {replace : Name → Generation σ (List Name)} {xs : Alternative} {s t : σ}
    {e : GenerationError} (h : spell replace xs s = .error e t) :
    ∃ a, .nonterminal a ∈ xs ∧ ∃ r, replace a r = .error e t := by
  induction xs generalizing s with
  | nil => cases h
  | cons symbol rest ih =>
    cases symbol with
    | terminal a =>
      rw [spell] at h
      rcases bind_eq_error_iff.mp h with h | ⟨w, r, _, hpure⟩
      · obtain ⟨b, hb, h⟩ := ih h
        exact ⟨b, List.mem_cons_of_mem _ hb, h⟩
      · cases hpure
    | nonterminal a =>
      rw [spell] at h
      rcases bind_eq_error_iff.mp h with h | ⟨u, r, _, h⟩
      · exact ⟨a, List.mem_cons_self, s, h⟩
      · rcases bind_eq_error_iff.mp h with h | ⟨w, r', _, hpure⟩
        · obtain ⟨b, hb, h⟩ := ih h
          exact ⟨b, List.mem_cons_of_mem _ hb, h⟩
        · cases hpure

/-- Why a sentence is not drawn from a nonterminal: the limit, or a name that it leads to and that
has no rule or no alternatives. -/
inductive Obstacle (g : Grammar) (limit : Nat) (a : Name) : GenerationError → Prop where
  | tooDeep : Obstacle g limit a (.tooDeep limit)
  | undefined {b : Name} : Relation.ReflTransGen g.Mentions a b → g.alternatives? b = none →
      Obstacle g limit a (.undefined b)
  | deadEnd {b : Name} : Relation.ReflTransGen g.Mentions a b → g.alternatives? b = some [] →
      Obstacle g limit a (.deadEnd b)

theorem Obstacle.of_mentions {limit : Nat} {a b : Name} {e : GenerationError}
    (hab : g.Mentions a b) (h : Obstacle g limit b e) : Obstacle g limit a e := by
  cases h with
  | tooDeep => exact .tooDeep
  | undefined hchain hnone => exact .undefined (.head hab hchain) hnone
  | deadEnd hchain hnil => exact .deadEnd (.head hab hchain) hnil

variable [ChoiceSource σ]

/-- Whatever the source answers, drawing fails at an obstacle only. -/
theorem obstacle_of_derive {limit d : Nat} {a : Name} {s t : σ} {e : GenerationError}
    (h : derive g limit d a s = .error e t) : Obstacle g limit a e := by
  -- the induction is on the depth that is left: a failure below lies one mention further away
  induction d generalizing a s t with
  | zero =>
    cases h
    exact .tooDeep
  | succ d ih =>
    rw [derive] at h
    cases hrule : g.alternatives? a with
    | none =>
      rw [hrule] at h
      cases h
      exact .undefined .refl hrule
    | some alternatives =>
      rw [hrule] at h
      cases alternatives with
      | nil =>
        cases h
        exact .deadEnd .refl hrule
      | cons x xs =>
        rcases bind_eq_error_iff.mp h with hchoice | ⟨alternative, r, hchoice, hspell⟩
        · cases hchoice
        · have ha : alternative ∈ g.alternatives a := by
            rw [Grammar.alternatives, hrule]
            exact mem_of_oneOf hchoice
          obtain ⟨b, hb, r', hderive⟩ := exists_of_spell hspell
          exact (ih hderive).of_mentions ⟨alternative, ha, hb⟩

/-- A name without a rule is undefined for every source, as long as a level is left. -/
theorem derive_of_none {limit d : Nat} {a : Name} (h : g.alternatives? a = none) (s : σ) :
    derive g limit (d + 1) a s = .error (.undefined a) s := by
  rw [derive, h]
  rfl

/-- A nonterminal without alternatives is a dead end for every source. -/
theorem derive_of_nil {limit d : Nat} {a : Name} (h : g.alternatives? a = some []) (s : σ) :
    derive g limit (d + 1) a s = .error (.deadEnd a) s := by
  rw [derive, h]
  rfl

end Generation

namespace Grammar

variable {σ : Type} [ChoiceSource σ] {g : Grammar} {report : Report} {limit : Nat}

theorem alternatives?_of_mem {a : Name} (ha : a ∈ g.ruleNames) :
    g.alternatives? a = some (g.alternatives a) := by
  cases hrule : g.alternatives? a with
  | none => exact absurd ha (alternatives?_eq_none_iff.mp hrule)
  | some alternatives => rw [Grammar.alternatives, hrule, Option.getD_some]

theorem start_mem_convert (hg : g.WellFormed) : g.start ∈ g.convert.grammar.nonterminals := by
  rw [← (keeps_convert g).start_eq]
  exact ((keeps_convert g).wellFormed hg).start_mem

theorem generateWithin_of_deadEnd {attempts : Nat} {a : Name} {s t : σ}
    (h : g.generate limit s = .error (.deadEnd a) t) :
    g.generateWithin limit (attempts + 1) s = .error (.deadEnd a) t := by
  rw [generateWithin_of_ne (by simp [h]), h]

section

variable (hg : g.WellFormed) (h : g.convert.result = .ok report)
  (hnew : report.alreadyNormal = false)
include hg h hnew

/-- The start symbol is left without alternatives if it has the empty sentence at most. -/
theorem alternatives_convert_start_eq_nil_iff :
    g.convert.grammar.alternatives g.start = [] ↔ ∀ w, g.Generates g.start w → w = [] := by
  obtain ⟨hreached, hproductive⟩ := start_notMem_report h
  have hsentences := (fruitful_convert hg h hnew).ne_nil_iff (a := g.start)
  simp only [generates_convert_iff hg h hg.start_mem hreached hproductive] at hsentences
  rw [← not_iff_not]
  simpa only [not_forall, exists_prop] using hsentences

/-- Such a start symbol and the limit are the only obstacles that a conversion leaves. -/
theorem obstacle_convert {e : GenerationError}
    (he : Generation.Obstacle g.convert.grammar limit g.start e) :
    e = .tooDeep limit ∨
      e = .deadEnd g.start ∧ g.convert.grammar.alternatives g.start = [] := by
  have hconvert : g.convert.grammar.WellFormed := (keeps_convert g).wellFormed hg
  cases he with
  | tooDeep => exact .inl rfl
  | @undefined b hchain hnone =>
    have hb := mem_nonterminals_of_chain hconvert (start_mem_convert hg) hchain
    exact absurd hb (hconvert.alternatives?_eq_none_iff.mp hnone)
  | @deadEnd b hchain hnil =>
    have hb := mem_nonterminals_of_chain hconvert (start_mem_convert hg) hchain
    have halternatives : g.convert.grammar.alternatives b = [] := by
      rw [alternatives, hnil, Option.getD_some]
    obtain rfl : b = g.start := by
      by_contra hne
      exact alternatives_convert_ne_nil hg h hnew hb hne halternatives
    exact .inr ⟨rfl, halternatives⟩

theorem generate_convert_cases (limit : Nat) (s : σ) :
    (∃ w t, g.convert.grammar.generate limit s = .ok w t ∧ w ≠ [] ∧ g.Generates g.start w) ∨
      (∃ t, g.convert.grammar.generate limit s = .error (.tooDeep limit) t) ∨
      ∃ t, g.convert.grammar.generate limit s = .error (.deadEnd g.start) t := by
  have hstart := (keeps_convert g).start_eq
  cases hresult : g.convert.grammar.generate limit s with
  | ok w t =>
    obtain ⟨hreached, hproductive⟩ := start_notMem_report h
    have hw := (Generation.derivesWithin_of_derive hresult).derives
    rw [hstart] at hw
    obtain ⟨hw, hne⟩ := (generates_convert_iff hg h hg.start_mem hreached hproductive).mp hw
    exact .inl ⟨w, t, rfl, hne, hw⟩
  | error e t =>
    have he := Generation.obstacle_of_derive hresult
    rw [hstart] at he
    rcases obstacle_convert hg h hnew he with rfl | ⟨rfl, _⟩
    · exact .inr (.inl ⟨t, rfl⟩)
    · exact .inr (.inr ⟨t, rfl⟩)

theorem generate_convert_deadEnd_iff (limit : Nat) (s : σ) :
    (∃ t, g.convert.grammar.generate limit s = .error (.deadEnd g.start) t) ↔
      0 < limit ∧ ∀ w, g.Generates g.start w → w = [] := by
  have hconvert : g.convert.grammar.WellFormed := (keeps_convert g).wellFormed hg
  have hstart := (keeps_convert g).start_eq
  rw [← alternatives_convert_start_eq_nil_iff hg h hnew, generate, generateFrom, hstart]
  cases limit with
  | zero =>
    refine ⟨?_, fun hnil => absurd hnil.1 (Nat.lt_irrefl 0)⟩
    rintro ⟨t, hresult⟩
    cases hresult
  | succ d =>
    refine ⟨?_, fun hnil => ⟨s, Generation.derive_of_nil ?_ s⟩⟩
    · rintro ⟨t, hresult⟩
      have he := Generation.obstacle_of_derive hresult
      exact ⟨Nat.succ_pos d, ((obstacle_convert hg h hnew he).resolve_left nofun).2⟩
    · have hrule : g.start ∈ g.convert.grammar.ruleNames :=
        hconvert.ruleNames_eq ▸ start_mem_convert hg
      rw [alternatives?_of_mem hrule, hnil.2]

/-- Drawing a sentence after a conversion that had something to do gives a sentence that is not
empty, or gets too deep, or has no alternative for the start symbol. The last happens exactly if the
empty sentence was the only one, at most, and then for every source. -/
theorem convert_outcome (limit : Nat) (s : σ) :
    ∀ draw ∈ [g.convert.grammar.generate limit, g.convert.grammar.sample limit],
      ((∃ w t, draw s = .ok w t ∧ w ≠ [] ∧ g.Generates g.start w) ∨
        (∃ t, draw s = .error (.tooDeep limit) t) ∨
        ∃ t, draw s = .error (.deadEnd g.start) t) ∧
      ((∃ t, draw s = .error (.deadEnd g.start) t) ↔
        0 < limit ∧ ∀ w, g.Generates g.start w → w = []) := by
  have hcases := generate_convert_cases hg h hnew limit (σ := σ)
  have hdeadEnd := generate_convert_deadEnd_iff hg h hnew limit (σ := σ)
  simp only [List.forall_mem_cons, List.not_mem_nil, false_implies, implies_true, and_true]
  refine ⟨⟨hcases s, hdeadEnd s⟩, ?_, fun h' => ?_, fun hnone => ?_⟩
  · rcases g.convert.grammar.generateWithin_cases limit 100 s with ⟨t, ht⟩ | ⟨r, hr⟩
    · exact .inr (.inl ⟨t, ht⟩)
    · rw [sample, hr]
      exact hcases r
  · obtain ⟨t, ht⟩ := h'
    rcases g.convert.grammar.generateWithin_cases limit 100 s with ⟨t', ht'⟩ | ⟨r, hr⟩
    · cases ht.symm.trans ht'
    · exact (hdeadEnd r).mp ⟨t, hr.symm.trans ht⟩
  · obtain ⟨t, ht⟩ := (hdeadEnd s).mpr hnone
    exact ⟨t, generateWithin_of_deadEnd ht⟩

end

/-- The empty sentence is the only one, since `N` leads nowhere. -/
def silent : Grammar where
  nonterminals := ["S", "N"]
  terminals := ["a"]
  rules := [⟨"S", [[], [.nonterminal "N", .terminal "a"]]⟩, ⟨"N", []⟩]
  start := "S"

theorem eq_nil_of_generates_silent {w : List Name} (hw : silent.Generates "S" w) : w = [] := by
  have hS : silent.alternatives "S" = [[], [.nonterminal "N", .terminal "a"]] := rfl
  have hN : silent.alternatives "N" = [] := rfl
  obtain ⟨alternative, ha, hw⟩ := generates_iff.mp hw
  rw [hS, List.mem_pair] at ha
  rcases ha with rfl | rfl
  · exact derives_nil_iff.mp hw
  · obtain ⟨u, _, _, hu, _⟩ := derives_cons_iff.mp hw
    obtain ⟨_, hx, _⟩ := generates_iff.mp hu
    rw [hN] at hx
    cases hx

theorem convert_silent_result :
    silent.convert.result = .ok ⟨false, ["S"], true, [], ["N"], []⟩ := by
  have hbinary : silent.pruned.binarize.result = .ok [] := by
    rw [pruned]
    conv => lhs; arg 1; arg 1; cbv
    rfl
  rw [convert_result (by decide), hbinary]
  cbv

theorem convert_silent_outcome :
    silent.WellFormed ∧ silent.convert.result = .ok ⟨false, ["S"], true, [], ["N"], []⟩ ∧
      ∀ s : Words, ∃ t, silent.convert.grammar.sample 64 s = .error (.deadEnd "S") t := by
  have hwell : silent.WellFormed := by decide
  refine ⟨hwell, convert_silent_result, fun s => ?_⟩
  obtain ⟨_, hiff⟩ := convert_outcome hwell convert_silent_result rfl 64 s
    (silent.convert.grammar.sample 64) (by simp)
  exact hiff.mpr ⟨by decide, fun w => eq_nil_of_generates_silent⟩

end Grammar

end ContextFree
