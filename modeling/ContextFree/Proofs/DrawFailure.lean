import ContextFree.Proofs.Outcome
import ContextFree.Sentence.Descent

/-!
What the errors of drawing tell. Every level puts its own number into an error for the depth, and so
the limit that was asked for is what reaches the caller. Names in errors are such that the error is
true of them, and sampling is the first of a hundred runs that does not get too deep.
-/

namespace ContextFree

namespace Generation

variable {σ α β : Type}

theorem relimit_bind (depth : Nat) (x : Generation σ α) (f : α → Generation σ β) :
    relimit depth (x >>= f) = relimit depth x >>= fun a => relimit depth (f a) := by
  funext s
  show relimit depth (EStateM.bind x f) s = EStateM.bind (relimit depth x) _ s
  simp only [relimit, EStateM.bind]
  cases x s with
  | ok a r => rfl
  | error e r => cases e <;> rfl

theorem relimit_spell (depth : Nat) (replace : Name → Generation σ (List Name))
    (xs : Alternative) :
    relimit depth (spell replace xs) = spell (fun a => relimit depth (replace a)) xs := by
  induction xs with
  | nil => rfl
  | cons symbol rest ih =>
    cases symbol with
    | terminal a =>
      rw [spell, relimit_bind, ih]
      rfl
    | nonterminal a =>
      rw [spell, relimit_bind]
      simp only [relimit_bind, ih]
      rfl

theorem retry_succ (x : Generation σ α) (attempts : Nat) (last : GenerationError) (s : σ) :
    retry x (attempts + 1) last s =
      match x s with
      | .error (.tooDeep depth) s => retry x attempts (.tooDeep depth) s
      | result => result := rfl

variable [ChoiceSource σ] (g : Grammar)

/-- Which number an error for the depth tells makes no other difference. -/
theorem relimit_derive (limit limit' depth : Nat) (a : Name) :
    relimit limit (derive g limit' depth a : Generation σ (List Name)) =
      derive g limit depth a := by
  -- on the levels that are left: each hands the replacement on to the level below it
  induction depth generalizing a with
  | zero => rfl
  | succ depth ih =>
    rw [derive, derive]
    cases g.alternatives? a with
    | none => rfl
    | some alternatives =>
      cases alternatives with
      | nil => rfl
      | cons x xs =>
        dsimp only
        rw [relimit_bind]
        simp only [relimit_spell, ih]
        rfl

/-- The highest level has the last word about the depth. -/
theorem descend_eq_derive (depth : Nat) (a : Name) :
    (descend g depth a : Generation σ (List Name)) = derive g depth depth a := by
  induction depth generalizing a with
  | zero => rfl
  | succ depth ih =>
    rw [descend, derive]
    cases g.alternatives? a with
    | none => rfl
    | some alternatives =>
      cases alternatives with
      | nil => rfl
      | cons x xs =>
        dsimp only
        simp only [ih, relimit_derive]

end Generation

namespace Grammar

open Generation

variable {σ : Type} {g : Grammar} {limit : Nat}

/-- An outcome of drawing from a nonterminal whose error is true: it tells the limit, or it names
the nonterminal itself and this has no rule, or it names one that the nonterminal leads to and that
has no alternatives. -/
structure Truthful (g : Grammar) (limit : Nat) (a : Name)
    (outcome : EStateM.Result GenerationError σ (List Name)) : Prop where
  tooDeep : ∀ depth t, outcome = .error (.tooDeep depth) t → depth = limit
  undefined : ∀ b, (∃ t, outcome = .error (.undefined b) t) ↔
    0 < limit ∧ a ∉ g.nonterminals ∧ b = a
  deadEnd : ∀ b t, outcome = .error (.deadEnd b) t →
    b ∈ g.nonterminals ∧ Relation.ReflTransGen g.Mentions a b ∧ g.alternatives? b = some []

variable [ChoiceSource σ]

/-- That many runs in a row get too deep. Each of them goes on with the source that the one before
it left. -/
inductive Overruns (g : Grammar) (limit : Nat) : Nat → σ → σ → Prop where
  | none {s : σ} : Overruns g limit 0 s s
  | more {n depth : Nat} {s r t : σ} : g.generate limit s = .error (.tooDeep depth) r →
      Overruns g limit n r t → Overruns g limit (n + 1) s t

theorem generateFrom_eq_descend (g : Grammar) (limit : Nat) (a : Name) :
    (g.generateFrom limit a : Generation σ (List Name)) = descend g limit a :=
  (descend_eq_derive g limit a).symm

theorem depth_eq_of_generateFrom {depth : Nat} {a : Name} {s t : σ}
    (h : g.generateFrom limit a s = .error (.tooDeep depth) t) : depth = limit := by
  cases obstacle_of_derive h
  rfl

theorem undefined_iff_generateFrom (hg : g.WellFormed) {a b : Name} {s : σ} :
    (∃ t, g.generateFrom limit a s = .error (.undefined b) t) ↔
      0 < limit ∧ a ∉ g.nonterminals ∧ b = a := by
  constructor
  · rintro ⟨t, h⟩
    have ha : a ∉ g.nonterminals := by
      intro ha
      cases obstacle_of_derive h with
      | undefined hchain hrule =>
        exact hg.alternatives?_eq_none_iff.mp hrule (mem_nonterminals_of_chain hg ha hchain)
    cases limit with
    | zero => cases h
    | succ d =>
      rw [generateFrom, derive_of_none (hg.alternatives?_eq_none_iff.mpr ha)] at h
      cases h
      exact ⟨Nat.succ_pos d, ha, rfl⟩
  · rintro ⟨hlimit, ha, rfl⟩
    obtain ⟨d, rfl⟩ := Nat.exists_eq_add_one.mpr hlimit
    exact ⟨s, derive_of_none (hg.alternatives?_eq_none_iff.mpr ha) s⟩

theorem truthful_generateFrom (hg : g.WellFormed) (limit : Nat) (a : Name) (s : σ) :
    Truthful g limit a (g.generateFrom limit a s) := by
  constructor
  case tooDeep => exact fun depth t h => depth_eq_of_generateFrom h
  case undefined => exact fun b => undefined_iff_generateFrom hg
  case deadEnd =>
    intro b t h
    cases obstacle_of_derive h with
    | deadEnd hchain hrule =>
      have hb : b ∈ g.nonterminals := by
        by_contra hnot
        cases hrule.symm.trans (hg.alternatives?_eq_none_iff.mpr hnot)
      exact ⟨hb, hchain, hrule⟩

/-- However often it tries, sampling has the errors of drawing from the start symbol. -/
theorem truthful_generateWithin (hg : g.WellFormed) (limit attempts : Nat) (s : σ) :
    Truthful g limit g.start (g.generateWithin limit attempts s) := by
  rcases g.generateWithin_cases limit attempts s with ⟨t, ht⟩ | ⟨r, hr⟩
  · rw [ht]
    constructor
    case tooDeep =>
      rintro depth t' ⟨⟩
      rfl
    case undefined => simp [hg.start_mem]
    case deadEnd => exact nofun
  · rw [hr]
    exact truthful_generateFrom hg limit g.start r

/-- The error of the last run is the one for the limit, whichever it was. -/
theorem generateWithin_eq_retry (g : Grammar) (limit attempts : Nat) :
    (g.generateWithin limit attempts : Generation σ (List Name)) =
      retry (descend g limit g.start) attempts (.tooDeep limit) := by
  rw [← generateFrom_eq_descend]
  induction attempts with
  | zero => rfl
  | succ attempts ih =>
    funext s
    rw [generateWithin_succ, generate, retry_succ, ih]
    cases h : g.generateFrom limit g.start s with
    | ok w t => rfl
    | error e t =>
      cases e with
      | undefined a => rfl
      | deadEnd a => rfl
      | tooDeep depth =>
        obtain rfl := depth_eq_of_generateFrom h
        rfl

theorem overruns_zero_iff {s t : σ} : Overruns g limit 0 s t ↔ t = s := by
  constructor
  · intro h
    cases h
    rfl
  · rintro rfl
    exact .none

theorem overruns_succ_iff {n : Nat} {s t : σ} :
    Overruns g limit (n + 1) s t ↔
      ∃ depth r, g.generate limit s = .error (.tooDeep depth) r ∧ Overruns g limit n r t := by
  constructor
  · intro h
    cases h with
    | more hrun hrest => exact ⟨_, _, hrun, hrest⟩
  · rintro ⟨_, _, hrun, hrest⟩
    exact .more hrun hrest

/-- A run that gets too deep has just one source to go on with. -/
theorem overruns_succ_iff_of_tooDeep {n depth : Nat} {s r t : σ}
    (h : g.generate limit s = .error (.tooDeep depth) r) :
    Overruns g limit (n + 1) s t ↔ Overruns g limit n r t := by
  simp [overruns_succ_iff, h]

theorem generateWithin_eq_tooDeep_iff {attempts depth : Nat} {s t : σ} :
    g.generateWithin limit attempts s = .error (.tooDeep depth) t ↔
      depth = limit ∧ Overruns g limit attempts s t := by
  induction attempts generalizing s with
  | zero =>
    have hzero : g.generateWithin limit 0 s = .error (.tooDeep limit) s := rfl
    simp [hzero, overruns_zero_iff, eq_comm]
  | succ attempts ih =>
    by_cases hrun : ∃ d r, g.generate limit s = .error (.tooDeep d) r
    · obtain ⟨d, r, hr⟩ := hrun
      rw [generateWithin_of_tooDeep hr, ih, overruns_succ_iff_of_tooDeep hr]
    · simp only [not_exists] at hrun
      simp [generateWithin_of_ne hrun, overruns_succ_iff, hrun]

/-- An outcome that does not tell of the depth is that of the first run that does not. -/
theorem generateWithin_eq_iff {attempts : Nat} {s : σ}
    {outcome : EStateM.Result GenerationError σ (List Name)}
    (h : ∀ depth t, outcome ≠ .error (.tooDeep depth) t) :
    g.generateWithin limit attempts s = outcome ↔
      ∃ n < attempts, ∃ r, Overruns g limit n s r ∧ g.generate limit r = outcome := by
  -- a first run that gets too deep is one more in front of those from the source that it leaves
  induction attempts generalizing s with
  | zero =>
    have hzero : g.generateWithin limit 0 s = .error (.tooDeep limit) s := rfl
    simp [hzero, (h limit s).symm]
  | succ attempts ih =>
    rw [Nat.exists_lt_succ_left]
    by_cases hrun : ∃ d r, g.generate limit s = .error (.tooDeep d) r
    · obtain ⟨d, r, hr⟩ := hrun
      simp only [generateWithin_of_tooDeep hr, ih, overruns_zero_iff,
        overruns_succ_iff_of_tooDeep hr, exists_eq_left, hr, (h d r).symm, false_or]
    · simp only [not_exists] at hrun
      simp [generateWithin_of_ne hrun, overruns_zero_iff, overruns_succ_iff, hrun]

/-- Drawing counts the levels and sampling its runs, and the errors of both are true: the one for
the depth tells the limit that was asked for, wherever on the way down it was met, an undefined name
is the one that was asked for, and a dead end is a nonterminal that it leads to. Sampling gives up
exactly if a hundred runs in a row get too deep, and otherwise ends as the first that does not. -/
theorem generation_errors_faithful (hg : g.WellFormed) (limit : Nat) (a : Name) (s : σ) :
    (g.generateFrom limit a : Generation σ (List Name)) = descend g limit a ∧
    (g.sample limit : Generation σ (List Name)) =
      retry (descend g limit g.start) 100 (.tooDeep limit) ∧
    Truthful g limit a (g.generateFrom limit a s) ∧
    Truthful g limit g.start (g.generate limit s) ∧
    Truthful g limit g.start (g.sample limit s) ∧
    (∀ depth t, g.sample limit s = .error (.tooDeep depth) t ↔
      depth = limit ∧ Overruns g limit 100 s t) ∧
    ∀ outcome, (∀ depth t, outcome ≠ .error (.tooDeep depth) t) →
      (g.sample limit s = outcome ↔
        ∃ n < 100, ∃ r, Overruns g limit n s r ∧ g.generate limit r = outcome) := by
  refine ⟨generateFrom_eq_descend g limit a, generateWithin_eq_retry g limit 100,
    truthful_generateFrom hg limit a s, truthful_generateFrom hg limit g.start s,
    truthful_generateWithin hg limit 100 s, ?exhausted, ?settled⟩
  case exhausted => exact fun depth t => generateWithin_eq_tooDeep_iff
  case settled => exact fun outcome h => generateWithin_eq_iff h

/-- `S` may go on for ever, and `D` leads to `E`, which has no alternatives. -/
def risky : Grammar where
  nonterminals := ["S", "D", "E"]
  terminals := ["a", "b"]
  rules := [⟨"S", [[.terminal "a", .nonterminal "S"], [.terminal "b"]]⟩,
    ⟨"D", [[.terminal "a", .nonterminal "E"]]⟩, ⟨"E", []⟩]
  start := "S"

/-- Two zeros lead the first run too deep, and the word after them ends the second one. -/
theorem risky_faithful :
    risky.WellFormed ∧
      risky.sample 2 (Words.ofSeed [0, 0, 0x80000000] 0) = .ok ["b"] ⟨[], 0, 3⟩ ∧
      (∃ t, risky.generateFrom 2 "Q" (Words.ofSeed [] 0) = .error (.undefined "Q") t) ∧
      risky.generateFrom 2 "D" (Words.ofSeed [0] 0) = .error (.deadEnd "E") ⟨[], 0, 1⟩ ∧
      Relation.ReflTransGen risky.Mentions "D" "E" := by
  have hwell : risky.WellFormed := by decide
  have hfirst : risky.generate 2 (Words.ofSeed [0, 0, 0x80000000] 0) =
      .error (.tooDeep 2) ⟨[0x80000000], 0, 2⟩ := by
    conv => lhs; whnf
    rfl
  have hsecond : risky.generate 2 (⟨[0x80000000], 0, 2⟩ : Words) = .ok ["b"] ⟨[], 0, 3⟩ := by
    conv => lhs; whnf
    rfl
  have hend : risky.generateFrom 2 "D" (Words.ofSeed [0] 0) =
      .error (.deadEnd "E") ⟨[], 0, 1⟩ := by
    conv => lhs; whnf
    rfl
  obtain ⟨_, _, _, _, _, _, hsettled⟩ :=
    generation_errors_faithful hwell 2 "S" (Words.ofSeed [0, 0, 0x80000000] 0)
  obtain ⟨_, _, hQ, _⟩ := generation_errors_faithful hwell 2 "Q" (Words.ofSeed [] 0)
  obtain ⟨_, _, hD, _⟩ := generation_errors_faithful hwell 2 "D" (Words.ofSeed [0] 0)
  refine ⟨hwell, ?sampled, ?undefined, hend, (hD.deadEnd "E" _ hend).2.1⟩
  case sampled =>
    exact (hsettled (.ok ["b"] ⟨[], 0, 3⟩) (by simp)).mpr
      ⟨1, by decide, _, .more hfirst .none, hsecond⟩
  case undefined => exact (hQ.undefined "Q").mpr ⟨by decide, by decide, rfl⟩

end Grammar

end ContextFree
