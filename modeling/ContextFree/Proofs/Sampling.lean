import ContextFree.Grammar.DerivationTree
import ContextFree.Proofs.Representation
import ContextFree.Sentence.Generation

/-!
Which sentences can be drawn. Whatever the source of choices answers, a drawn sentence has a
derivation within the depth. And every derivation is a row of choices, so it is drawn if its row is
made. Random words make every row, since every index is what some accepted word stands for.
-/

namespace ContextFree

namespace Words

/-- The smallest product with `n + 1` that is not below `i * wordCount` exceeds it by `n` at
most. -/
theorem exists_mul_eq {n i : Nat} (hn : n < wordCount) (hi : i ≤ n) :
    ∃ m r, m < wordCount ∧ r ≤ n ∧ m * (n + 1) = i * wordCount + r := by
  refine ⟨(i * wordCount + n) / (n + 1), n - (i * wordCount + n) % (n + 1), ?_, by omega, ?_⟩
  · rw [Nat.div_lt_iff_lt_mul (Nat.succ_pos n)]
    have hscaled := Nat.mul_le_mul_right wordCount hi
    calc i * wordCount + n ≤ n * wordCount + n := by omega
      _ < n * wordCount + wordCount := by omega
      _ = wordCount * (n + 1) := by rw [Nat.mul_succ, Nat.mul_comm]
  · have hdiv := Nat.div_add_mod' (i * wordCount + n) (n + 1)
    have hmod : (i * wordCount + n) % (n + 1) < n + 1 := Nat.mod_lt _ (Nat.succ_pos n)
    omega

/-- Every index is what some accepted word stands for. -/
theorem exists_word {n : Nat} (hn : n < wordCount) (i : Fin (n + 1)) :
    ∃ word, accepts word n = true ∧ index word n = i := by
  obtain ⟨m, r, hm, hr, heq⟩ := exists_mul_eq hn (Nat.lt_succ_iff.mp i.isLt)
  have hword : (UInt32.ofNatLT m hm).toNat * (n + 1) = i.val * wordCount + r := heq
  refine ⟨UInt32.ofNatLT m hm, ?_, ?_⟩
  · -- the zone in which words are accepted is never smaller than the number of things
    have hzone : n + 1 ≤ (n + 1) <<< (31 - (n + 1).log2) := by
      rw [Nat.shiftLeft_eq]
      exact Nat.le_mul_of_pos_right _ (Nat.two_pow_pos _)
    have hrest : (i.val * wordCount + r) % wordCount = r := by
      rw [Nat.mul_comm, Nat.mul_add_mod, Nat.mod_eq_of_lt (by omega)]
    unfold accepts
    rw [hword, hrest, decide_eq_true_eq]
    omega
  · apply Fin.ext
    show (UInt32.ofNatLT m hm).toNat * (n + 1) / wordCount = i.val
    rw [hword, Nat.mul_comm, Nat.mul_add_div (by decide), Nat.div_eq_of_lt (by omega)]
    rfl

/-- An accepted word decides, however many further tries there are. -/
theorem chooseWithin_of_accepts {n tries : Nat} {word : UInt32} (h : accepts word n = true)
    (rest : List UInt32) (state : UInt64) (drawn : Nat) :
    chooseWithin n tries ⟨word :: rest, state, drawn⟩ =
      (index word n, ⟨rest, state, drawn + 1⟩) := by
  cases tries with
  | zero => rfl
  | succ tries =>
    rw [chooseWithin]
    exact if_pos h

/-- There are words for every row of choices. -/
theorem exists_makes (row : List Choice) :
    ∃ words, ∀ state drawn, ChoiceSource.Makes row (⟨words, state, drawn⟩ : Words) := by
  induction row with
  | nil => exact ⟨[], fun _ _ => trivial⟩
  | cons c row ih =>
    obtain ⟨words, hwords⟩ := ih
    obtain ⟨word, haccepts, hindex⟩ := exists_word (Nat.lt_of_succ_lt c.few) c.index
    refine ⟨word :: words, fun state drawn => ?_⟩
    have hchoose : ChoiceSource.choose c.others (⟨word :: words, state, drawn⟩ : Words) =
        (index word c.others, ⟨words, state, drawn + 1⟩) :=
      chooseWithin_of_accepts haccepts words state drawn
    rw [ChoiceSource.Makes, hchoose]
    exact ⟨hindex, hwords state (drawn + 1)⟩

theorem forcesAll_ofSeed :
    ChoiceSource.ForcesAll fun source : List UInt32 × UInt64 => ofSeed source.1 source.2 := by
  intro row
  obtain ⟨words, hwords⟩ := exists_makes row
  exact ⟨(words, 0), hwords 0 0⟩

end Words

namespace Grammar

variable {g : Grammar}

/-- The rule in which the alternatives of a name are looked up. -/
theorem exists_rule? {a : Name} {alternative : Alternative} (h : alternative ∈ g.alternatives a) :
    ∃ r ∈ g.rules, g.alternatives? a = some r.alternatives ∧ alternative ∈ r.alternatives := by
  unfold alternatives at h
  unfold alternatives? at h ⊢
  cases hr : g.rules.find? (·.name == a) with
  | none => simp [hr] at h
  | some r => exact ⟨r, List.mem_of_find?_eq_some hr, rfl, by simpa [hr] using h⟩

end Grammar

namespace Generation

open Grammar

variable {σ α β : Type} {g : Grammar}

theorem bind_eq_ok_iff {x : Generation σ α} {f : α → Generation σ β} {s t : σ} {b : β} :
    (x >>= f) s = .ok b t ↔ ∃ a r, x s = .ok a r ∧ f a r = .ok b t := by
  show EStateM.bind x f s = .ok b t ↔ _
  unfold EStateM.bind
  cases x s with
  | ok a r => simp
  | error e r => simp

/-- What is spelled is derived within the depth in which nonterminals are replaced. -/
theorem derivesWithin_of_spell {replace : Name → Generation σ (List Name)} {d : Nat}
    (hreplace : ∀ {a s u t}, replace a s = .ok u t → DerivesWithin g d [.nonterminal a] u)
    {xs : Alternative} {s t : σ} {w : List Name} (h : spell replace xs s = .ok w t) :
    DerivesWithin g d xs w := by
  induction xs generalizing s w with
  | nil =>
    cases h
    exact .nil
  | cons symbol rest ih =>
    cases symbol with
    | terminal a =>
      rw [spell] at h
      obtain ⟨w, r, hw, hpure⟩ := bind_eq_ok_iff.mp h
      cases hpure
      exact .terminal (ih hw)
    | nonterminal a =>
      rw [spell] at h
      obtain ⟨u, r, hu, h⟩ := bind_eq_ok_iff.mp h
      obtain ⟨w, r', hw, hpure⟩ := bind_eq_ok_iff.mp h
      cases hpure
      exact derivesWithin_cons_iff.mpr ⟨u, w, rfl, hreplace hu, ih hw⟩

section

variable [ChoiceSource σ]

theorem oneOf_eq (x : α) (xs : List α) (s : σ) :
    oneOf x xs s = .ok ((x :: xs).get (ChoiceSource.choose xs.length s).1)
      (ChoiceSource.choose xs.length s).2 := rfl

theorem mem_of_oneOf {x y : α} {xs : List α} {s t : σ} (h : oneOf x xs s = .ok y t) :
    y ∈ x :: xs := by
  rw [oneOf_eq] at h
  injection h with hy _
  exact hy ▸ List.get_mem _ _

/-- Whatever the source answers, a drawn sentence has a derivation within the depth. -/
theorem derivesWithin_of_derive {limit d : Nat} {a : Name} {s t : σ} {w : List Name}
    (h : derive g limit d a s = .ok w t) : DerivesWithin g d [.nonterminal a] w := by
  induction d generalizing a s w t with
  | zero => cases h
  | succ d ih =>
    rw [derive] at h
    match hrule : g.alternatives? a with
    | none =>
      rw [hrule] at h
      cases h
    | some [] =>
      rw [hrule] at h
      cases h
    | some (x :: xs) =>
      rw [hrule] at h
      obtain ⟨alternative, r, hchoice, hspell⟩ := bind_eq_ok_iff.mp h
      have ha : alternative ∈ g.alternatives a := by
        rw [alternatives, hrule]
        exact mem_of_oneOf hchoice
      have hw := derivesWithin_of_spell ih hspell
      exact derivesWithin_nonterminal_iff.mpr ⟨d, rfl, alternative, ha, hw⟩

/-- From a source that makes the row of choices the computation gives the value and leaves a source
that makes what follows the row. -/
def Takes (x : Generation σ α) (row : List Choice) (a : α) : Prop :=
  ∀ later s, ChoiceSource.Makes (row ++ later) s → ∃ t, x s = .ok a t ∧ ChoiceSource.Makes later t

theorem takes_pure (a : α) : Takes (σ := σ) (pure a) [] a := fun _ s h => ⟨s, rfl, h⟩

theorem Takes.bind {x : Generation σ α} {f : α → Generation σ β} {first second : List Choice}
    {a : α} {b : β} (hx : Takes x first a) (hf : Takes (f a) second b) :
    Takes (x >>= f) (first ++ second) b := by
  intro later s h
  rw [List.append_assoc] at h
  obtain ⟨r, hr, hsecond⟩ := hx _ s h
  obtain ⟨t, ht, hlater⟩ := hf later r hsecond
  exact ⟨t, bind_eq_ok_iff.mpr ⟨a, r, hr, ht⟩, hlater⟩

theorem exists_takes_oneOf {x : α} {xs : List α} (hfew : xs.length + 1 < Words.wordCount) {y : α}
    (hy : y ∈ x :: xs) : ∃ c, Takes (σ := σ) (oneOf x xs) [c] y := by
  obtain ⟨i, rfl⟩ := List.mem_iff_get.mp hy
  refine ⟨⟨xs.length, i, hfew⟩, fun later s h => ?_⟩
  obtain ⟨hindex, hlater⟩ := h
  refine ⟨_, ?_, hlater⟩
  rw [oneOf_eq, hindex]

/-- A row for an alternative behind the choice of it is a row for the nonterminal. -/
theorem exists_takes_derive (hfew : ∀ r ∈ g.rules, r.alternatives.length < Words.wordCount)
    {limit d : Nat} {a : Name} {alternative : Alternative} {u : List Name}
    (ha : alternative ∈ g.alternatives a)
    (hu : ∃ row, Takes (σ := σ) (spell (derive g limit d) alternative) row u) :
    ∃ row, Takes (σ := σ) (derive g limit (d + 1) a) row u := by
  obtain ⟨r, hr, hrule, hmem⟩ := exists_rule? ha
  obtain ⟨row, hrow⟩ := hu
  cases halternatives : r.alternatives with
  | nil => simp [halternatives] at hmem
  | cons x xs =>
    rw [halternatives] at hmem hrule
    have hlength := hfew r hr
    rw [halternatives, List.length_cons] at hlength
    obtain ⟨c, hc⟩ := exists_takes_oneOf (σ := σ) hlength hmem
    refine ⟨[c] ++ row, ?_⟩
    unfold derive
    rw [hrule]
    exact hc.bind hrow

/-- A derivation within the depth is spelled by some row of choices. -/
theorem exists_takes_spell (hfew : ∀ r ∈ g.rules, r.alternatives.length < Words.wordCount)
    {d : Nat} {xs : List Symbol} {w : List Name} (h : DerivesWithin g d xs w) (limit : Nat) :
    ∃ row, Takes (σ := σ) (spell (derive g limit d) xs) row w := by
  induction h with
  | nil => exact ⟨[], takes_pure []⟩
  | terminal _ ih =>
    obtain ⟨row, hrow⟩ := ih
    exact ⟨row ++ [], hrow.bind (takes_pure _)⟩
  | nonterminal ha _ _ ihu ihw =>
    obtain ⟨first, hfirst⟩ := exists_takes_derive hfew ha ihu
    obtain ⟨second, hsecond⟩ := ihw
    exact ⟨first ++ (second ++ []), hfirst.bind (hsecond.bind (takes_pure _))⟩

end

end Generation

namespace Grammar

open Generation

variable {g : Grammar}

section

variable {σ : Type} [ChoiceSource σ]

theorem generateWithin_succ (g : Grammar) (limit attempts : Nat) (s : σ) :
    g.generateWithin limit (attempts + 1) s =
      match g.generate limit s with
      | .error (.tooDeep _) s => g.generateWithin limit attempts s
      | result => result := rfl

theorem generateWithin_of_tooDeep {limit attempts depth : Nat} {s r : σ}
    (h : g.generate limit s = .error (.tooDeep depth) r) :
    g.generateWithin limit (attempts + 1) s = g.generateWithin limit attempts r := by
  rw [generateWithin_succ, h]

/-- A run that does not get too deep is the last one. -/
theorem generateWithin_of_ne {limit attempts : Nat} {s : σ}
    (h : ∀ depth r, g.generate limit s ≠ .error (.tooDeep depth) r) :
    g.generateWithin limit (attempts + 1) s = g.generate limit s := by
  rw [generateWithin_succ]
  split
  next hrun => exact absurd hrun (h _ _)
  next => rfl

/-- However often it tries, sampling ends as one of its tries did, or because all of them got too
deep. -/
theorem generateWithin_cases (g : Grammar) (limit attempts : Nat) (s : σ) :
    (∃ t, g.generateWithin limit attempts s = .error (.tooDeep limit) t) ∨
      ∃ r, g.generateWithin limit attempts s = g.generate limit r := by
  induction attempts generalizing s with
  | zero => exact .inl ⟨s, rfl⟩
  | succ attempts ih =>
    rw [generateWithin_succ]
    split
    next t _ => exact ih t
    next => exact .inr ⟨s, rfl⟩

theorem derivesWithin_of_generateWithin {limit attempts : Nat} {w : List Name} {s t : σ}
    (h : g.generateWithin limit attempts s = .ok w t) :
    DerivesWithin g limit [.nonterminal g.start] w := by
  rcases g.generateWithin_cases limit attempts s with ⟨r, hr⟩ | ⟨r, hr⟩
  · cases h.symm.trans hr
  · exact derivesWithin_of_derive (hr.symm.trans h)

theorem generateWithin_of_generate {limit attempts : Nat} {w : List Name} {s t : σ}
    (h : g.generate limit s = .ok w t) : g.generateWithin limit (attempts + 1) s = .ok w t := by
  rw [generateWithin_of_ne (by simp [h]), h]

section

variable {ι : Type} {sources : ι → σ}

theorem drawn_iff_derivesWithin (hforced : ChoiceSource.ForcesAll sources)
    (hfew : ∀ r ∈ g.rules, r.alternatives.length < Words.wordCount)
    {d : Nat} {a : Name} {w : List Name} :
    (∃ i s, g.generateFrom d a (sources i) = .ok w s) ↔
      DerivesWithin g d [.nonterminal a] w := by
  constructor
  · rintro ⟨_, _, h⟩
    exact derivesWithin_of_derive h
  · intro h
    cases h with
    | @nonterminal e _ _ _ u _ ha hu hnil =>
      cases hnil
      have hspell := exists_takes_spell (σ := σ) hfew hu (e + 1)
      obtain ⟨row, hrow⟩ := exists_takes_derive hfew ha hspell
      obtain ⟨i, hi⟩ := hforced (row ++ [])
      obtain ⟨t, ht, _⟩ := hrow [] (sources i) hi
      rw [List.append_nil]
      exact ⟨i, t, ht⟩

/-- The sentences that can be drawn from a nonterminal are those of its derivation trees within the
depth. So the sentences that can be drawn with some depth are exactly those of the grammar. -/
theorem drawn_iff_exists_tree (hforced : ChoiceSource.ForcesAll sources)
    (hfew : ∀ r ∈ g.rules, r.alternatives.length < Words.wordCount) :
    (∀ a d w, (∃ i s, g.generateFrom d a (sources i) = .ok w s) ↔
      ∃ t : g.Tree a, t.yield = w ∧ t.Within d) ∧
    ∀ w, (∃ d i s, g.generate d (sources i) = .ok w s) ↔ g.Generates g.start w := by
  constructor
  · intro a d w
    rw [drawn_iff_derivesWithin hforced hfew, derivesWithin_iff_exists_tree]
  · intro w
    show (∃ d i s, g.generateFrom d g.start (sources i) = .ok w s) ↔
      Derives g [.nonterminal g.start] w
    rw [derives_iff_exists_derivesWithin]
    exact exists_congr fun d => drawn_iff_derivesWithin hforced hfew

end

end

/-- The start symbol of `mixed` by its first alternative, and both `A` there by their second. -/
def mixedTree : mixed.Tree "S" :=
  have hA : [.terminal "a"] ∈ mixed.alternatives "A" := by decide
  have hS : [.nonterminal "A", .terminal "b", .nonterminal "A"] ∈ mixed.alternatives "S" := by
    decide
  .node hS (.node hA (.leaf "a" .nil) (.leaf "b" (.node hA (.leaf "a" .nil) .nil))) .nil

theorem mixed_drawn :
    (∀ r ∈ mixed.rules, r.alternatives.length < Words.wordCount) ∧
      (∃ words seed s,
        mixed.generateFrom 2 "S" (Words.ofSeed words seed) = .ok ["a", "b", "a"] s) ∧
      ∀ w, (∃ d words seed s, mixed.generate d (Words.ofSeed words seed) = .ok w s) ↔
        mixed.Generates "S" w := by
  have hfew : ∀ r ∈ mixed.rules, r.alternatives.length < Words.wordCount := by decide
  obtain ⟨htrees, hsentences⟩ := drawn_iff_exists_tree Words.forcesAll_ofSeed hfew
  simp only [Prod.exists] at htrees hsentences
  exact ⟨hfew, (htrees "S" 2 ["a", "b", "a"]).mpr ⟨mixedTree, rfl, by decide⟩, hsentences⟩

end Grammar

end ContextFree
