import ContextFree.Grammar.Equiv
import ContextFree.Grammar.Pass
import ContextFree.Grammar.WellFormed
import ContextFree.Proofs.Saturation
import Mathlib.Data.List.Nodup

/-!
The search for nullable nonterminals goes over all rules until a pass finds nothing. It finds those
that derive the empty sentence, whatever the order in which it meets them.
-/

namespace ContextFree

/-- The rules whose names are not known. -/
def unknownRules (known : List Name) (rules : List Rule) : List Rule :=
  rules.filter (!known.contains ·.name)

section

variable {terminals : Bool} {known : List Name} {rules : List Rule}

/-- The rules that a pass leaves are those whose names it leaves unknown. -/
theorem sweep_snd_eq (hrules : (rules.map Rule.name).Nodup)
    (hnew : ∀ r ∈ rules, r.name ∉ known) :
    (sweep terminals known rules).2 = unknownRules (sweep terminals known rules).1 rules := by
  induction rules generalizing known with
  | nil => rfl
  | cons r rest ih =>
    obtain ⟨hr, hrest⟩ := List.nodup_cons.mp hrules
    obtain ⟨hrnew, hrestnew⟩ := List.forall_mem_cons.mp hnew
    have hne : ∀ s ∈ rest, s.name ≠ r.name := fun s hs he => hr (he ▸ List.mem_map_of_mem hs)
    rw [sweep]
    split
    next =>
      have hknown : r.name ∈ (sweep terminals (known ++ [r.name]) rest).1 :=
        subset_sweep _ _ _ (by simp)
      have hstill : ∀ s ∈ rest, s.name ∉ known ++ [r.name] := by
        intro s hs
        simp [hrestnew s hs, hne s hs]
      rw [ih hrest hstill, unknownRules, unknownRules,
        List.filter_cons_of_neg (by simpa using hknown)]
    next =>
      have hunknown : r.name ∉ (sweep terminals known rest).1 := by
        obtain ⟨found, heq, hfound⟩ := sweep_fst terminals known rest
        rw [heq, List.mem_append, not_or]
        refine ⟨hrnew, fun hmem => ?_⟩
        obtain ⟨s, hs, hname⟩ := hfound _ hmem
        exact hne s hs hname
      simp [unknownRules, hunknown, ih hrest hrestnew]

theorem unknownRules_sweep (hrules : (rules.map Rule.name).Nodup) :
    unknownRules (sweep terminals known (unknownRules known rules)).1 rules =
      (sweep terminals known (unknownRules known rules)).2 := by
  have hnodup : ((unknownRules known rules).map Rule.name).Nodup :=
    hrules.sublist (List.filter_sublist.map _)
  rw [sweep_snd_eq hnodup (by simp [unknownRules])]
  have hsub := subset_sweep terminals known (unknownRules known rules)
  generalize (sweep terminals known (unknownRules known rules)).1 = found at hsub ⊢
  simp only [unknownRules, List.filter_filter]
  apply List.filter_congr
  intro r _
  by_cases hr : r.name ∈ known
  · simp [hr, hsub hr]
  · simp [hr]

namespace Pass

/-- A pass over all rules does what `sweep` does with the rules of unknown names, and tells whether
that leaves fewer of them. -/
theorem foldl_visit (hrules : (rules.map Rule.name).Nodup) (changed : Bool) :
    rules.foldl (visit terminals) ⟨known, changed⟩ =
      ⟨(sweep terminals known (unknownRules known rules)).1,
        changed || decide ((sweep terminals known (unknownRules known rules)).2.length <
          (unknownRules known rules).length)⟩ := by
  induction rules generalizing known changed with
  | nil => simp [unknownRules, sweep]
  | cons r rest ih =>
    obtain ⟨hr, hrest⟩ := List.nodup_cons.mp hrules
    rw [List.foldl_cons, visit]
    by_cases hname : r.name ∈ known
    · have hskip : unknownRules known (r :: rest) = unknownRules known rest := by
        simp [unknownRules, hname]
      rw [if_pos (by simpa using hname), ih hrest, hskip]
    · have hkeep : unknownRules known (r :: rest) = r :: unknownRules known rest := by
        simp [unknownRules, hname]
      rw [if_neg (by simpa using hname), hkeep, sweep]
      split
      next =>
        -- The name counts for the rules behind it, but none of them has the same name.
        have hsame : unknownRules (known ++ [r.name]) rest = unknownRules known rest := by
          apply List.filter_congr
          intro s hs
          have hne : s.name ≠ r.name := fun he => hr (he ▸ List.mem_map_of_mem hs)
          simp [hne]
        have hle := (sweep_snd_sublist terminals (known ++ [r.name])
          (unknownRules known rest)).length_le
        rw [ih hrest, hsame, List.length_cons, decide_eq_true (Nat.lt_succ_of_le hle)]
        simp
      next =>
        rw [ih hrest]
        simp

theorem run_eq (hrules : (rules.map Rule.name).Nodup) :
    run terminals rules known =
      ⟨(sweep terminals known (unknownRules known rules)).1,
        decide ((sweep terminals known (unknownRules known rules)).2.length <
          (unknownRules known rules).length)⟩ := by
  rw [run, foldl_visit hrules, Bool.false_or]

/-- The passes lead to what `saturate` tells. All but the last leave fewer rules of unknown
names. -/
theorem exists_repeats (terminals : Bool) (hrules : (rules.map Rule.name).Nodup)
    (known : List Name) :
    ∃ n ≤ (unknownRules known rules).length + 1,
      Repeats terminals rules n known (saturate terminals known (unknownRules known rules)) := by
  generalize hunknown : unknownRules known rules = unknown
  induction known, unknown using saturate.induct terminals with
  | case1 known unknown swept hlt ih =>
    subst hunknown
    obtain ⟨n, hn, hrepeats⟩ := ih (unknownRules_sweep hrules)
    refine ⟨n + 1, by omega, .more ?_ ?_⟩
    · rw [run_eq hrules]
      exact decide_eq_true hlt
    · rwa [run_eq hrules, saturate, if_pos hlt]
  | case2 known unknown swept hlt =>
    subst hunknown
    have hlast : (run terminals rules known).changed = false := by
      rw [run_eq hrules]
      exact decide_eq_false hlt
    refine ⟨1, by omega, ?_⟩
    rw [saturate, if_neg hlt]
    have hrepeats := Repeats.last hlast
    rwa [run_eq hrules] at hrepeats

/-- The loop can go one way only. -/
theorem Repeats.unique {n m : Nat} {found found' : List Name}
    (h : Repeats terminals rules n known found) (h' : Repeats terminals rules m known found') :
    found = found' := by
  induction h generalizing m with
  | last hlast =>
    cases h' with
    | last _ => rfl
    | more hmore _ => cases hlast.symm.trans hmore
  | more hmore _ ih =>
    cases h' with
    | last hlast => cases hlast.symm.trans hmore
    | more _ hrest => exact ih hrest

theorem nodup_visit {p : Pass} (hp : p.known.Nodup) (r : Rule) :
    (p.visit terminals r).known.Nodup := by
  rw [visit]
  split
  next => exact hp
  next hnew =>
    split
    next =>
      rw [List.nodup_append_comm]
      exact List.nodup_cons.mpr ⟨by simpa using hnew, hp⟩
    next => exact hp

theorem Repeats.nodup {n : Nat} {found : List Name} (h : Repeats terminals rules n known found)
    (hknown : known.Nodup) : found.Nodup := by
  have hrun {known : List Name} (hknown : known.Nodup) :
      (run terminals rules known).known.Nodup :=
    List.foldlRecOn (motive := fun p => p.known.Nodup) rules (visit terminals) hknown
      fun _ hp r _ => nodup_visit hp r
  induction h with
  | last _ => exact hrun hknown
  | more _ _ ih => exact ih (hrun hknown)

end Pass

end

namespace Grammar

variable {g : Grammar}

/-- The search begins with the nonterminals that have an empty alternative, so the others are those
whose rules it has to look at. -/
theorem unknownRules_emptied (hg : g.ruleNames.Nodup) :
    unknownRules g.emptied g.rules = g.unemptied := by
  apply List.filter_congr
  intro r hr
  have hmem : r.name ∈ g.emptied ↔ r.alternatives.contains [] = true := by
    simp only [emptied, List.mem_map, List.mem_filter]
    constructor
    · rintro ⟨s, ⟨hs, hempty⟩, hname⟩
      rwa [← alternatives_name hg hr, ← hname, alternatives_name hg hs]
    · exact fun hempty => ⟨r, ⟨hr, hempty⟩, rfl⟩
  rw [Bool.eq_iff_iff]
  simp [hmem]

theorem nodup_emptied (hg : g.ruleNames.Nodup) : g.emptied.Nodup :=
  hg.sublist (List.filter_sublist.map _)

/-- In whatever order the rules stand, the search for nullable nonterminals ends, after at most one
pass more than there are nonterminals without an empty alternative. It cannot end with anything but
the nonterminals that derive the empty sentence, each of them once. -/
theorem nullable_is_exact (hg : g.WellFormed) {k : Grammar} (hk : k.rules.Perm g.rules) :
    (∃ n ≤ k.unemptied.length + 1, Pass.Repeats false k.rules n k.emptied k.nullable) ∧
      (∀ n found, Pass.Repeats false k.rules n k.emptied found → found = k.nullable) ∧
      k.nullable.Nodup ∧ ∀ a, a ∈ k.nullable ↔ g.Generates a [] := by
  have hnames : k.ruleNames.Nodup := (hk.map Rule.name).nodup_iff.mpr hg.nodup_ruleNames
  have hsearch := Pass.exists_repeats false hnames k.emptied
  rw [unknownRules_emptied hnames] at hsearch
  obtain ⟨n, hn, hrepeats⟩ := hsearch
  refine ⟨⟨n, hn, hrepeats⟩, fun m found h => h.unique hrepeats,
    hrepeats.nodup (nodup_emptied hnames), fun a => ?_⟩
  rw [mem_nullable_iff hnames]
  exact derives_congr (alternatives_eq_of_perm hg.nodup_ruleNames hk)

/-- Only `C` has an empty alternative. `S` and `A` depend on each other, and `W` depends on itself,
which does not make it nullable. -/
def entangled : Grammar where
  nonterminals := ["S", "A", "B", "C", "W"]
  terminals := ["a", "b"]
  rules := [
    ⟨"S", [[.nonterminal "A", .nonterminal "B"], [.terminal "a"]]⟩,
    ⟨"A", [[.nonterminal "S", .nonterminal "A"], [.nonterminal "C"]]⟩,
    ⟨"B", [[.terminal "b"], [.nonterminal "C", .nonterminal "C"]]⟩,
    ⟨"C", [[.terminal "a", .nonterminal "C"], []]⟩,
    ⟨"W", [[.nonterminal "W"], [.nonterminal "C", .nonterminal "W"]]⟩]
  start := "S"

/-- From the last rule to the first, the search meets `B` before `A`. -/
theorem nullable_is_exact_entangled :
    entangled.WellFormed ∧ entangled.rules.reverse.Perm entangled.rules ∧
      (∃ n ≤ 5, Pass.Repeats false entangled.rules.reverse n ["C"] ["C", "B", "A", "S"]) ∧
      entangled.Generates "S" [] ∧ ¬ entangled.Generates "W" [] := by
  have hg : entangled.WellFormed := by decide
  have hk : entangled.rules.reverse.Perm entangled.rules := List.reverse_perm _
  obtain ⟨⟨n, hn, hrepeats⟩, _, _, hexact⟩ :=
    nullable_is_exact hg (k := { entangled with rules := entangled.rules.reverse }) hk
  have hfound : ({ entangled with rules := entangled.rules.reverse } : Grammar).nullable =
      ["C", "B", "A", "S"] := by decide +kernel
  rw [hfound] at hexact hrepeats
  exact ⟨hg, hk, ⟨n, hn, hrepeats⟩, (hexact "S").mp (by decide), fun hW =>
    absurd ((hexact "W").mpr hW) (by decide)⟩

/-- As the rules stand, `S` comes before `A` and `B`, so a second pass has to find it, and a third
one finds nothing. -/
example : Pass.Repeats false entangled.rules 3 ["C"] ["C", "A", "B", "S"] :=
  .more rfl (.more rfl (.last rfl))

end Grammar

end ContextFree
