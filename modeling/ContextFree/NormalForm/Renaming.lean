import ContextFree.Grammar.Basic

/-!
Taking renamings out of a grammar. A renaming is an alternative that is a lone nonterminal. It gives
way to the alternatives of the nonterminal that it leads to, and these may be renamings again.
-/

namespace ContextFree

/-- The nonterminal that a renaming leads to. -/
def Alternative.renamed? : Alternative → Option Name
  | [.nonterminal a] => some a
  | _ => none

theorem Alternative.renamed?_eq_some_iff {alternative : Alternative} {a : Name} :
    alternative.renamed? = some a ↔ alternative = [.nonterminal a] := by
  constructor
  · intro h
    unfold renamed? at h
    split at h
    · rw [Option.some.inj h]
    · cases h
  · rintro rfl
    rfl

theorem Alternative.renamed?_eq_none_iff {alternative : Alternative} :
    alternative.renamed? = none ↔ ∀ a, alternative ≠ [.nonterminal a] := by
  simp only [Option.eq_none_iff_forall_ne_some, ne_eq, renamed?_eq_some_iff]

/-- The nonterminal that the first renaming leads to. -/
def firstRenamed? (alternatives : List Alternative) : Option Name :=
  alternatives.findSome? Alternative.renamed?

theorem mem_of_firstRenamed? {alternatives : List Alternative} {a : Name}
    (h : firstRenamed? alternatives = some a) : [.nonterminal a] ∈ alternatives := by
  obtain ⟨alternative, hmem, ha⟩ := List.exists_of_findSome?_eq_some h
  rwa [Alternative.renamed?_eq_some_iff.mp ha] at hmem

theorem firstRenamed?_eq_none_iff {alternatives : List Alternative} :
    firstRenamed? alternatives = none ↔
      ∀ alternative ∈ alternatives, alternative.renamed? = none := by
  simp [firstRenamed?]

namespace Grammar

/-- The nonterminals with rules that are not absorbed yet. -/
def unabsorbed (g : Grammar) (absorbed : List Name) : List Name :=
  g.ruleNames.filter (!absorbed.contains ·)

/-- What is absorbed counts no longer. -/
theorem unabsorbed_append_eq_filter (g : Grammar) (absorbed : List Name) (a : Name) :
    g.unabsorbed (absorbed ++ [a]) = (g.unabsorbed absorbed).filter (· != a) := by
  simp only [unabsorbed, List.filter_filter]
  apply List.filter_congr
  intro b _
  rw [Bool.eq_iff_iff]
  simp [and_comm]

theorem mem_unabsorbed {g : Grammar} {absorbed : List Name} {a : Name} :
    a ∈ g.unabsorbed absorbed ↔ a ∈ g.ruleNames ∧ a ∉ absorbed := by
  simp [unabsorbed]

theorem length_unabsorbed_lt {g : Grammar} {absorbed : List Name} {a : Name}
    (ha : a ∉ absorbed) (hg : a ∈ g.ruleNames) :
    (g.unabsorbed (absorbed ++ [a])).length < (g.unabsorbed absorbed).length := by
  rw [unabsorbed_append_eq_filter]
  exact List.length_filter_lt_length_iff_exists.mpr ⟨a, mem_unabsorbed.mpr ⟨hg, ha⟩, by simp⟩

theorem unabsorbed_append {g : Grammar} {absorbed : List Name} {a : Name}
    (hg : a ∉ g.ruleNames) : g.unabsorbed (absorbed ++ [a]) = g.unabsorbed absorbed := by
  rw [unabsorbed_append_eq_filter, List.filter_eq_self]
  intro b hb
  have hne : b ≠ a := fun he => hg (he ▸ (mem_unabsorbed.mp hb).1)
  simpa using hne

/-- Replaces the first renaming, again and again, by the alternatives of the nonterminal that it
leads to. A nonterminal that was absorbed before adds nothing more, so renamings that lead back do
no harm. -/
def absorb (g : Grammar) (absorbed : List Name) (alternatives : List Alternative) :
    List Alternative :=
  match _h : firstRenamed? alternatives with
  | none => alternatives
  | some a =>
    let rest := alternatives.erase [.nonterminal a]
    if absorbed.contains a then
      g.absorb absorbed rest
    else
      g.absorb (absorbed ++ [a]) (rest ++ (g.alternatives a).filter (!rest.contains ·))
termination_by ((g.unabsorbed absorbed).length, alternatives.length)
decreasing_by
  all_goals
    have hlength := List.length_erase_of_mem (mem_of_firstRenamed? _h)
    have hpos := List.length_pos_of_mem (mem_of_firstRenamed? _h)
  · exact Prod.Lex.right _ (by omega)
  · rename_i ha
    by_cases hg : a ∈ g.ruleNames
    · exact Prod.Lex.left _ _ (length_unabsorbed_lt (by simpa using ha) hg)
    · rw [unabsorbed_append hg, alternatives_eq_nil hg]
      exact Prod.Lex.right _ (by simp only [List.filter_nil, List.append_nil]; omega)

/-- Takes the renamings of one nonterminal out. -/
def absorbRenamings (g : Grammar) (a : Name) : Grammar :=
  g.setAlternatives a (g.absorb [a] (g.alternatives a))

def hasRenaming (g : Grammar) (a : Name) : Bool := (firstRenamed? (g.alternatives a)).isSome

/-- Takes the renamings of the listed nonterminals out, one after the other, each on the grammar
that the ones before it left. Answers also whether there were any. -/
def absorbAll (g : Grammar) : List Name → Bool × Grammar
  | [] => (false, g)
  | a :: rest =>
    let (changed, swept) := (g.absorbRenamings a).absorbAll rest
    (g.hasRenaming a || changed, swept)

theorem firstRenamed?_absorb (g : Grammar) (absorbed : List Name)
    (alternatives : List Alternative) : firstRenamed? (g.absorb absorbed alternatives) = none := by
  fun_induction absorb g absorbed alternatives with
  | case1 _ _ h => exact h
  | case2 _ _ _ _ _ _ ih => exact ih
  | case3 _ _ _ _ _ _ ih => exact ih

/-- The nonterminals that have renamings. -/
def renamers (g : Grammar) : List Name := g.ruleNames.filter g.hasRenaming

theorem mem_ruleNames_of_hasRenaming {g : Grammar} {a : Name} (h : g.hasRenaming a = true) :
    a ∈ g.ruleNames := by
  by_cases hg : a ∈ g.ruleNames
  · exact hg
  · simp [hasRenaming, alternatives_eq_nil hg, firstRenamed?] at h

theorem renamers_absorbRenamings (g : Grammar) (a : Name) :
    (g.absorbRenamings a).renamers = g.renamers.filter (· != a) := by
  simp only [renamers, absorbRenamings, ruleNames_setAlternatives, List.filter_filter]
  apply List.filter_congr
  intro b hb
  by_cases hba : b = a
  · subst hba
    simp [hasRenaming, alternatives_setAlternatives_self hb, firstRenamed?_absorb]
  · simp [hasRenaming, hba]

/-- A pass adds no renamers, and takes one away if it changes anything. -/
theorem length_renamers_absorbAll (g : Grammar) (names : List Name) :
    (g.absorbAll names).2.renamers.length + (g.absorbAll names).1.toNat ≤ g.renamers.length := by
  induction names generalizing g with
  | nil => simp [absorbAll]
  | cons a rest ih =>
    have h := ih (g.absorbRenamings a)
    rw [renamers_absorbRenamings] at h
    simp only [absorbAll]
    have hle := List.length_filter_le (· != a) g.renamers
    have hchanged := Bool.toNat_le ((g.absorbRenamings a).absorbAll rest).1
    by_cases ha : g.hasRenaming a = true
    · have hmem : a ∈ g.renamers := List.mem_filter.mpr ⟨mem_ruleNames_of_hasRenaming ha, ha⟩
      have hlt : (g.renamers.filter (· != a)).length < g.renamers.length :=
        List.length_filter_lt_length_iff_exists.mpr ⟨a, hmem, by simp⟩
      simp only [ha, Bool.true_or, Bool.toNat_true]
      omega
    · simp only [ha, Bool.false_or]
      omega

/-- Passes over all nonterminals until one finds no renaming. -/
def withoutRenamings (g : Grammar) : Grammar :=
  if (g.absorbAll g.ruleNames).1 then
    (g.absorbAll g.ruleNames).2.withoutRenamings
  else
    (g.absorbAll g.ruleNames).2
termination_by g.renamers.length
decreasing_by
  rename_i h
  have := length_renamers_absorbAll g g.ruleNames
  simp only [h, Bool.toNat_true] at this
  omega

end Grammar

end ContextFree
