import ContextFree.NormalForm.Reachable
import Mathlib.Logic.Relation

/-!
The search finds the names with rules that some chain of rules leads to. For the rules of a grammar
and its start symbol these are the reachable nonterminals.
-/

namespace ContextFree

/-- One of the rules leads from `a` to `b`. -/
def Leads (next : Rule → List Name) (rules : List Rule) (a b : Name) : Prop :=
  ∃ r ∈ rules, r.name = a ∧ b ∈ next r

section

variable {next : Rule → List Name} {level : List Name} {rules : List Rule}

theorem mem_rulesOf_iff (h : (rules.map Rule.name).Nodup) {r : Rule} :
    r ∈ rulesOf level rules ↔ r ∈ rules ∧ r.name ∈ level := by
  rw [rulesOf, List.mem_filterMap]
  constructor
  · intro h'
    obtain ⟨a, ha, hr⟩ := h'
    have hname : r.name = a := by simpa using List.find?_some hr
    exact ⟨List.mem_of_find?_eq_some hr, hname ▸ ha⟩
  · intro h'
    obtain ⟨hr, ha⟩ := h'
    exact ⟨r.name, ha, find?_name h hr⟩

theorem mem_rulesExcept_iff {r : Rule} :
    r ∈ rulesExcept level rules ↔ r ∈ rules ∧ r.name ∉ level := by
  simp [rulesExcept]

theorem Leads.of_rulesExcept {a b : Name} (h : Leads next (rulesExcept level rules) a b) :
    Leads next rules a b := by
  obtain ⟨r, hr, ha, hb⟩ := h
  exact ⟨r, (mem_rulesExcept_iff.mp hr).1, ha, hb⟩

/-- A chain of rules stays away from a level, or it ends there, or it ends with a chain that stays
away and begins behind a rule of the level. -/
theorem chain_cases (level : List Name) (h : (rules.map Rule.name).Nodup) {a b : Name}
    (hab : Relation.ReflTransGen (Leads next rules) a b) :
    Relation.ReflTransGen (Leads next (rulesExcept level rules)) a b ∧ a ∉ level ∨ b ∈ level ∨
      ∃ c ∈ (rulesOf level rules).flatMap next,
        Relation.ReflTransGen (Leads next (rulesExcept level rules)) c b := by
  induction hab using Relation.ReflTransGen.head_induction_on with
  | refl =>
    by_cases hb : b ∈ level
    · exact .inr (.inl hb)
    · exact .inl ⟨.refl, hb⟩
  | @head a c hac _ ih =>
    rcases ih with ⟨hcb, _⟩ | hb | hlater
    · obtain ⟨r, hr, rfl, hc⟩ := hac
      by_cases ha : r.name ∈ level
      · have hmem := (mem_rulesOf_iff h).mpr ⟨hr, ha⟩
        exact .inr (.inr ⟨c, List.mem_flatMap.mpr ⟨r, hmem, hc⟩, hcb⟩)
      · exact .inl ⟨.head ⟨r, mem_rulesExcept_iff.mpr ⟨hr, ha⟩, rfl, hc⟩ hcb, ha⟩
    · exact .inr (.inl hb)
    · exact .inr (.inr hlater)

/-- No chain of rules leads from a level on if none of the rules belongs to it. -/
theorem not_chain_of_length (hlt : ¬ (rulesExcept level rules).length < rules.length) {a b : Name}
    (ha : a ∈ level) (hb : ∃ r ∈ rules, r.name = b) :
    ¬ Relation.ReflTransGen (Leads next rules) a b := by
  have hsame : rulesExcept level rules = rules :=
    List.filter_sublist.eq_of_length_le (Nat.le_of_not_lt hlt)
  have hnone : ∀ r ∈ rules, r.name ∉ level := by
    intro r hr
    rw [← hsame] at hr
    exact (mem_rulesExcept_iff.mp hr).2
  intro hab
  rcases hab.cases_head with rfl | ⟨c, ⟨r, hr, rfl, _⟩, _⟩
  · obtain ⟨r, hr, rfl⟩ := hb
    exact hnone r hr ha
  · exact hnone r hr ha

theorem mem_discover_iff (h : (rules.map Rule.name).Nodup) {a : Name} :
    a ∈ discover next level rules ↔
      (∃ r ∈ rules, r.name = a) ∧ ∃ b ∈ level, Relation.ReflTransGen (Leads next rules) b a := by
  fun_induction discover next level rules with
  | case1 level rules visited rest hlt ih =>
    have hrest : (rest.map Rule.name).Nodup := h.sublist (List.filter_sublist.map _)
    rw [List.mem_append, List.mem_map, ih hrest]
    constructor
    · rintro (⟨r, hr, rfl⟩ | ⟨⟨r, hr, rfl⟩, b, hb, hchain⟩)
      · obtain ⟨hr, hlevel⟩ := (mem_rulesOf_iff h).mp hr
        exact ⟨⟨r, hr, rfl⟩, r.name, hlevel, .refl⟩
      · obtain ⟨s, hs, hb⟩ := List.mem_flatMap.mp (List.mem_eraseDups.mp hb)
        obtain ⟨hs, hlevel⟩ := (mem_rulesOf_iff h).mp hs
        refine ⟨⟨r, (mem_rulesExcept_iff.mp hr).1, rfl⟩, s.name, hlevel, ?_⟩
        exact .head ⟨s, hs, rfl, hb⟩
          (Relation.ReflTransGen.mono (fun _ _ h => h.of_rulesExcept) _ _ hchain)
    · intro h'
      obtain ⟨⟨r, hr, rfl⟩, b, hb, hchain⟩ := h'
      by_cases hlevel : r.name ∈ level
      · exact .inl ⟨r, (mem_rulesOf_iff h).mpr ⟨hr, hlevel⟩, rfl⟩
      · rcases chain_cases level h hchain with ⟨_, hb'⟩ | hlevel' | ⟨c, hc, hcb⟩
        · exact absurd hb hb'
        · exact absurd hlevel' hlevel
        · refine .inr ⟨⟨r, mem_rulesExcept_iff.mpr ⟨hr, hlevel⟩, rfl⟩, c, ?_, hcb⟩
          exact List.mem_eraseDups.mpr hc
  | case2 level rules rest hlt =>
    simp only [List.not_mem_nil, false_iff, not_and, not_exists]
    exact fun hr b hb => not_chain_of_length hlt hb hr

end

namespace Grammar

variable {g : Grammar}

/-- The nonterminal `b` occurs in an alternative of `a`. -/
def Mentions (g : Grammar) (a b : Name) : Prop :=
  ∃ alternative ∈ g.alternatives a, Symbol.nonterminal b ∈ alternative

theorem leads_mentions_iff (hg : g.ruleNames.Nodup) {a b : Name} :
    Leads Rule.mentions g.rules a b ↔ g.Mentions a b := by
  simp only [Leads, Mentions, mem_alternatives hg, Rule.mentions, mem_nonterminalsIn]
  constructor
  · intro h'
    obtain ⟨r, hr, ha, alternative, hmem, hb⟩ := h'
    exact ⟨alternative, ⟨r, hr, ha, hmem⟩, hb⟩
  · intro h'
    obtain ⟨alternative, ⟨r, hr, ha, hmem⟩, hb⟩ := h'
    exact ⟨r, hr, ha, alternative, hmem, hb⟩

/-- The reachable nonterminals are those that a chain of mentions leads to from the start symbol. -/
theorem mem_reachable_iff (hg : g.ruleNames.Nodup) {a : Name} :
    a ∈ g.reachable ↔ a ∈ g.ruleNames ∧ Relation.ReflTransGen g.Mentions g.start a := by
  have hleads : Leads Rule.mentions g.rules = g.Mentions := by
    funext a b
    exact propext (leads_mentions_iff hg)
  rw [reachable, mem_discover_iff hg, hleads, mem_ruleNames]
  simp

end Grammar

end ContextFree
