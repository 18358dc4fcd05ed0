import ContextFree.Symbol

/-!
Context-free grammars. Everything in a grammar keeps its order: the nonterminals, the terminals,
the rules and the alternatives of a rule. A rule may have no alternatives. That the rules are those
of the nonterminals, one for each, is part of `Grammar.WellFormed`.
-/

namespace ContextFree

/-- A nonterminal with all the alternatives that may stand for it. -/
structure Rule where
  name : Name
  alternatives : List Alternative
  deriving DecidableEq

/-- Where no name has two rules, each rule is found by its name. -/
theorem find?_name {rules : List Rule} (h : (rules.map Rule.name).Nodup) {r : Rule}
    (hr : r ∈ rules) : rules.find? (·.name == r.name) = some r := by
  induction rules with
  | nil => cases hr
  | cons s rest ih =>
    rw [List.map_cons, List.nodup_cons] at h
    rcases List.mem_cons.mp hr with rfl | hr
    · simp
    · have hne : s.name ≠ r.name := fun he => h.1 (he ▸ List.mem_map_of_mem hr)
      simpa [hne] using ih h.2 hr

structure Grammar where
  nonterminals : List Name
  terminals : List Name
  rules : List Rule
  start : Name
  deriving DecidableEq

namespace Grammar

/-- The nonterminals that have rules. -/
def ruleNames (g : Grammar) : List Name := g.rules.map Rule.name

/-- The alternatives of a nonterminal, or nothing for a name that has no rule. -/
def alternatives? (g : Grammar) (a : Name) : Option (List Alternative) :=
  (g.rules.find? (·.name == a)).map Rule.alternatives

/-- The alternatives of a nonterminal; a name that has no rule has none. -/
def alternatives (g : Grammar) (a : Name) : List Alternative := (g.alternatives? a).getD []

/-- The names of all symbols. -/
def names (g : Grammar) : List Name := g.nonterminals ++ g.terminals

/-- Applies a change to every rule's list of alternatives. -/
def mapAlternatives (g : Grammar) (f : List Alternative → List Alternative) : Grammar :=
  { g with rules := g.rules.map fun r => { r with alternatives := f r.alternatives } }

/-- Replaces the alternatives of one nonterminal, whose rule keeps its place. -/
def setAlternatives (g : Grammar) (a : Name) (alternatives : List Alternative) : Grammar :=
  { g with rules := g.rules.map fun r => if r.name = a then { r with alternatives } else r }

/-- The nonterminals that are not listed. The start symbol counts as listed. -/
def outside (g : Grammar) (names : List Name) : List Name :=
  g.nonterminals.filter fun a => !(a == g.start || names.contains a)

/-- The grammar without some nonterminals and their rules. The terminals stay. -/
def without (g : Grammar) (names : List Name) : Grammar :=
  { g with
    nonterminals := g.nonterminals.filter (!names.contains ·)
    rules := g.rules.filter (!names.contains ·.name) }

/-- The grammar without the nonterminals that are not listed. The start symbol always stays. -/
def restrict (g : Grammar) (names : List Name) : Grammar := g.without (g.outside names)

/-- Whether the start symbol has no alternatives. Once the symbols that derive nothing are gone,
this says that the grammar has no sentences. -/
def startIsBarren (g : Grammar) : Bool := (g.alternatives g.start).isEmpty

theorem mem_ruleNames {g : Grammar} {a : Name} :
    a ∈ g.ruleNames ↔ ∃ r ∈ g.rules, r.name = a := List.mem_map

/-- A name has alternatives, possibly none, exactly if it has a rule. -/
theorem alternatives?_eq_none_iff {g : Grammar} {a : Name} :
    g.alternatives? a = none ↔ a ∉ g.ruleNames := by
  simp [alternatives?, mem_ruleNames]

theorem alternatives_eq_nil {g : Grammar} {a : Name} (h : a ∉ g.ruleNames) :
    g.alternatives a = [] := by
  simp [alternatives, alternatives?_eq_none_iff.mpr h]

/-- If no nonterminal has two rules, each rule tells the alternatives of its name. -/
theorem alternatives?_name {g : Grammar} (h : g.ruleNames.Nodup) {r : Rule} (hr : r ∈ g.rules) :
    g.alternatives? r.name = some r.alternatives := by
  simp [alternatives?, find?_name h hr]

theorem alternatives_name {g : Grammar} (h : g.ruleNames.Nodup) {r : Rule} (hr : r ∈ g.rules) :
    g.alternatives r.name = r.alternatives := by
  simp [alternatives, alternatives?_name h hr]

theorem mem_outside {g : Grammar} {names : List Name} {a : Name} :
    a ∈ g.outside names ↔ a ∈ g.nonterminals ∧ a ≠ g.start ∧ a ∉ names := by
  simp [outside]

/-- A nonterminal stays that is listed, and the start symbol stays. -/
theorem notMem_outside_iff {g : Grammar} {names : List Name} {a : Name} (ha : a ∈ g.nonterminals) :
    a ∉ g.outside names ↔ a = g.start ∨ a ∈ names := by
  by_cases hstart : a = g.start <;> simp [mem_outside, ha, hstart]

theorem ruleNames_without (g : Grammar) (names : List Name) :
    (g.without names).ruleNames = g.ruleNames.filter (!names.contains ·) := by
  simp [ruleNames, without, List.filter_map, Function.comp_def]

theorem alternatives_without_of_mem {g : Grammar} {names : List Name} {a : Name}
    (h : a ∈ names) : (g.without names).alternatives a = [] := by
  apply alternatives_eq_nil
  rw [mem_ruleNames]
  intro h'
  obtain ⟨r, hr, rfl⟩ := h'
  simp [without, h] at hr

theorem alternatives_without_of_notMem {g : Grammar} {names : List Name} {a : Name}
    (h : a ∉ names) : (g.without names).alternatives a = g.alternatives a := by
  simp only [alternatives, alternatives?, without, List.find?_filter]
  congr 3
  funext r
  by_cases hr : r.name = a <;> simp [hr, h]

theorem mem_alternatives_without {g : Grammar} {names : List Name} {a : Name}
    {alternative : Alternative} :
    alternative ∈ (g.without names).alternatives a ↔
      a ∉ names ∧ alternative ∈ g.alternatives a := by
  by_cases h : a ∈ names
  · simp [alternatives_without_of_mem h, h]
  · simp [alternatives_without_of_notMem h, h]

theorem alternatives_without_sublist {g : Grammar} {names : List Name} {a : Name} :
    ((g.without names).alternatives a).Sublist (g.alternatives a) := by
  by_cases h : a ∈ names
  · rw [alternatives_without_of_mem h]
    exact List.nil_sublist _
  · simp [alternatives_without_of_notMem h]

/-- An alternative of a name comes from a rule of that name. -/
theorem exists_rule {g : Grammar} {a : Name} {alternative : Alternative}
    (h : alternative ∈ g.alternatives a) :
    ∃ r ∈ g.rules, r.name = a ∧ alternative ∈ r.alternatives := by
  unfold alternatives alternatives? at h
  cases hr : g.rules.find? (·.name == a) with
  | none => simp [hr] at h
  | some r =>
    exact ⟨r, List.mem_of_find?_eq_some hr, by simpa using List.find?_some hr,
      by simpa [hr] using h⟩

theorem mem_alternatives {g : Grammar} (h : g.ruleNames.Nodup) {a : Name}
    {alternative : Alternative} :
    alternative ∈ g.alternatives a ↔
      ∃ r ∈ g.rules, r.name = a ∧ alternative ∈ r.alternatives := by
  refine ⟨exists_rule, ?_⟩
  intro h'
  obtain ⟨r, hr, rfl, ha⟩ := h'
  rwa [alternatives_name h hr]

/-- The rules are told by their names and the alternatives of each name. -/
theorem rules_eq_map {g : Grammar} (h : g.ruleNames.Nodup) :
    g.rules = g.ruleNames.map fun a => ⟨a, g.alternatives a⟩ := by
  have hsame : ∀ r ∈ g.rules, (⟨r.name, g.alternatives r.name⟩ : Rule) = r := by
    intro r hr
    rw [alternatives_name h hr]
  rw [ruleNames, List.map_map]
  exact (List.map_id' g.rules).symm.trans (List.map_congr_left fun r hr => (hsame r hr).symm)

theorem eq_of_alternatives {g k : Grammar} (hg : g.ruleNames.Nodup)
    (hnonterminals : k.nonterminals = g.nonterminals) (hterminals : k.terminals = g.terminals)
    (hstart : k.start = g.start) (hnames : k.ruleNames = g.ruleNames)
    (h : ∀ a ∈ g.ruleNames, k.alternatives a = g.alternatives a) : k = g := by
  have hrules : k.rules = g.rules := by
    rw [rules_eq_map hg, rules_eq_map (hnames ▸ hg), hnames]
    exact List.map_congr_left fun a ha => by rw [h a ha]
  cases g
  cases k
  simp_all only

@[simp] theorem ruleNames_mapAlternatives (g : Grammar)
    (f : List Alternative → List Alternative) :
    (g.mapAlternatives f).ruleNames = g.ruleNames := by
  simp [ruleNames, mapAlternatives]

/-- A change of all rules shows in the alternatives of every name. -/
theorem alternatives_mapAlternatives (g : Grammar) {f : List Alternative → List Alternative}
    (hf : f [] = []) (a : Name) :
    (g.mapAlternatives f).alternatives a = f (g.alternatives a) := by
  simp only [alternatives, alternatives?, mapAlternatives, List.find?_map, Option.map_map,
    Function.comp_def]
  cases g.rules.find? (·.name == a) <;> simp [hf]

@[simp] theorem ruleNames_setAlternatives (g : Grammar) (a : Name)
    (alternatives : List Alternative) :
    (g.setAlternatives a alternatives).ruleNames = g.ruleNames := by
  simp only [ruleNames, setAlternatives, List.map_map]
  apply List.map_congr_left
  intro r _
  simp only [Function.comp_apply]
  split <;> rfl

/-- Putting the same alternatives in again changes nothing. -/
theorem setAlternatives_alternatives {g : Grammar} (h : g.ruleNames.Nodup) (a : Name) :
    g.setAlternatives a (g.alternatives a) = g := by
  have hsame : ∀ r ∈ g.rules,
      (if r.name = a then { r with alternatives := g.alternatives a } else r) = r := by
    intro r hr
    split
    next ha => rw [← ha, alternatives_name h hr]
    next => rfl
  rw [setAlternatives, List.map_congr_left hsame, List.map_id']

/-- Of two replacements of the same alternatives the second one counts. -/
@[simp] theorem setAlternatives_setAlternatives (g : Grammar) (a : Name)
    (alternatives later : List Alternative) :
    (g.setAlternatives a alternatives).setAlternatives a later = g.setAlternatives a later := by
  simp only [setAlternatives, List.map_map]
  congr 2
  funext r
  by_cases ha : r.name = a <;> simp [ha]

theorem alternatives_setAlternatives_self {g : Grammar} {a : Name}
    {alternatives : List Alternative} (h : a ∈ g.ruleNames) :
    (g.setAlternatives a alternatives).alternatives a = alternatives := by
  obtain ⟨_, _, rules, _⟩ := g
  simp only [ruleNames, setAlternatives, Grammar.alternatives, alternatives?] at h ⊢
  induction rules with
  | nil => cases h
  | cons r rest ih =>
    by_cases hr : r.name = a
    · simp [hr]
    · have hrest : a ∈ rest.map Rule.name := by
        rcases List.mem_cons.mp h with rfl | h
        · exact absurd rfl hr
        · exact h
      simpa [hr] using ih hrest

@[simp] theorem alternatives_setAlternatives_of_ne (g : Grammar) {a b : Name}
    (alternatives : List Alternative) (h : b ≠ a) :
    (g.setAlternatives a alternatives).alternatives b = g.alternatives b := by
  simp only [Grammar.alternatives, alternatives?, setAlternatives]
  induction g.rules with
  | nil => rfl
  | cons r rest ih =>
    by_cases hb : r.name = b
    · have hr : r.name ≠ a := fun hr => h (hb.symm.trans hr)
      simp [hb, h]
    · by_cases hr : r.name = a
      · simpa [hr, hb, h.symm] using ih
      · simpa [hr, hb] using ih

end Grammar

end ContextFree
