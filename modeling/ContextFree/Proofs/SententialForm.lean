import ContextFree.Proofs.Derivation
import ContextFree.Proofs.Discovery

/-!
Sentential forms: what single replacements lead to. The sentences that symbols derive are the forms
of them that consist of terminals, and the nonterminals in the forms of a nonterminal are those that
a chain of mentions leads to.
-/

namespace ContextFree

namespace Grammar

variable {g : Grammar}

/-- A replacement may take place anywhere inside a list of symbols. -/
theorem Rewrites.inside {xs ys : List Symbol} (h : g.Rewrites xs ys) (front back : List Symbol) :
    g.Rewrites (front ++ (xs ++ back)) (front ++ (ys ++ back)) := by
  cases h with
  | replace before after ha =>
    have hmoved := Rewrites.replace (front ++ before) (after ++ back) ha
    simpa only [List.append_assoc, List.cons_append] using hmoved

theorem chain_inside {xs ys : List Symbol} (h : Relation.ReflTransGen g.Rewrites xs ys)
    (front back : List Symbol) :
    Relation.ReflTransGen g.Rewrites (front ++ (xs ++ back)) (front ++ (ys ++ back)) :=
  h.lift (fun zs => front ++ (zs ++ back)) fun _ _ hstep => hstep.inside front back

theorem Derives.of_rewrites {xs ys : List Symbol} {w : List Name} (h : g.Rewrites xs ys)
    (hw : Derives g ys w) : Derives g xs w := by
  cases h with
  | replace before after ha =>
    obtain ⟨u, rest, rfl, hu, hrest⟩ := derives_append_iff.mp hw
    obtain ⟨v, v', rfl, hv, hv'⟩ := derives_append_iff.mp hrest
    exact hu.append (.nonterminal ha hv hv')

/-- Deriving a sentence is the same as getting there by single replacements. -/
theorem derives_iff_chain {xs : List Symbol} {w : List Name} :
    Derives g xs w ↔ Relation.ReflTransGen g.Rewrites xs (w.map .terminal) := by
  constructor
  · intro hw
    induction hw with
    | nil => exact .refl
    | @terminal a rest w _ ih => simpa using chain_inside ih [.terminal a] []
    | @nonterminal a alternative rest u w ha _ _ ihu ihw =>
      have hfirst : g.Rewrites (.nonterminal a :: rest) (alternative ++ rest) := .replace [] rest ha
      have hleft := chain_inside ihu [] rest
      have hright := chain_inside ihw (u.map .terminal) []
      simp only [List.nil_append, List.append_nil] at hleft hright
      rw [List.map_append]
      exact .head hfirst (hleft.trans hright)
  · intro h
    induction h using Relation.ReflTransGen.head_induction_on with
    | refl => exact derives_terminals g w
    | head hstep _ ih => exact ih.of_rewrites hstep

/-- A replacement brings in only nonterminals that the replaced one mentions. -/
theorem Rewrites.cases_of_mem {xs ys : List Symbol} (h : g.Rewrites xs ys) {b : Name}
    (hb : .nonterminal b ∈ ys) :
    .nonterminal b ∈ xs ∨ ∃ a, .nonterminal a ∈ xs ∧ g.Mentions a b := by
  cases h with
  | @replace before a alternative after ha =>
    rcases List.mem_append.mp hb with hb | hb
    · exact .inl (List.mem_append_left _ hb)
    · rcases List.mem_append.mp hb with hb | hb
      · exact .inr ⟨a, by simp, alternative, ha, hb⟩
      · exact .inl (List.mem_append_right _ (List.mem_cons_of_mem _ hb))

/-- A chain of mentions leads to the nonterminals in sentential forms and to no others. -/
theorem chain_iff_exists_form {a b : Name} :
    Relation.ReflTransGen g.Mentions a b ↔
      ∃ form, Relation.ReflTransGen g.Rewrites [.nonterminal a] form ∧ .nonterminal b ∈ form := by
  constructor
  · intro h
    induction h with
    | refl => exact ⟨_, .refl, List.mem_singleton_self _⟩
    | @tail c d _ hcd ih =>
      obtain ⟨form, hform, hc⟩ := ih
      obtain ⟨alternative, hmem, hd⟩ := hcd
      obtain ⟨before, after, rfl⟩ := List.append_of_mem hc
      refine ⟨_, hform.tail (.replace before after hmem), ?_⟩
      exact List.mem_append_right _ (List.mem_append_left _ hd)
  · rintro ⟨form, hform, hb⟩
    induction hform generalizing b with
    | refl =>
      obtain rfl : b = a := by simpa using hb
      exact .refl
    | tail _ hstep ih =>
      rcases hstep.cases_of_mem hb with hb | ⟨c, hc, hcb⟩
      · exact ih hb
      · exact (ih hc).tail hcb

end Grammar

end ContextFree
