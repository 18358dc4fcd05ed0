import ContextFree.Bnf.Text
import ContextFree.Grammar.WellFormed
import ContextFree.Proofs.Reading
import Mathlib.Data.List.Basic

/-!
A written rule is a line of spaced out tokens. The tokens can all be written, and they parse back to
the rule.
-/

namespace ContextFree

def Symbol.token : Symbol → Token
  | terminal a => .quoted a
  | nonterminal a => .word a

/-- The empty alternative is written as a terminal without a name. -/
def Alternative.tokens (alternative : Alternative) : List Token :=
  if alternative = [] then [.quoted ""] else alternative.map Symbol.token

def Rule.tokens (r : Rule) : List Token :=
  .word r.name :: .equals :: [Token.bar].intercalate (r.alternatives.map Alternative.tokens)

namespace Token

theorem spaced_append {xs ys : List Token} (hx : xs ≠ []) (hy : ys ≠ []) :
    spaced (xs ++ ys) = spaced xs ++ ' ' :: spaced ys := by
  induction xs with
  | nil => exact absurd rfl hx
  | cons t rest ih =>
    cases rest with
    | nil =>
      obtain ⟨u, ys, rfl⟩ := List.exists_cons_of_ne_nil hy
      rw [spaced_singleton]
      exact spaced_cons_cons t u ys
    | cons u rest =>
      rw [List.cons_append, List.cons_append, spaced_cons_cons, ← List.cons_append,
        ih (List.cons_ne_nil u rest), spaced_cons_cons, List.append_assoc, List.cons_append]

/-- A character other than a blank between tokens stands in one of them. -/
theorem mem_spaced_iff {tokens : List Token} {c : Char} (hc : c ≠ ' ') :
    c ∈ spaced tokens ↔ ∃ t ∈ tokens, c ∈ t.text := by
  induction tokens with
  | nil => simp
  | cons t rest ih =>
    cases rest with
    | nil => simp
    | cons u rest =>
      rw [spaced_cons_cons, List.mem_append, List.mem_cons, ih]
      simp [hc]

theorem mem_of_mem_intercalate {t mark : Token} {xss : List (List Token)}
    (h : t ∈ [mark].intercalate xss) : t = mark ∨ ∃ xs ∈ xss, t ∈ xs := by
  induction xss with
  | nil => cases h
  | cons xs rest ih =>
    cases rest with
    | nil => exact .inr ⟨xs, List.mem_cons_self, by simpa using h⟩
    | cons ys rest =>
      rw [List.intercalate_cons_cons, List.append_assoc, List.mem_append, List.mem_append] at h
      rcases h with h | h | h
      · exact .inr ⟨xs, List.mem_cons_self, h⟩
      · exact .inl (List.mem_singleton.mp h)
      · exact (ih h).imp_right fun ⟨zs, hzs, ht⟩ => ⟨zs, List.mem_cons_of_mem _ hzs, ht⟩

theorem mem_intercalate_of_mem (mark : Token) {t : Token} {xss : List (List Token)}
    {xs : List Token} (hxs : xs ∈ xss) (ht : t ∈ xs) : t ∈ [mark].intercalate xss := by
  induction xss with
  | nil => cases hxs
  | cons ys rest ih =>
    cases rest with
    | nil =>
      rw [List.mem_singleton] at hxs
      simpa [← hxs] using ht
    | cons zs rest =>
      rw [List.intercalate_cons_cons]
      rcases List.mem_cons.mp hxs with rfl | hxs
      · exact List.mem_append_left _ (List.mem_append_left _ ht)
      · exact List.mem_append_right _ (ih hxs)

theorem intercalate_ne_nil {mark : Token} {xss : List (List Token)} (hne : xss ≠ [])
    (h : ∀ xs ∈ xss, xs ≠ []) : [mark].intercalate xss ≠ [] := by
  obtain ⟨xs, rest, rfl⟩ := List.exists_cons_of_ne_nil hne
  have hxs := h xs List.mem_cons_self
  cases rest with
  | nil => simpa using hxs
  | cons ys rest => simp [List.intercalate_cons_cons]

/-- Bars between lists of tokens are spaced out like the tokens. -/
theorem spaced_intercalate {xss : List (List Token)} (h : ∀ xs ∈ xss, xs ≠ []) :
    spaced ([bar].intercalate xss) = [' ', '|', ' '].intercalate (xss.map spaced) := by
  induction xss with
  | nil => rfl
  | cons xs rest ih =>
    obtain ⟨hxs, hrest⟩ := List.forall_mem_cons.mp h
    cases rest with
    | nil => simp
    | cons ys rest =>
      have hne : [bar].intercalate (ys :: rest) ≠ [] :=
        intercalate_ne_nil (List.cons_ne_nil ys rest) hrest
      rw [List.intercalate_cons_cons, List.append_assoc, spaced_append hxs (by simp),
        spaced_append (by simp) hne, ih hrest, spaced_singleton]
      simp [List.intercalate_cons_cons, text]

end Token

theorem Symbol.text_token (s : Symbol) : s.token.text = s.text.toList := by
  cases s <;> simp [token, Token.text, text]

theorem Alternative.tokens_ne_nil (alternative : Alternative) : alternative.tokens ≠ [] := by
  unfold tokens
  split
  · exact List.cons_ne_nil _ _
  · simpa using ‹¬alternative = []›

theorem Alternative.spaced_tokens (alternative : Alternative) :
    Token.spaced alternative.tokens = alternative.text.toList := by
  unfold tokens text
  by_cases h : alternative = []
  · simp [h, Token.text]
  · rw [if_neg h, if_neg h, Token.spaced, String.toList_intercalate, List.map_map, List.map_map]
    congr 2
    funext s
    exact s.text_token

theorem Rule.spaced_tokens (r : Rule) : r.text.toList = Token.spaced r.tokens ++ ['\n'] := by
  have hequals : Token.spaced [.word r.name, .equals] = r.name.toList ++ [' ', '='] := by
    simp [Token.spaced_cons_cons, Token.text]
  unfold text tokens
  by_cases h : r.alternatives = []
  · simp [h, hequals]
  · have hne : [Token.bar].intercalate (r.alternatives.map Alternative.tokens) ≠ [] := by
      apply Token.intercalate_ne_nil (by simpa using h)
      simp [Alternative.tokens_ne_nil]
    have hspaced := Token.spaced_append (List.cons_ne_nil (.word r.name) [.equals]) hne
    have halternatives : (r.alternatives.map Alternative.tokens).map Token.spaced =
        r.alternatives.map (String.toList ∘ Alternative.text) := by
      rw [List.map_map]
      exact List.map_congr_left fun alternative _ => alternative.spaced_tokens
    rw [Token.spaced_intercalate (by simp [Alternative.tokens_ne_nil]), hequals,
      halternatives, List.cons_append, List.cons_append, List.nil_append] at hspaced
    simp [h, hspaced, String.toList_intercalate]

theorem Rule.mem_tokens {r : Rule} {t : Token} (h : t ∈ r.tokens) :
    t = .word r.name ∨ t = .equals ∨ t = .bar ∨
      ∃ alternative ∈ r.alternatives, t ∈ alternative.tokens := by
  rcases List.mem_cons.mp h with h | h
  · exact .inl h
  · rcases List.mem_cons.mp h with h | h
    · exact .inr (.inl h)
    · rcases Token.mem_of_mem_intercalate h with h | ⟨tokens, htokens, h⟩
      · exact .inr (.inr (.inl h))
      · obtain ⟨alternative, ha, rfl⟩ := List.mem_map.mp htokens
        exact .inr (.inr (.inr ⟨alternative, ha, h⟩))

theorem Alternative.mem_tokens {alternative : Alternative} {t : Token}
    (h : t ∈ alternative.tokens) : t = .quoted "" ∨ ∃ s ∈ alternative, t = s.token := by
  unfold tokens at h
  split at h
  · exact .inl (List.mem_singleton.mp h)
  · obtain ⟨s, hs, rfl⟩ := List.mem_map.mp h
    exact .inr ⟨s, hs, rfl⟩

theorem Rule.token_mem_tokens {r : Rule} {alternative : Alternative}
    (ha : alternative ∈ r.alternatives) {s : Symbol} (hs : s ∈ alternative) :
    s.token ∈ r.tokens := by
  have hne : alternative ≠ [] := List.ne_nil_of_mem hs
  have hs' : s.token ∈ alternative.tokens := by
    rw [Alternative.tokens, if_neg hne]
    exact List.mem_map_of_mem hs
  have hmem := Token.mem_intercalate_of_mem .bar (List.mem_map_of_mem ha) hs'
  exact List.mem_cons_of_mem _ (List.mem_cons_of_mem _ hmem)

/-- A written alternative is read as itself, since terminals do not have the empty name. -/
theorem Alternative.filterMap_tokens {alternative : Alternative} (h : .terminal "" ∉ alternative) :
    alternative.tokens.filterMap Token.symbol? = alternative := by
  unfold tokens
  by_cases hnil : alternative = []
  · simp [hnil, Token.symbol?]
  · rw [if_neg hnil, List.filterMap_map]
    have hsymbol : ∀ s ∈ alternative, (Token.symbol? ∘ Symbol.token) s = some s := by
      intro s hs
      cases s with
      | terminal a =>
        have ha : a ≠ "" := by
          rintro rfl
          exact h hs
        simp [Symbol.token, Token.symbol?, ha]
      | nonterminal a => rfl
    rw [List.filterMap_congr hsymbol, List.filterMap_some]

theorem Alternative.equals_notMem_tokens (alternative : Alternative) :
    .equals ∉ alternative.tokens := by
  intro hm
  rcases mem_tokens hm with h | ⟨s, _, h⟩
  · cases h
  · cases s <;> cases h

theorem Alternative.bar_notMem_tokens (alternative : Alternative) : .bar ∉ alternative.tokens := by
  intro hm
  rcases mem_tokens hm with h | ⟨s, _, h⟩
  · cases h
  · cases s <;> cases h

/-- Written alternatives are read as themselves. -/
theorem Token.alternatives_intercalate {alternatives : List Alternative}
    (h : ∀ alternative ∈ alternatives, .terminal "" ∉ alternative) :
    Token.alternatives ([bar].intercalate (alternatives.map Alternative.tokens)) =
      alternatives := by
  unfold Token.alternatives
  by_cases hnil : alternatives = []
  · simp [hnil]
  · have hne : [bar].intercalate (alternatives.map Alternative.tokens) ≠ [] :=
      intercalate_ne_nil (by simpa using hnil) (by simp [Alternative.tokens_ne_nil])
    have hbar : ∀ tokens ∈ alternatives.map Alternative.tokens, bar ∉ tokens := by
      simp [Alternative.bar_notMem_tokens]
    rw [if_neg hne, List.splitOn_intercalate bar hbar (by simpa using hnil), List.map_map]
    have hread : ∀ alternative ∈ alternatives,
        ((·.filterMap symbol?) ∘ Alternative.tokens) alternative = alternative :=
      fun alternative ha => Alternative.filterMap_tokens (h alternative ha)
    rw [List.map_congr_left hread, List.map_id']

/-- The tokens of a written rule parse back to its name and its alternatives. -/
theorem Rule.parse_tokens {r : Rule}
    (h : ∀ alternative ∈ r.alternatives, .terminal "" ∉ alternative) :
    RuleLine.parse r.tokens = .ok (r.name, r.alternatives) := by
  have hequals : .equals ∉ [Token.bar].intercalate (r.alternatives.map Alternative.tokens) := by
    intro hm
    rcases Token.mem_of_mem_intercalate hm with h | ⟨tokens, htokens, h⟩
    · cases h
    · obtain ⟨alternative, _, rfl⟩ := List.mem_map.mp htokens
      exact alternative.equals_notMem_tokens h
  rw [tokens, RuleLine.parse_word_equals, if_neg hequals, Token.alternatives_intercalate h]

theorem Token.isWritable_word {a : Name} (h : isBareName a = true) : (word a).IsWritable := by
  obtain ⟨hne, hepsilon, _, hend⟩ := isBareName_iff.mp h
  have hsign : a ≠ "ε" := by
    rintro rfl
    exact hepsilon rfl
  exact ⟨hne, hsign, hend⟩

namespace Grammar.WellFormed

variable {g : Grammar}

theorem isWritable_token (hg : g.WellFormed) {s : Symbol} (hs : g.HasSymbol s) :
    s.token.IsWritable := by
  cases s with
  | terminal a => exact (isQuotableName_iff.mp (hg.quotable_terminal a hs)).2
  | nonterminal a => exact Token.isWritable_word (hg.bare_nonterminal a hs)

theorem isWritable_of_mem_tokens (hg : g.WellFormed) {r : Rule} (hr : r ∈ g.rules) :
    ∀ t ∈ r.tokens, t.IsWritable := by
  intro t ht
  rcases Rule.mem_tokens ht with rfl | rfl | rfl | ⟨alternative, ha, ht⟩
  · exact Token.isWritable_word (hg.bare_nonterminal _ (hg.name_mem_nonterminals hr))
  · trivial
  · trivial
  · rcases Alternative.mem_tokens ht with rfl | ⟨s, hs, rfl⟩
    · exact List.not_mem_nil
    · exact hg.isWritable_token (hg.hasSymbol r hr alternative ha s hs)

theorem empty_notMem (hg : g.WellFormed) {r : Rule} (hr : r ∈ g.rules) :
    ∀ alternative ∈ r.alternatives, .terminal "" ∉ alternative := by
  intro alternative ha hs
  have hmem : "" ∈ g.terminals := hg.hasSymbol r hr alternative ha _ hs
  exact (isQuotableName_iff.mp (hg.quotable_terminal "" hmem)).1 rfl

end Grammar.WellFormed

end ContextFree
