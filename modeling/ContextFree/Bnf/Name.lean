import ContextFree.Bnf.Blank
import ContextFree.Symbol

/-! Which names can be written in BNF, as nonterminals and as terminals. -/

namespace ContextFree

/-- The word that stands for the empty alternative. -/
def emptyWord : Name := "ε"

/-- A nonterminal is written as a bare word. The word has to read back as one name, must not begin
a comment, and must not be the word for the empty alternative. -/
def isBareName (a : Name) : Bool :=
  a != "" && a != emptyWord && a.toList.head? != some ';' && !a.toList.any endsWord

/-- A terminal is written between quotes, and nothing between quotes is the empty alternative. -/
def isQuotableName (a : Name) : Bool := a != "" && !a.toList.contains '"'

theorem isBareName_iff {a : Name} :
    isBareName a = true ↔ a.toList ≠ [] ∧ a.toList ≠ ['ε'] ∧ a.toList.head? ≠ some ';' ∧
      ∀ c ∈ a.toList, endsWord c = false := by
  have hempty : a = "" ↔ a.toList = [] := String.toList_eq_nil_iff.symm
  have hepsilon : a = emptyWord ↔ a.toList = ['ε'] := String.toList_inj.symm
  simp only [isBareName, Bool.and_eq_true, bne_iff_ne, ne_eq, hempty, hepsilon, and_assoc,
    Bool.not_eq_true', List.any_eq_false, Bool.not_eq_true]

theorem isQuotableName_iff {a : Name} :
    isQuotableName a = true ↔ a ≠ "" ∧ '"' ∉ a.toList := by
  simp [isQuotableName]

/-- What can be written as a bare word can be quoted too. -/
theorem isQuotableName_of_isBareName {a : Name} (h : isBareName a = true) :
    isQuotableName a = true := by
  obtain ⟨hne, _, _, hword⟩ := isBareName_iff.mp h
  rw [isQuotableName_iff]
  constructor
  · rintro rfl
    exact hne rfl
  · intro hquote
    exact absurd (hword _ hquote) (by decide)

end ContextFree
