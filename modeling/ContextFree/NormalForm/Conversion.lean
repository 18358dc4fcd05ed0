import ContextFree.NormalForm.Binary
import ContextFree.NormalForm.Nullable
import ContextFree.NormalForm.Productive
import ContextFree.NormalForm.Reachable
import ContextFree.NormalForm.Renaming

/-!
Conversion to Chomsky normal form: the shape, the stages in the order in which they run, and the
report on what they found.
-/

namespace ContextFree

/-- A lone terminal or a pair of nonterminals. -/
def Alternative.isNormal : Alternative → Bool
  | [.terminal _] => true
  | [.nonterminal _, .nonterminal _] => true
  | _ => false

/-- Whether the grammar is in Chomsky normal form. -/
def Grammar.isNormal (g : Grammar) : Bool := g.rules.all (·.alternatives.all Alternative.isNormal)

inductive Stage where
  | epsilon | renamings | reachability | productivity | binary
  deriving DecidableEq

namespace Stage

/-- The stages in their order. -/
def all : List Stage := [epsilon, renamings, reachability, productivity, binary]

/-- The heading over the grammar that the stage leaves. -/
def heading : Stage → String
  | epsilon => "1. After eliminating epsilon productions"
  | renamings => "2. After eliminating renaming productions"
  | reachability => "3. After eliminating inaccessible symbols"
  | productivity => "4. After eliminating non-productive symbols"
  | binary => "5. After converting to CNF"

end Stage

/-- What a conversion found and changed. -/
structure Report where
  /-- The grammar had the normal form and was not touched. -/
  alreadyNormal : Bool
  nullable : List Name
  /-- The start symbol derived the empty sentence, which the normal form cannot. -/
  startNullable : Bool
  unreachable : List Name
  unproductive : List Name
  helpers : List Name
  deriving DecidableEq

/-- A conversion: its report unless names ran out, the grammar after each stage that was finished,
and the grammar that is left. -/
structure Conversion where
  result : Except GrammarError Report
  snapshots : List (Stage × Grammar)
  grammar : Grammar

/-- Converts to Chomsky normal form. A grammar that has it already is not touched. -/
def Grammar.convert (g : Grammar) : Conversion :=
  if g.isNormal then
    ⟨.ok ⟨true, [], false, [], [], []⟩, [], g⟩
  else
    let nullable := g.nullable
    let noEpsilon := g.withoutEpsilon
    let noRenaming := noEpsilon.withoutRenamings
    let reached := noRenaming.withoutUnreachable
    let pruned := reached.withoutUnproductive
    let snapshots := [(Stage.epsilon, noEpsilon), (.renamings, noRenaming),
      (.reachability, reached), (.productivity, pruned)]
    let binary := pruned.binarize
    match binary.result with
    | .error fault => ⟨.error fault, snapshots, binary.grammar⟩
    | .ok helpers =>
      { result := .ok {
          alreadyNormal := false
          nullable
          startNullable := nullable.contains g.start
          unreachable := noRenaming.unreachable
          unproductive := reached.unproductive
          helpers }
        snapshots := snapshots ++ [(.binary, binary.grammar)]
        grammar := binary.grammar }

namespace Grammar

/-- The grammar that the first four stages of a conversion leave. -/
def pruned (g : Grammar) : Grammar :=
  g.withoutEpsilon.withoutRenamings.withoutUnreachable.withoutUnproductive

theorem convert_of_isNormal {g : Grammar} (h : g.isNormal = true) :
    g.convert = ⟨.ok ⟨true, [], false, [], [], []⟩, [], g⟩ := by
  rw [convert, if_pos h]

theorem convert_grammar {g : Grammar} (h : g.isNormal = false) :
    g.convert.grammar = g.pruned.binarize.grammar := by
  rw [convert, if_neg (by simp [h]), pruned]
  dsimp only
  split <;> rfl

/-- What a conversion reports that has something to do. -/
theorem convert_result {g : Grammar} (h : g.isNormal = false) :
    g.convert.result = g.pruned.binarize.result.map fun helpers =>
      { alreadyNormal := false
        nullable := g.nullable
        startNullable := g.nullable.contains g.start
        unreachable := g.withoutEpsilon.withoutRenamings.unreachable
        unproductive := g.withoutEpsilon.withoutRenamings.withoutUnreachable.unproductive
        helpers } := by
  rw [convert, if_neg (by simp [h]), pruned]
  dsimp only
  split
  next fault heq => rw [heq]; rfl
  next helpers heq => rw [heq]; rfl

/-- What is shown of a conversion that has something to do. -/
theorem convert_snapshots {g : Grammar} (h : g.isNormal = false) :
    g.convert.snapshots =
      [(.epsilon, g.withoutEpsilon), (.renamings, g.withoutEpsilon.withoutRenamings),
        (.reachability, g.withoutEpsilon.withoutRenamings.withoutUnreachable),
        (.productivity, g.pruned)] ++
      if g.convert.result.isOk then [(.binary, g.convert.grammar)] else [] := by
  cases hbinary : g.pruned.binarize.result with
  | error fault =>
    unfold pruned at hbinary
    simp [convert, h, hbinary, pruned, Except.isOk, Except.toBool]
  | ok helpers =>
    unfold pruned at hbinary
    simp [convert, h, hbinary, pruned, Except.isOk, Except.toBool]

end Grammar

end ContextFree
