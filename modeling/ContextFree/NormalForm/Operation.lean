import ContextFree.NormalForm.Conversion

/-!
Runs of operations. Every stage may be asked for alone and in any order, names may be added, and
whole conversions may be asked for in between. An operation that fails leaves what it left.
-/

namespace ContextFree

/-- The grammar that a stage leaves. -/
def Stage.apply (g : Grammar) : Stage → Grammar
  | epsilon => g.withoutEpsilon
  | renamings => g.withoutRenamings
  | reachability => g.withoutUnreachable
  | productivity => g.withoutUnproductive
  | binary => g.binarize.grammar

inductive Operation where
  | stage (stage : Stage)
  | addFresh
  /-- A conversion leaves the same whether its snapshots are looked at or not. -/
  | convert
  deriving DecidableEq

def Operation.apply (g : Grammar) : Operation → Grammar
  | stage s => s.apply g
  | addFresh => g.addFresh.grammar
  | convert => g.convert.grammar

/-- Whether an operation goes through. Only those can fail that need new names. -/
def Operation.succeeds (g : Grammar) : Operation → Bool
  | stage .binary => g.binarize.result.isOk
  | stage _ => true
  | addFresh => g.addFresh.result.isOk
  | convert => g.convert.result.isOk

/-- Whether an operation takes empty alternatives out. The first stage does, and so does a
conversion, unless it finds the normal form. -/
def Operation.dropsEmpty (g : Grammar) : Operation → Bool
  | stage .epsilon => true
  | convert => !g.isNormal
  | _ => false

namespace Grammar

/-- The grammar after operations that are asked for one after the other. -/
def run (g : Grammar) (operations : List Operation) : Grammar :=
  operations.foldl Operation.apply g

/-- Whether every operation of a run goes through. -/
def runSucceeds (g : Grammar) : List Operation → Bool
  | [] => true
  | operation :: rest => operation.succeeds g && (operation.apply g).runSucceeds rest

/-- Whether some operation of a run takes empty alternatives out. -/
def runDropsEmpty (g : Grammar) : List Operation → Bool
  | [] => false
  | operation :: rest => operation.dropsEmpty g || (operation.apply g).runDropsEmpty rest

end Grammar

end ContextFree
