/-!
Paths of files as their components. Repeated separators, a separator at the end, and components
that stay where they are do not tell paths apart, except for a leading one.
-/

namespace ContextFree

namespace Path

def pieces (path : String) : List String :=
  ((path.toList.splitOn '/').map String.ofList).filter (· != "")

/-- The components of a path. A leading separator is a component, and so is a leading `.`. -/
def components (path : String) : List String :=
  let start :=
    if path.toList.head? = some '/' then ["/"]
    else if (pieces path).head? = some "." then ["."]
    else []
  start ++ (pieces path).filter (· != ".")

end Path

end ContextFree
