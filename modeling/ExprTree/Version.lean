/-!
# Version
-/

namespace ExprTree

def version : String :=
  "0.1.0"

end ExprTree
