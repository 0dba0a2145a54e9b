import Offside.SyntaxTree
import Offside.Tree

namespace Offside

/-- What the parts of a span are read with. -/
structure Readers where
  value : List Tree → Outcome Value
  block : List Tree → Outcome Block

/-- Reads a value, and blames `position` if the span holds no token to blame. -/
def Readers.valueAt (r : Readers) (span : List Tree) (position : Position) : Outcome Value :=
  (r.value span).orAt position

end Offside
