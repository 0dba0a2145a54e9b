import Offside.Indentation
import Offside.Lexing
import Offside.LineTree
import Offside.Reading

namespace Offside

/-- The tree of a source, nested as its lines are indented. -/
def treeOf (strategy : Strategy) (source : Source) : Outcome (List Tree) := do
  let tokens ← tokensOf strategy source
  let indented ← indent tokens
  return nest (lines indented)

/-- Reads a tree as a program, which is a closure without a keyword. -/
def programOf (source : Source) (tree : List Tree) : Outcome Block := do
  let symbols ← readSymbols readers tree
  return .closure ⟨[], source.start⟩ "main" symbols

def readProgram (strategy : Strategy) (source : Source) : Outcome Block := do
  let tree ← treeOf strategy source
  programOf source tree

end Offside
