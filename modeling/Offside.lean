import Offside.Main
import Offside.Proofs.LongestMatch
import Offside.Proofs.TokenGrammar
import Offside.Workspace
import Offside.Proofs.GreedyAgreement
import Offside.Proofs.LeafOrder
import Offside.Proofs.PrecedenceClimbing
import Offside.Proofs.LineLayout
import Offside.Proofs.Provenance
import Offside.Proofs.IndentUnits
import Offside.Proofs.IndentationScope
import Offside.Proofs.TokenStarts
import Offside.Proofs.Separation
import Offside.Proofs.LayoutDependence
import Offside.Proofs.BlockLayout
import Offside.Proofs.PrintRoundTrip
import Offside.Proofs.ReturnedValue
import Offside.Proofs.NestedDepth
import Offside.Proofs.OpenLevels
import Offside.Proofs.TreeShape
import Offside.Proofs.LineLexing
import Offside.Proofs.VisibleLines
import Offside.Proofs.IdleLines
import Offside.Proofs.TokenUse
import Offside.Proofs.DiagnosticPlace
import Offside.Proofs.Unbroken
import Offside.Proofs.SpacedWords
import Offside.Proofs.OutermostLines
import Offside.Proofs.InlineBlocks
import Offside.Proofs.AdjacentValues
import Offside.Proofs.FunctionBodies
import Offside.Proofs.FormPriority
import Offside.Proofs.SuffixChains
import Offside.Proofs.MatchingParens
import Offside.Proofs.WholeUnits
import Offside.Proofs.ClosureBodies
import Offside.Proofs.InsertionOrder
import Offside.Proofs.GreedyPieces
import Offside.Proofs.Caret
import Offside.Proofs.ParameterLists
import Offside.Proofs.UniqueKinds
import Offside.Proofs.SplitParts
import Offside.Proofs.SquareBrackets
