import ScriptBlocks.Archive.Reader
import ScriptBlocks.CommandLine.Tree
import ScriptBlocks.Main
import ScriptBlocks.Proofs.Agreement
import ScriptBlocks.Proofs.Ambiguity
import ScriptBlocks.Proofs.Arrangement
import ScriptBlocks.Proofs.Assembly
import ScriptBlocks.Proofs.Assertions
import ScriptBlocks.Proofs.Between
import ScriptBlocks.Proofs.Bodies
import ScriptBlocks.Proofs.Calls
import ScriptBlocks.Proofs.Comparisons
import ScriptBlocks.Proofs.Contents
import ScriptBlocks.Proofs.Definitions
import ScriptBlocks.Proofs.Diagnostics
import ScriptBlocks.Proofs.Duplicates
import ScriptBlocks.Proofs.Errors
import ScriptBlocks.Proofs.Evaluations
import ScriptBlocks.Proofs.Expressions
import ScriptBlocks.Proofs.Growth
import ScriptBlocks.Proofs.Handing
import ScriptBlocks.Proofs.Hoisting
import ScriptBlocks.Proofs.Holding
import ScriptBlocks.Proofs.Inscriptions
import ScriptBlocks.Proofs.Insertions
import ScriptBlocks.Proofs.Laws
import ScriptBlocks.Proofs.Layout
import ScriptBlocks.Proofs.Lossless
import ScriptBlocks.Proofs.Names
import ScriptBlocks.Proofs.Naming
import ScriptBlocks.Proofs.NumberTokens
import ScriptBlocks.Proofs.Numerals
import ScriptBlocks.Proofs.Openings
import ScriptBlocks.Proofs.Operands
import ScriptBlocks.Proofs.Packaging
import ScriptBlocks.Proofs.Placing
import ScriptBlocks.Proofs.Prefixes
import ScriptBlocks.Proofs.Presentation
import ScriptBlocks.Proofs.Progress
import ScriptBlocks.Proofs.References
import ScriptBlocks.Proofs.Results
import ScriptBlocks.Proofs.Scoping
import ScriptBlocks.Proofs.Scripts
import ScriptBlocks.Proofs.Signs
import ScriptBlocks.Proofs.Stage
import ScriptBlocks.Proofs.Statements
import ScriptBlocks.Proofs.Stops
import ScriptBlocks.Proofs.Tiling
import ScriptBlocks.Proofs.Tops
import ScriptBlocks.Proofs.Variables
import ScriptBlocks.Proofs.Visits
import ScriptBlocks.Proofs.Wording
import ScriptBlocks.Proofs.Writing
