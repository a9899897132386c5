import FrontEnd.Command
import FrontEnd.Main
import FrontEnd.Proofs.Acceptance.Rearrangement
import FrontEnd.Proofs.Binding.Aliases
import FrontEnd.Proofs.Binding.Externals
import FrontEnd.Proofs.Binding.Visibility
import FrontEnd.Proofs.ControlFlow.BranchValues
import FrontEnd.Proofs.ControlFlow.Flattened
import FrontEnd.Proofs.ControlFlow.Returning
import FrontEnd.Proofs.Diagnostic.Caret
import FrontEnd.Proofs.Files.ModuleFiles
import FrontEnd.Proofs.Grammar.CompoundAssignment
import FrontEnd.Proofs.Grammar.Rebreaking
import FrontEnd.Proofs.Initialization.Modules
import FrontEnd.Proofs.Names.OpenDeclarations
import FrontEnd.Proofs.Names.Tables
import FrontEnd.Proofs.Printing.Modules
import FrontEnd.Proofs.Runs.Bounds
import FrontEnd.Proofs.Runs.Positions
import FrontEnd.Proofs.Runs.Unrelated
import FrontEnd.Proofs.Scoping.Normalization
import FrontEnd.Proofs.ShortCircuit.FixedPoint
import FrontEnd.Proofs.Text.Lines
import FrontEnd.Proofs.Token.Respacing
import FrontEnd.Proofs.Token.Literals
import FrontEnd.Proofs.Token.LongestMatch
