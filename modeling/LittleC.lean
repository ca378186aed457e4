import LittleC.Compilation
import LittleC.Lowering.Laws
import LittleC.Proofs.Calls.Agreement
import LittleC.Proofs.Checking.Arguments
import LittleC.Proofs.Checking.Blocks
import LittleC.Proofs.Checking.Globals
import LittleC.Proofs.Checking.History
import LittleC.Proofs.Checking.Places
import LittleC.Proofs.Checking.Scopes
import LittleC.Proofs.Checking.Session
import LittleC.Proofs.Checking.Undeclared
import LittleC.Proofs.Encoding.Unit
import LittleC.Proofs.Frame.Packed
import LittleC.Proofs.Frame.Repeated
import LittleC.Proofs.Frame.Storage
import LittleC.Proofs.Labels.Consistent
import LittleC.Proofs.Literal.Items
import LittleC.Proofs.Lowering.Function
import LittleC.Proofs.Lowering.Fused
import LittleC.Proofs.Lowering.Stack
import LittleC.Proofs.Registers.Demand
import LittleC.Proofs.Semantics.Element
import LittleC.Proofs.Typing.Constants
import LittleC.Proofs.Typing.Rules
import LittleC.Proofs.Ty.Display
import LittleC.Proofs.Notes.Comments
import LittleC.Proofs.Outline.Unique
import LittleC.Proofs.Widths.Access
