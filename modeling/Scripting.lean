import Scripting.Syntax.Walk
import Scripting.Syntax.Format
import Scripting.Ty.Bind
import Scripting.Code.Disassembly
import Scripting.Machine.Run
import Scripting.Program.Types
import Scripting.Program.Modules
import Scripting.Resolved.Hoist
import Scripting.Typed.Analyze
import Scripting.Engine.Bundle
import Scripting.Engine.Configured
import Scripting.Command.Perform
import Scripting.Editor.Server
import Scripting.Library.Package
import Scripting.Main
import Scripting.Proofs.Code.Flow
import Scripting.Proofs.Scope.Basic
import Scripting.Proofs.Scope.Declaring
import Scripting.Proofs.Scope.Hoisted
import Scripting.Proofs.Script.Compiled
import Scripting.Proofs.Typed.Batch
import Scripting.Proofs.Script.Balanced
import Scripting.Proofs.Script.Verified
import Scripting.Proofs.Batch.Resolving
import Scripting.Proofs.Engine.Batches
import Scripting.Proofs.Code.Decoding
import Scripting.Proofs.Machine.Effects
import Scripting.Proofs.Machine.Globals
import Scripting.Proofs.Bundle.Linked
import Scripting.Proofs.Engine.Callables
import Scripting.Proofs.Engine.Names
import Scripting.Proofs.Engine.Sessions
import Scripting.Proofs.Script.Variables
import Scripting.Proofs.Slots.Filled
import Scripting.Proofs.Slots.History
import Scripting.Proofs.Types.Table
import Scripting.Proofs.Slots.Loaded
import Scripting.Proofs.Cells.Sessions
import Scripting.Proofs.Types.Join
import Scripting.Proofs.Typed.Agreement
import Scripting.Proofs.Types.Binding
import Scripting.Proofs.Typed.Overloads
import Scripting.Proofs.Types.Substitution
import Scripting.Proofs.Types.Bases
import Scripting.Proofs.Syntax.Operators
import Scripting.Proofs.Syntax.Formulas
import Scripting.Proofs.Syntax.Lines
import Scripting.Proofs.Syntax.Parentheses
import Scripting.Proofs.Syntax.Programs
import Scripting.Proofs.Syntax.Annotations
import Scripting.Proofs.Machine.Coding
import Scripting.Proofs.Engine.Knots
import Scripting.Proofs.Values.Knots
import Scripting.Proofs.Code.Constants
import Scripting.Proofs.Bundle.Written
import Scripting.Proofs.Library.Packages
import Scripting.Proofs.Values.Comparing
import Scripting.Proofs.Syntax.Texts
import Scripting.Proofs.Loops.Sessions
