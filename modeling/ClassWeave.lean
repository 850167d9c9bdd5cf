import ClassWeave.Hierarchy.Java
import ClassWeave.Fault.Message
import ClassWeave.Patch.LiteralPattern
import ClassWeave.Proofs.Analysis.Covered
import ClassWeave.Proofs.Analysis.Fixpoint
import ClassWeave.Proofs.Analysis.Termination
import ClassWeave.Proofs.Attribute.StackMap
import ClassWeave.Proofs.ClassFile.Format
import ClassWeave.Proofs.Descriptor
import ClassWeave.Proofs.Event.Body
import ClassWeave.Proofs.Lists
import ClassWeave.Proofs.Method.Assembled
import ClassWeave.Proofs.Method.Bounds
import ClassWeave.Proofs.Method.Room
import ClassWeave.Proofs.Method.TypeChecked
import ClassWeave.Proofs.Analysis.Consistent
import ClassWeave.Proofs.Analysis.Least
import ClassWeave.Proofs.Attribute.Code
import ClassWeave.Proofs.ClassFile.Building
import ClassWeave.Proofs.ClassFile.ReadBack
import ClassWeave.Proofs.Instruction.Decoded
import ClassWeave.Proofs.Event.Program
import ClassWeave.Proofs.Layout.Respelled
import ClassWeave.Proofs.Bytes.Taking
import ClassWeave.Proofs.Pool.Taking
import ClassWeave.Proofs.ClassFile.Kept
import ClassWeave.Proofs.Event.Class
import ClassWeave.Proofs.Patch.LiteralPattern
import ClassWeave.Proofs.Patch.Repeated
import ClassWeave.Proofs.Pool.Repeatable
import ClassWeave.Proofs.Method.Repeatable
import ClassWeave.Proofs.ClassFile.Rewritten
import ClassWeave.Proofs.ClassFile.Parts
import ClassWeave.Proofs.ClassFile.Stable
import ClassWeave.Proofs.Pool.Requests
import ClassWeave.Proofs.Pool.Closed
import ClassWeave.Proofs.Patch.Carried
import ClassWeave.Proofs.Event.Frames
import ClassWeave.Proofs.Event.Announced
import ClassWeave.Proofs.ClassFile.WellLabelled
import ClassWeave.Proofs.Patch.WellLabelled
import ClassWeave.Proofs.Analysis.Inside
import ClassWeave.Proofs.Method.Preserved
import ClassWeave.Proofs.Event.FrameTable
import ClassWeave.Proofs.Layout.ReadBack
import ClassWeave.Proofs.Patch.Detours
import ClassWeave.Proofs.Instruction.ReadBack
import ClassWeave.Proofs.Analysis.Precise
import ClassWeave.Proofs.Method.Limits
import ClassWeave.Proofs.Frame.Words
import ClassWeave.Proofs.Frame.Lattice
import ClassWeave.Proofs.Analysis.Sites
import ClassWeave.Proofs.Method.Growth
import ClassWeave.Proofs.Method.Sites
import ClassWeave.Proofs.Instruction.Switches
import ClassWeave.Proofs.Analysis.Recorded
import ClassWeave.Proofs.Analysis.Lenient
import ClassWeave.Proofs.Attribute.RoundTrip
import ClassWeave.Proofs.Patch.Registry
import ClassWeave.Proofs.Instruction.InterfaceCall
import ClassWeave.Proofs.ClassFile.RoundTrip
import ClassWeave.Proofs.Patch.Neutralised
import ClassWeave.Proofs.Patch.Replayed
import ClassWeave.Proofs.Method.Trimmed
import ClassWeave.Proofs.Method.Unlabelled
import ClassWeave.Proofs.Patch.Sealed
import ClassWeave.Proofs.Patch.Fenced
import ClassWeave.Proofs.Patch.Again
import ClassWeave.Proofs.Frame.Renamed
import ClassWeave.Proofs.Analysis.Moved
import ClassWeave.Proofs.Analysis.Suggested
import ClassWeave.Proofs.ClassFile.Steady
