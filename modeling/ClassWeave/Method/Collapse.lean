import ClassWeave.Analysis

/-!
# Code without unreachable instructions

The type-checking verifier asks for a frame at every instruction, also where none can be computed because nothing
leads there. Each run of such instructions becomes one `athrow`, which can be given a frame. Everything that refers
to positions follows: branches, creation sites in frames, and handlers, whose ranges keep only reachable code.
-/

namespace ClassWeave

/-- Code that is ready for layout. Each of its instructions has a frame, unless frames are not needed. `positions`
leads from each position before to the position now; the length of the code stands for its end. -/
structure MethodBody where
  ops : List (CodeOp Nat)
  frames : List AnalysisFrame
  handlers : List (Handler Nat BinaryName)
  positions : Array Nat
deriving DecidableEq, Repr

namespace MethodBody

/-- The position now of a position before. -/
def position (positions : Array Nat) (index : Nat) : Nat :=
  positions[index]?.getD 0

/-- Code as it is, for methods that need no frames. -/
def unchanged (ops : List (CodeOp Nat)) (handlers : List (Handler Nat BinaryName)) : MethodBody :=
  ⟨ops, [], handlers, Array.range (ops.length + 1)⟩

/-! ## Runs of unreachable code -/

/-- The instructions that stay: those that are reachable, and the first of every run of others. -/
def kept (previous : Bool) : List Bool → List Bool
  | [] => []
  | reachable :: rest => (reachable || previous) :: kept reachable rest

/-- The positions after those that do not stay are taken out; they get the position before. -/
def positionsFrom (count : Nat) : List Bool → List Nat
  | [] => [count]
  | true :: rest => count :: positionsFrom (count + 1) rest
  | false :: rest => (count - 1) :: positionsFrom count rest

/-- What stands for a run of unreachable instructions: something is thrown that is on the stack already. -/
def dead : CodeOp Nat × AnalysisFrame :=
  (.branch .athrow, ⟨[], [.object (.object .throwable)]⟩)

/-- The instructions that stay with their frames, `dead` in place of each run. -/
def keptOps (ops : List (CodeOp Nat)) (frames : List (Option AnalysisFrame)) (keep : List Bool) :
    List (CodeOp Nat × AnalysisFrame) :=
  ((ops.zip frames).zip keep).filterMap fun entry =>
    match entry with
    | ((op, some frame), true) => some (op, frame)
    | ((_, none), true) => some dead
    | _ => none

/-! ## Handlers -/

/-- The ranges of reachable instructions among the next `count` from `index` on; `opened` is the start of a range
that is not closed yet. -/
def reachableRanges (reachable : Nat → Bool) (opened : Option Nat) (index : Nat) : Nat → List (Nat × Nat)
  | 0 => opened.toList.map fun start => (start, index)
  | count + 1 =>
    if reachable index then
      reachableRanges reachable (some (opened.getD index)) (index + 1) count
    else
      opened.toList.map (fun start => (start, index)) ++ reachableRanges reachable none (index + 1) count

/-- A handler for each range of reachable instructions that the handler covers. -/
def splitHandler (reachable : Nat → Bool) (positions : Array Nat) (handler : Handler Nat BinaryName) :
    List (Handler Nat BinaryName) :=
  (reachableRanges reachable none handler.start (handler.stop - handler.start)).map fun range =>
    ⟨position positions range.1, position positions range.2, position positions handler.target, handler.catches⟩

/-! ## Collapsing -/

/-- The frame with creation sites at their positions now. -/
def relocate (positions : Array Nat) (frame : AnalysisFrame) : AnalysisFrame :=
  ⟨frame.locals.map (·.mapSite (position positions)), frame.stack.map (·.mapSite (position positions))⟩

/-- Code whose unreachable runs are collapsed. An instruction without a frame is unreachable. -/
def collapse (ops : List (CodeOp Nat)) (frames : Array (Option AnalysisFrame))
    (handlers : List (Handler Nat BinaryName)) : MethodBody :=
  let keep := kept true (frames.toList.map Option.isSome)
  let positions := (positionsFrom 0 keep).toArray
  let entries := keptOps ops frames.toList keep
  let reachable (index : Nat) : Bool := ((frames[index]?).join).isSome
  { ops := entries.map fun entry => entry.1.mapTargets (position positions)
    frames := entries.map fun entry => relocate positions entry.2
    handlers := handlers.flatMap (splitHandler reachable positions)
    positions }

end MethodBody

end ClassWeave
