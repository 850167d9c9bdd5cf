import ClassWeave.ClassBuilder
import ClassWeave.Hierarchy.Java
import ClassWeave.Patch

/-!
# The literal pattern patch

The log4j2 class `LiteralPatternConverter` looks expressions up in literal text when its flag `substitute` is
set. The patch makes every branch around such a lookup, `if (!substitute)`, unconditional: a jump to the same
place is put behind it, so the text is always appended as it is.
-/

namespace ClassWeave

namespace LiteralPattern

/-! ## What to look for -/

/-- The class that is patched. -/
def targetClass : BinaryName :=
  ⟨"org/apache/logging/log4j/core/pattern/LiteralPatternConverter", by decide⟩

/-- The method that is patched. -/
def targetMethod : UnqualifiedName :=
  ⟨"format", by decide⟩

/-- The flag that allows lookups. -/
def substituteFlag : FieldRef :=
  ⟨targetClass, ⟨"substitute", by decide⟩, .base .boolean⟩

/-- Whether a class is patched. The name may have dots or slashes, and may be part of a longer path. -/
def isTarget (className : String) : Bool :=
  targetClass.text.toList.isSuffixOf className.toList || targetClass.dotted.toList.isSuffixOf className.toList

/-! ## Events of a method -/

/-- Whether the flag is on top of the stack after an event, given whether it was before. Placing a label, or a
frame at a label, leaves it there. -/
def pendingAfter (pending : Bool) : MethodEvent → Bool
  | .label _ | .frame _ | .finish => pending
  | .op (.plain (.field .get ref)) => ref = substituteFlag
  | _ => false

/-- The jump behind a branch that tests the flag. -/
def detour (pending : Bool) : MethodEvent → List MethodEvent
  | .op (.branch (.conditional (.zero .eq) target)) =>
    if pending then [.op (.branch (.goto target))] else []
  | _ => []

/-- Each event with whether the flag is on top of the stack before it. -/
def withPending (pending : Bool) : List MethodEvent → List (Bool × MethodEvent)
  | [] => []
  | event :: rest => (pending, event) :: withPending (pendingAfter pending event) rest

/-- The events with the jumps put in. -/
def divert (events : List MethodEvent) : List MethodEvent :=
  (withPending false events).flatMap fun entry => entry.2 :: detour entry.1 entry.2

/-- How many jumps have been put in after each event, counting on from `count`. -/
def detoursFrom (count : Nat) : List (Bool × MethodEvent) → List Nat
  | [] => []
  | (pending, event) :: rest =>
    let count := count + (detour pending event).length
    count :: detoursFrom count rest

/-- How many jumps have been put in after each event. -/
def detours (events : List MethodEvent) : List Nat :=
  detoursFrom 0 (withPending false events)

/-! ## Events of a class -/

/-- Puts the jumps into the body of the method that is patched, and leaves everything else alone. -/
def divertEvent : ClassEvent → ClassEvent
  | .method header body => .method header (if header.name = targetMethod then divert body else body)
  | event => event

/-- The class with the jumps put in. -/
def apply (bytes : Bytes) : Except Fault Bytes := do
  let file ← (ClassFile.decode bytes).mapError .malformed
  file.rebuildOn file.pool Hierarchy.javaLibrary (·.map divertEvent)

/-- The patch. -/
def patch : Patch where
  name := "Log4j2_DisableLiteralPatternConverter"
  targets := isTarget
  apply := apply

end LiteralPattern

/-- The registry of all patches that come with this library. -/
def Registry.standard : Registry :=
  Registry.empty.register LiteralPattern.patch

end ClassWeave
