import ClassWeave.Fault

/-!
# Patches

A patch changes classes that it recognises by their name. A registry keeps patches ordered by their own names, and
runs all that want a class, each on the output of the one before.
-/

namespace ClassWeave

/-- A change of certain classes: which ones, and the new bytes of a class. -/
structure Patch where
  name : String
  targets : String → Bool
  apply : Bytes → Except Fault Bytes

/-- Patches, ordered by name. -/
structure Registry where
  patches : List Patch

/-- How many entries satisfy `p`, found by halving. All of them are taken to stand in front of those that do
not. -/
def partitionPoint {α : Type} (p : α → Bool) (xs : List α) : Nat :=
  match h : xs.drop (xs.length / 2) with
  | [] => 0
  | x :: rest =>
    if p x then
      xs.length / 2 + 1 + partitionPoint p rest
    else
      partitionPoint p (xs.take (xs.length / 2))
termination_by xs.length
decreasing_by
  · have := congrArg List.length h
    rw [List.length_drop, List.length_cons] at this
    omega
  · have := congrArg List.length h
    rw [List.length_drop, List.length_cons] at this
    rw [List.length_take]
    omega

namespace Registry

/-- The registry without patches. -/
def empty : Registry :=
  ⟨[]⟩

/-- The names of the patches, in the order in which they run. -/
def names (registry : Registry) : List String :=
  registry.patches.map Patch.name

/-- Adds a patch, behind all whose name is not greater. -/
def register (registry : Registry) (patch : Patch) : Registry :=
  ⟨registry.patches.insertIdx (partitionPoint (·.name ≤ patch.name) registry.patches) patch⟩

/-- Runs all patches that want the class of this name, each on the output of the one before. Without one there
is no output. How a patch is run is left to `run`. -/
def transformWith {m : Type → Type} [Monad m] (run : Patch → Bytes → m Bytes) (registry : Registry)
    (className : String) (bytes : Bytes) : m (Option Bytes) :=
  registry.patches.foldlM
    (fun output patch =>
      if patch.targets className then some <$> run patch (output.getD bytes) else pure output)
    none

/-- The output of all patches that want the class of this name. The first failure is that of the whole. -/
def transform (registry : Registry) (className : String) (bytes : Bytes) : Except Fault (Option Bytes) :=
  transformWith Patch.apply registry className bytes

end Registry

end ClassWeave
