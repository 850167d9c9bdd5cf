/-!
# Exception handlers

A handler covers a range of a method's code and says where to go on when something is thrown in it. Positions and
the class that is caught are parameters: positions are labels in events, instruction numbers during analysis, and
offsets in a class file.
-/

namespace ClassWeave

/-- A handler for the code from `start` up to, but not including, `stop`. Without a class it catches everything. -/
structure Handler (τ κ : Type) where
  start : τ
  stop : τ
  target : τ
  catches : Option κ
deriving DecidableEq, Repr

namespace Handler

variable {τ τ' κ : Type}

/-- Whether the handler covers an instruction. -/
def covers (handler : Handler Nat κ) (index : Nat) : Bool :=
  handler.start ≤ index && index < handler.stop

/-- Converts the positions of a handler in order. -/
def convertPositions {m : Type → Type} [Monad m] (f : τ → m τ') (handler : Handler τ κ) : m (Handler τ' κ) := do
  let start ← f handler.start
  let stop ← f handler.stop
  let target ← f handler.target
  return ⟨start, stop, target, handler.catches⟩

end Handler

end ClassWeave
