import ClassWeave.Frame

/-!
# Changes between frames

A frame can be given by how it differs from the one before it. `FrameChange.between` chooses the smallest form for
that, and `FrameChange.frameAfter?` gives the frame back.
-/

namespace ClassWeave

/-- How a frame comes out of the one before it. Every form but `full` keeps locals from the front, and every form
but `sameStack` and `full` has an empty stack. -/
inductive FrameChange (κ υ : Type) where
  | same
  | sameStack (type : VerificationType κ υ)
  | chop (count : UInt8)
  | append (types : List (VerificationType κ υ))
  | full (record : FrameRecord κ υ)
deriving DecidableEq, Repr

namespace FrameChange

variable {κ υ κ' υ' : Type}

/-- The most locals that `chop` takes away and `append` adds. -/
def maxLocals : Nat := 3

/-- The smallest form for the frame `next` after the frame `previous`. -/
def between [DecidableEq κ] [DecidableEq υ] (previous next : FrameRecord κ υ) : FrameChange κ υ :=
  match next.stack with
  | [] =>
    if next.locals.isPrefixOf previous.locals then
      let chopped := previous.locals.length - next.locals.length
      if chopped = 0 then
        .same
      else if chopped ≤ maxLocals then
        .chop chopped.toUInt8
      else
        .full next
    else if previous.locals.isPrefixOf next.locals then
      if next.locals.length - previous.locals.length ≤ maxLocals then
        .append (next.locals.drop previous.locals.length)
      else
        .full next
    else
      .full next
  | [type] => if next.locals = previous.locals then .sameStack type else .full next
  | _ => .full next

/-- The frame after one with the locals `previous`, unless more of them are to go than there are. -/
def frameAfter? (previous : List (VerificationType κ υ)) : FrameChange κ υ → Option (FrameRecord κ υ)
  | .same => some ⟨previous, []⟩
  | .sameStack type => some ⟨previous, [type]⟩
  | .chop count =>
    if count.toNat ≤ previous.length then
      some ⟨previous.take (previous.length - count.toNat), []⟩
    else
      none
  | .append types => some ⟨previous ++ types, []⟩
  | .full record => some record

/-- Converts the classes and creation sites of a change in order. -/
def convert {m : Type → Type} [Monad m] (onClass : κ → m κ') (onSite : υ → m υ') :
    FrameChange κ υ → m (FrameChange κ' υ')
  | .same => return .same
  | .sameStack type => return .sameStack (← type.convert onClass onSite)
  | .chop count => return .chop count
  | .append types => return .append (← types.mapM (·.convert onClass onSite))
  | .full record => return .full (← record.convert onClass onSite)

end FrameChange

end ClassWeave
