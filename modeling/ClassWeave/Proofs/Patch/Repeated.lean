import ClassWeave.Proofs.Analysis.Invariants
import ClassWeave.Proofs.Method.Checked
import ClassWeave.Proofs.Method.Program
import ClassWeave.Proofs.Patch.LiteralPattern

/-!
# Instructions that stand twice

Where some instructions of a list stand twice, everything moves behind those before it (`moveBehind`). If they
are jumps, then the second of two is never reached, and control flow gets to the same instructions as before, at
the positions where they are then (`CodeOp.Repeats.reachable_iff`).
-/

namespace ClassWeave

open Analysis (Reachable)

/-! ## Positions behind repeated instructions -/

/-- Where a position is if every instruction with a mark stands twice. -/
def moveBehind (marks : List Bool) (position : Nat) : Nat :=
  position + (marks.take position).count true

namespace moveBehind

variable {marks : List Bool}

theorem succ (marks : List Bool) (i : Nat) :
    moveBehind marks (i + 1) = moveBehind marks i + 1 + (marks[i]?.toList).count true := by
  unfold moveBehind
  rw [List.take_add_one, List.count_append]
  omega

theorem succ_of_unmarked {i : Nat} (h : marks[i]? ≠ some true) :
    moveBehind marks (i + 1) = moveBehind marks i + 1 := by
  rw [succ]
  cases hmark : marks[i]? with
  | none => simp
  | some mark =>
    cases mark with
    | false => simp
    | true => exact absurd hmark h

theorem succ_of_marked {i : Nat} (h : marks[i]? = some true) :
    moveBehind marks (i + 1) = moveBehind marks i + 2 := by
  rw [succ, h]
  simp

theorem strictMono (marks : List Bool) : StrictMono (moveBehind marks) := by
  refine strictMono_nat_of_lt_succ fun i => ?_
  rw [succ]
  omega

theorem zero (marks : List Bool) : moveBehind marks 0 = 0 := by
  simp [moveBehind]

theorem cons_succ (mark : Bool) (marks : List Bool) (i : Nat) :
    moveBehind (mark :: marks) (i + 1) = moveBehind marks i + 1 + if mark then 1 else 0 := by
  unfold moveBehind
  rw [List.take_succ_cons, List.count_cons]
  cases mark <;> simp <;> omega

/-- A position is where an instruction went, or right behind a mark. -/
theorem cases (marks : List Bool) {p n : Nat} (hp : p < moveBehind marks n) :
    (∃ i < n, p = moveBehind marks i) ∨ ∃ i < n, marks[i]? = some true ∧ p = moveBehind marks i + 1 := by
  induction n with
  | zero =>
    rw [zero] at hp
    exact absurd hp (Nat.not_lt_zero _)
  | succ n ih =>
    rcases Nat.lt_or_ge p (moveBehind marks n) with hlt | hge
    · rcases ih hlt with ⟨i, hi, rfl⟩ | ⟨i, hi, hmark, rfl⟩
      · exact .inl ⟨i, Nat.lt_succ_of_lt hi, rfl⟩
      · exact .inr ⟨i, Nat.lt_succ_of_lt hi, hmark, rfl⟩
    · rcases Nat.eq_or_lt_of_le hge with heq | hgt
      · exact .inl ⟨n, Nat.lt_succ_self n, heq.symm⟩
      · have hmark : marks[n]? = some true := by
          by_contra hne
          rw [succ_of_unmarked hne] at hp
          omega
        rw [succ_of_marked hmark] at hp
        exact .inr ⟨n, Nat.lt_succ_self n, hmark, by omega⟩

end moveBehind

/-! ## Control flow -/

/-- The later code has the instructions of the earlier one, those with a mark twice, with targets at the
positions where they are then. Only jumps have marks. -/
structure CodeOp.Repeats (marks : List Bool) (ops ops' : List (CodeOp Nat)) : Prop where
  length : ops'.length = moveBehind marks ops.length
  moved : ∀ {i : Nat} {op : CodeOp Nat}, ops[i]? = some op →
    ops'[moveBehind marks i]? = some (op.mapTargets (moveBehind marks))
  jumps : ∀ {i : Nat}, marks[i]? = some true → ∃ target, ops[i]? = some (.branch (.goto target))

/-- What a label stands for in the one body it stands for in the other, moved. -/
def MethodCode.Moves (f : Nat → Nat) (code code' : MethodCode) : Prop :=
  ∀ label position, code.position label = .ok position → code'.position label = .ok (f position)

namespace MethodCode.Moves

variable {f : Nat → Nat} {code code' : MethodCode}

theorem convertRetargeted (h : Moves f code code') {op : CodeOp Label} {found : CodeOp Nat}
    (hop : op.Retargeted (fun label position => code.position label = .ok position) found) :
    op.convertTargets code'.position = .ok (found.mapTargets f) := by
  refine CodeOp.Retargeted.convertTargets ((hop.comp (CodeOp.retargeted_mapTargets f found)).imp ?_)
  rintro label _ ⟨position, hposition, rfl⟩
  exact h _ _ hposition

theorem convertTargets (h : Moves f code code') {op : CodeOp Label} {found : CodeOp Nat}
    (hop : op.convertTargets code.position = .ok found) : op.convertTargets code'.position = .ok
    (found.mapTargets f) :=
  h.convertRetargeted (CodeOp.retargeted_convertTargets hop)

theorem convertPositions (h : Moves f code code') {handler : Handler Label BinaryName}
    {found : Handler Nat BinaryName} (hhandler : handler.convertPositions code.position = .ok found) :
    handler.convertPositions code'.position = .ok (found.move f) := by
  obtain ⟨start, hstart, hrest⟩ := Outcome.except_bind.mp hhandler
  obtain ⟨stop, hstop, hrest⟩ := Outcome.except_bind.mp hrest
  obtain ⟨target, htarget, hrest⟩ := Outcome.except_bind.mp hrest
  cases hrest
  refine Outcome.except_bind.mpr ⟨_, h _ _ hstart, Outcome.except_bind.mpr ⟨_, h _ _ hstop, ?_⟩⟩
  exact Outcome.except_bind.mpr ⟨_, h _ _ htarget, rfl⟩

end MethodCode.Moves

/-- A handler that is moved covers what is moved. -/
theorem Handler.covers_move (marks : List Bool) (handler : Handler Nat BinaryName) (i : Nat) :
    (handler.move (moveBehind marks)).covers (moveBehind marks i) = handler.covers i := by
  simp [Handler.covers, Handler.move, (moveBehind.strictMono marks).le_iff_le,
    (moveBehind.strictMono marks).lt_iff_lt]

namespace CodeOp.Repeats

variable {marks : List Bool} {ops ops' : List (CodeOp Nat)} {handlers : List (Handler Nat BinaryName)}

theorem exists_op (h : Repeats marks ops ops') {i : Nat} {op' : CodeOp Nat}
    (hop : ops'[moveBehind marks i]? = some op') : ∃ op, ops[i]? = some op ∧ op' = op.mapTargets
    (moveBehind marks) := by
  have hlt : i < ops.length := by
    have hlt := (List.getElem?_eq_some_iff.mp hop).1
    rw [h.length] at hlt
    exact (moveBehind.strictMono marks).lt_iff_lt.mp hlt
  obtain ⟨op, hget⟩ : ∃ op, ops[i]? = some op := ⟨_, List.getElem?_eq_getElem hlt⟩
  refine ⟨op, hget, ?_⟩
  rw [h.moved hget] at hop
  exact (Option.some.inj hop).symm

/-- An instruction that the next one follows stands only once. -/
theorem succ (h : Repeats marks ops ops') {i : Nat} {op : CodeOp Nat} (hop : ops[i]? = some op)
    (hfalls : op.fallsThrough = true) : moveBehind marks (i + 1) = moveBehind marks i + 1 := by
  refine moveBehind.succ_of_unmarked fun hmark => ?_
  obtain ⟨target, hjump⟩ := h.jumps hmark
  rw [hop] at hjump
  cases hjump
  cases hfalls

/-- Control flow gets to the same instructions, where they are then. -/
theorem reachable_iff (h : Repeats marks ops ops') {place : Nat} :
    Reachable ops' (handlers.map (Handler.move (moveBehind marks))) place ↔
      ∃ i, place = moveBehind marks i ∧ Reachable ops handlers i := by
  constructor
  · intro hreach
    induction hreach with
    | start => exact ⟨0, (moveBehind.zero marks).symm, .start⟩
    | next _ hop hfalls ih =>
      obtain ⟨i, rfl, hi⟩ := ih
      obtain ⟨op, hget, rfl⟩ := h.exists_op hop
      rw [CodeOp.fallsThrough_mapTargets] at hfalls
      exact ⟨i + 1, (h.succ hget hfalls).symm, hi.next hget hfalls⟩
    | target _ hop htarget ih =>
      obtain ⟨i, rfl, hi⟩ := ih
      obtain ⟨op, hget, rfl⟩ := h.exists_op hop
      rw [CodeOp.targets_mapTargets] at htarget
      obtain ⟨t, ht, rfl⟩ := List.mem_map.mp htarget
      exact ⟨t, rfl, hi.target hget ht⟩
    | thrown _ hlt hmem hcovers ih =>
      obtain ⟨i, rfl, hi⟩ := ih
      obtain ⟨handler, hhandler, rfl⟩ := List.mem_map.mp hmem
      rw [Handler.covers_move] at hcovers
      rw [h.length, (moveBehind.strictMono marks).lt_iff_lt] at hlt
      exact ⟨handler.target, rfl, hi.thrown hlt hhandler hcovers⟩
  -- conversely, along the path: a repeated instruction goes where it went
  · rintro ⟨i, rfl, hreach⟩
    induction hreach with
    | start =>
      rw [moveBehind.zero]
      exact .start
    | next _ hop hfalls ih =>
      rw [h.succ hop hfalls]
      exact ih.next (h.moved hop) (by rwa [CodeOp.fallsThrough_mapTargets])
    | target _ hop htarget ih =>
      refine ih.target (h.moved hop) ?_
      rw [CodeOp.targets_mapTargets]
      exact List.mem_map_of_mem htarget
    | thrown _ hlt hmem hcovers ih =>
      refine ih.thrown ?_ (List.mem_map_of_mem hmem) (by rwa [Handler.covers_move])
      rwa [h.length, (moveBehind.strictMono marks).lt_iff_lt]

end CodeOp.Repeats

/-! ## Events with jumps behind tests -/

namespace LiteralPattern

/-- The events with the jumps put in, given whether the flag is on top of the stack before them. -/
def divertFrom (pending : Bool) (events : List MethodEvent) : List MethodEvent :=
  (withPending pending events).flatMap fun entry => entry.2 :: detour entry.1 entry.2

theorem divertFrom_cons (pending : Bool) (event : MethodEvent) (rest : List MethodEvent) :
    divertFrom pending (event :: rest) = event ::
    (detour pending event ++ divertFrom (pendingAfter pending event) rest) := by
  simp [divertFrom, withPending]

theorem detour_cases (pending : Bool) (event : MethodEvent) :
    detour pending event = [] ∨ ∃ target, event = test target ∧ detour pending event = [jump target] := by
  by_cases h : detour pending event = []
  · exact .inl h
  · obtain ⟨rfl, target, rfl⟩ := detour_ne_nil h
    exact .inr ⟨target, rfl, rfl⟩

/-- The later events are the earlier ones with jumps behind some of the tests. -/
inductive Diverted : List MethodEvent → List MethodEvent → Prop
  | nil : Diverted [] []
  | same (event : MethodEvent) {events events' : List MethodEvent} : Diverted events events' →
    Diverted (event :: events) (event :: events')
  | jump (target : Label) {events events' : List MethodEvent} : Diverted events events' →
    Diverted (test target :: events) (test target :: jump target :: events')

/-- All that patching does is put jumps behind tests. -/
theorem diverted_divertFrom (pending : Bool) (events : List MethodEvent) :
    Diverted events (divertFrom pending events) := by
  induction events generalizing pending with
  | nil => exact .nil
  | cons event rest ih =>
    rw [divertFrom_cons]
    rcases detour_cases pending event with hnone | ⟨target, rfl, hjump⟩
    · rw [hnone]
      exact .same event (ih _)
    · rw [hjump]
      exact .jump target (ih _)

/-- A jump goes where a test before it goes. -/
theorem Diverted.mem {events events' : List MethodEvent} (h : Diverted events events') {event : MethodEvent}
    (hevent : event ∈ events') : event ∈ events ∨ ∃ target, test target ∈ events ∧
    event = LiteralPattern.jump target := by
  induction h with
  | nil => simp at hevent
  | same first _ ih =>
    rcases List.mem_cons.mp hevent with rfl | hevent
    · simp
    · rcases ih hevent with hmem | ⟨target, htest, rfl⟩
      · exact .inl (List.mem_cons_of_mem _ hmem)
      · exact .inr ⟨target, List.mem_cons_of_mem _ htest, rfl⟩
  | jump target _ ih =>
    simp only [List.mem_cons] at hevent
    rcases hevent with rfl | rfl | hevent
    · simp
    · exact .inr ⟨target, List.mem_cons_self, rfl⟩
    · rcases ih hevent with hmem | ⟨other, htest, rfl⟩
      · exact .inl (List.mem_cons_of_mem _ hmem)
      · exact .inr ⟨other, List.mem_cons_of_mem _ htest, rfl⟩

end LiteralPattern

end ClassWeave
