import ClassWeave.Proofs.Event.Announced
import ClassWeave.Proofs.Method.Rewritten
import ClassWeave.Proofs.Patch.Detours
import ClassWeave.Proofs.Patch.Repeated

/-!
# What the patch makes of a program

The patch works on events, with labels. Of a body that was read it makes the program with a jump behind each
test of the flag, where everything else has moved behind the jumps before it (`Program.diverted`).

An instruction is tagged with whether the flag is on top of the stack before it. The tags of the events and
those of the program are the same lists, so where the jumps go is said only once (`LiteralPattern.insertJumps`).
-/

namespace ClassWeave

open Outcome (except_bind except_mapM)

/-! ## Lists with something put in -/

namespace moveBehind

variable {α β : Type} (f : α → β) (g : α → Option β)

/-- What is behind the first entry moves behind what was put in there. -/
theorem getElem?_flatMap_cons (x : α) (xs : List α) (i j : Nat) :
    ((x :: xs).flatMap fun x => f x :: (g x).toList)[moveBehind ((x :: xs).map fun x => (g x).isSome)
    (i + 1) + j]? =
      (xs.flatMap fun x => f x :: (g x).toList)[moveBehind (xs.map fun x => (g x).isSome) i + j]? := by
  rw [List.map_cons, cons_succ, List.flatMap_cons]
  cases g x with
  | none => simp [Nat.add_right_comm]
  | some y =>
    have hindex : moveBehind (xs.map fun x => (g x).isSome) i + 1 + 1 + j =
        moveBehind (xs.map fun x => (g x).isSome) i + j + 1 + 1 := by omega
    simp [hindex]

/-- Entries move behind what was put in before them. -/
theorem getElem?_flatMap : ∀ (xs : List α) (i : Nat),
    (xs.flatMap fun x => f x :: (g x).toList)[moveBehind (xs.map fun x => (g x).isSome) i]? = xs[i]?.map f
  | [], i => by simp
  | x :: xs, 0 => by simp [zero]
  | x :: xs, i + 1 => by
    have hmoved := getElem?_flatMap_cons f g x xs i 0
    simp only [Nat.add_zero] at hmoved
    rw [hmoved, getElem?_flatMap xs i, List.getElem?_cons_succ]

/-- What is put in for an entry comes right behind the entry. -/
theorem getElem?_flatMap_succ : ∀ {xs : List α} {i : Nat} {x : α} {y : β}, xs[i]? = some x → g x = some y →
    (xs.flatMap fun x => f x :: (g x).toList)[moveBehind (xs.map fun x => (g x).isSome) i + 1]? = some y
  | [], _, _, _, hx, _ => by simp at hx
  | x :: xs, 0, _, y, hx, hy => by
    obtain rfl : x = _ := by simpa using hx
    simp [zero, hy]
  | x :: xs, i + 1, _, y, hx, hy => by
    rw [getElem?_flatMap_cons]
    exact getElem?_flatMap_succ (by simpa using hx) hy

theorem length_flatMap : ∀ xs : List α,
    (xs.flatMap fun x => f x :: (g x).toList).length = moveBehind (xs.map fun x => (g x).isSome) xs.length
  | [] => by simp [moveBehind]
  | x :: xs => by
    rw [List.length_cons, List.map_cons, cons_succ, ← length_flatMap xs]
    cases hx : g x <;> simp [hx]

end moveBehind

/-! ## Instructions with tags -/

namespace LiteralPattern

section Jumps

variable {κ κ' : Type}

/-- Whether an instruction loads the flag. -/
def loadsFlag? : CodeOp κ → Bool
  | .plain (.field .get ref) => ref = substituteFlag
  | _ => false

theorem loadsFlag?_eq_true {op : CodeOp κ} : loadsFlag? op = true ↔ op = .plain (.field .get substituteFlag) := by
  constructor
  · intro h
    unfold loadsFlag? at h
    split at h
    · rw [of_decide_eq_true h]
    · cases h
  · rintro rfl
    simp [loadsFlag?]

/-- The target of a branch on zero, where the flag is on top of the stack. -/
def testTarget (flag : Bool) : CodeOp κ → Option κ
  | .branch (.conditional (.zero .eq) target) => if flag then some target else none
  | _ => none

/-- Tells for each instruction whether a jump goes behind it. -/
def marksOf (flags : List Bool) (ops : List (CodeOp κ)) : List Bool :=
  (ops.zip flags).map fun entry => (testTarget entry.2 entry.1).isSome

/-- The instructions with the jumps behind the tests. -/
def insertJumps (flags : List Bool) (ops : List (CodeOp κ)) : List (CodeOp κ) :=
  (ops.zip flags).flatMap fun entry =>
    entry.1 :: ((testTarget entry.2 entry.1).map fun target => .branch (.goto target)).toList

@[simp] theorem marksOf_nil (flags : List Bool) : marksOf flags ([] : List (CodeOp κ)) = [] := rfl

@[simp] theorem marksOf_cons (flag : Bool) (flags : List Bool) (op : CodeOp κ) (ops : List (CodeOp κ)) :
    marksOf (flag :: flags) (op :: ops) = (testTarget flag op).isSome :: marksOf flags ops := rfl

@[simp] theorem insertJumps_nil (flags : List Bool) : insertJumps flags ([] : List (CodeOp κ)) = [] := rfl

@[simp] theorem insertJumps_cons (flag : Bool) (flags : List Bool) (op : CodeOp κ) (ops : List (CodeOp κ)) :
    insertJumps (flag :: flags) (op :: ops) =
      op :: (((testTarget flag op).map fun target => .branch (.goto target)).toList ++
      insertJumps flags ops) := by
  simp [insertJumps]

theorem testTarget_eq_some {flag : Bool} {op : CodeOp κ} {target : κ} :
    testTarget flag op = some target ↔ op = .branch (.conditional (.zero .eq) target) ∧ flag = true := by
  constructor
  · intro h
    unfold testTarget at h
    split at h
    · split_ifs at h with hflag
      cases h
      exact ⟨rfl, hflag⟩
    · cases h
  · rintro ⟨rfl, rfl⟩
    rfl

/-- Jumps go behind the tests before which the flag is on top of the stack. -/
theorem getElem?_marksOf {flags : List Bool} {ops : List (CodeOp κ)} {i : Nat} :
    (marksOf flags ops)[i]? = some true ↔ ∃ target,
    ops[i]? = some (.branch (.conditional (.zero .eq) target)) ∧ flags[i]? = some true := by
  unfold marksOf
  rw [List.getElem?_map, Option.map_eq_some_iff]
  constructor
  · rintro ⟨⟨op, flag⟩, hzip, hsome⟩
    obtain ⟨hop, hflag⟩ := List.getElem?_zip_eq_some.mp hzip
    obtain ⟨target, htarget⟩ := Option.isSome_iff_exists.mp hsome
    obtain ⟨rfl, rfl⟩ := testTarget_eq_some.mp htarget
    exact ⟨target, hop, hflag⟩
  · rintro ⟨target, hop, hflag⟩
    exact ⟨(_, true), List.getElem?_zip_eq_some.mpr ⟨hop, hflag⟩, rfl⟩

theorem marksOf_eq (flags : List Bool) (ops : List (CodeOp κ)) :
    marksOf flags ops = (ops.zip flags).map fun entry =>
    ((testTarget entry.2 entry.1).map fun target => CodeOp.branch (Branch.goto target)).isSome := by
  simp [marksOf]

/-- Instructions move behind the jumps before them. -/
theorem getElem?_insertJumps {ops : List (CodeOp κ)} {flags : List Bool} {i : Nat} {op : CodeOp κ}
    (hlen : flags.length = ops.length) (hop : ops[i]? = some op) :
    (insertJumps flags ops)[moveBehind (marksOf flags ops) i]? = some op := by
  obtain ⟨flag, hflag⟩ : ∃ flag, flags[i]? = some flag := by
    have hlt := (List.getElem?_eq_some_iff.mp hop).1
    exact ⟨_, List.getElem?_eq_getElem (hlen ▸ hlt)⟩
  have hzip : (ops.zip flags)[i]? = some (op, flag) := List.getElem?_zip_eq_some.mpr ⟨hop, hflag⟩
  rw [marksOf_eq, insertJumps, moveBehind.getElem?_flatMap, hzip]
  rfl

/-- The jump of a test comes right behind the test. -/
theorem getElem?_insertJumps_succ {ops : List (CodeOp κ)} {flags : List Bool} {i : Nat} {target : κ}
    (hop : ops[i]? = some (.branch (.conditional (.zero .eq) target))) (hflag : flags[i]? = some true) :
    (insertJumps flags ops)[moveBehind (marksOf flags ops) i + 1]? = some (.branch (.goto target)) := by
  have hzip : (ops.zip flags)[i]? = some (_, true) := List.getElem?_zip_eq_some.mpr ⟨hop, hflag⟩
  rw [marksOf_eq]
  exact moveBehind.getElem?_flatMap_succ _ _ hzip rfl

theorem length_insertJumps {ops : List (CodeOp κ)} {flags : List Bool} (hlen : flags.length = ops.length) :
    (insertJumps flags ops).length = moveBehind (marksOf flags ops) ops.length := by
  rw [marksOf_eq, insertJumps, moveBehind.length_flatMap, List.length_zip, hlen, Nat.min_self]

/-! ### Other targets -/

variable {R : κ → κ' → Prop}

theorem loadsFlag?_retargeted {op : CodeOp κ} {op' : CodeOp κ'} (h : op.Retargeted R op') :
    loadsFlag? op' = loadsFlag? op := by
  cases h with
  | @plain instruction =>
    cases instruction with
    | field kind ref => cases kind <;> rfl
    | _ => rfl
  | branch => rfl

theorem testTarget_retargeted (flag : Bool) {op : CodeOp κ} {op' : CodeOp κ'} (h : op.Retargeted R op') :
    Option.Rel R (testTarget flag op) (testTarget flag op') := by
  cases h with
  | plain => exact .none
  | branch hbranch =>
    cases hbranch with
    | @conditional condition _ _ htarget =>
      cases condition with
      | zero comparison => cases comparison <;> cases flag <;> first | exact .none | exact .some htarget
      | _ => exact .none
    | _ => exact .none

/-- Where the jumps go does not depend on the targets. -/
theorem marksOf_retargeted {ops : List (CodeOp κ)} {ops' : List (CodeOp κ')}
    (h : List.Forall₂ (CodeOp.Retargeted R) ops ops') (flags : List Bool) :
    marksOf flags ops' = marksOf flags ops := by
  induction h generalizing flags with
  | nil => simp
  | @cons op op' ops ops' hop _ ih =>
    cases flags with
    | nil => rfl
    | cons flag flags =>
      have hsome : (testTarget flag op').isSome = (testTarget flag op).isSome := by
        have hrel := testTarget_retargeted flag hop
        generalize testTarget flag op = target at hrel ⊢
        generalize testTarget flag op' = target' at hrel ⊢
        cases hrel <;> rfl
      rw [marksOf_cons, marksOf_cons, ih, hsome]

theorem insertJumps_retargeted {ops : List (CodeOp κ)} {ops' : List (CodeOp κ')}
    (h : List.Forall₂ (CodeOp.Retargeted R) ops ops') (flags : List Bool) :
    List.Forall₂ (CodeOp.Retargeted R) (insertJumps flags ops) (insertJumps flags ops') := by
  induction h generalizing flags with
  | nil => simp
  | @cons op op' ops ops' hop _ ih =>
    cases flags with
    | nil => exact .nil
    | cons flag flags =>
      rw [insertJumps_cons, insertJumps_cons]
      refine .cons hop (List.rel_append ?_ (ih flags))
      have hrel := testTarget_retargeted flag hop
      generalize testTarget flag op = target at hrel ⊢
      generalize testTarget flag op' = target' at hrel ⊢
      cases hrel with
      | none => exact .nil
      | some htarget => exact .cons (.branch (.jump htarget)) .nil

end Jumps

end LiteralPattern

/-! ## Programs -/

namespace Program

open LiteralPattern (loadsFlag? marksOf insertJumps)

/-- Whether the flag is on top of the stack before an instruction: the one right before it loads the flag, and
no line starts in between. -/
def flagBefore (program : Program) : Nat → Bool
  | 0 => false
  | k + 1 => (program.ops[k]?).any loadsFlag? && program.lines.all fun line => line.2 != k + 1

def flags (program : Program) : List Bool :=
  (List.range program.ops.length).map program.flagBefore

/-- Where a position is when the jumps are there. -/
def shift (program : Program) (position : Nat) : Nat :=
  moveBehind (marksOf program.flags program.ops) position

/-- The program with a jump behind each test of the flag. -/
def diverted (program : Program) : Program where
  ops := (insertJumps program.flags program.ops).map (·.mapTargets program.shift)
  handlers := program.handlers.map (Handler.move program.shift)
  lines := program.lines.map fun line => (line.1, program.shift line.2)
  locals := program.locals.map (PlacedVariable.move program.shift)

variable {program : Program}

theorem length_flags (program : Program) : program.flags.length = program.ops.length := by
  simp [flags]

theorem getElem?_flags {i : Nat} (hi : i < program.ops.length) :
    program.flags[i]? = some (program.flagBefore i) := by
  simp [flags, hi]

theorem shift_lt {i j : Nat} (h : i < j) : program.shift i < program.shift j :=
  moveBehind.strictMono _ h

theorem shift_mono {i j : Nat} (h : i ≤ j) : program.shift i ≤ program.shift j :=
  (moveBehind.strictMono _).monotone h

theorem shift_inj {i j : Nat} (h : program.shift i = program.shift j) : i = j :=
  (moveBehind.strictMono _).injective h

theorem length_diverted (program : Program) :
    program.diverted.ops.length = program.shift program.ops.length := by
  unfold diverted
  rw [List.length_map, LiteralPattern.length_insertJumps program.length_flags]
  rfl

/-- Instructions move behind the jumps before them. -/
theorem getElem?_diverted {i : Nat} {op : CodeOp Nat} (hop : program.ops[i]? = some op) :
    program.diverted.ops[program.shift i]? = some (op.mapTargets program.shift) := by
  have hmoved := LiteralPattern.getElem?_insertJumps program.length_flags hop
  unfold diverted
  rw [List.getElem?_map]
  exact congrArg (Option.map _) hmoved

/-- An instruction that is no branch on zero is followed by what followed it. -/
theorem shift_succ {i : Nat} {op : CodeOp Nat} (hop : program.ops[i]? = some op)
    (hother : ¬ ∃ target, op = .branch (.conditional (.zero .eq) target)) :
    program.shift (i + 1) = program.shift i + 1 := by
  refine moveBehind.succ_of_unmarked fun hmark => ?_
  obtain ⟨target, htest, -⟩ := LiteralPattern.getElem?_marksOf.mp hmark
  exact hother ⟨target, Option.some.inj (hop.symm.trans htest)⟩

/-- The program tests the flag: an instruction loads it and the next one branches if it is zero, where no line
starts. -/
structure Tests (program : Program) (i target : Nat) : Prop where
  load : program.ops[i]? = some (.plain (.field .get LiteralPattern.substituteFlag))
  test : program.ops[i + 1]? = some (.branch (.conditional (.zero .eq) target))
  line : ∀ line ∈ program.lines, line.2 ≠ i + 1

/-- Jumps go behind the tests. -/
theorem marked_iff {k : Nat} : (marksOf program.flags program.ops)[k]? = some true ↔
    ∃ i target, k = i + 1 ∧ program.Tests i target := by
  rw [LiteralPattern.getElem?_marksOf]
  constructor
  · rintro ⟨target, htest, hflag⟩
    rw [getElem?_flags (List.getElem?_eq_some_iff.mp htest).1] at hflag
    cases k with
    | zero => cases hflag
    | succ i =>
      rw [flagBefore, Option.some.injEq, Bool.and_eq_true, Option.any_eq_true] at hflag
      obtain ⟨⟨op, hop, hload⟩, hlines⟩ := hflag
      rw [LiteralPattern.loadsFlag?_eq_true.mp hload] at hop
      exact ⟨i, target, rfl, hop, htest, by simpa using hlines⟩
  · rintro ⟨i, target, rfl, h⟩
    refine ⟨target, h.test, ?_⟩
    have hload : loadsFlag? (.plain (.field .get LiteralPattern.substituteFlag) : CodeOp Nat) = true :=
      LiteralPattern.loadsFlag?_eq_true.mpr rfl
    rw [getElem?_flags (List.getElem?_eq_some_iff.mp h.test).1, flagBefore, h.load, Option.any_some, hload,
      Bool.true_and]
    simpa using h.line

theorem Tests.marked {i target : Nat} (h : program.Tests i target) :
    (marksOf program.flags program.ops)[i + 1]? = some true :=
  marked_iff.mpr ⟨i, target, rfl, h⟩

/-- Behind a test there is a jump to where the test goes. -/
theorem Tests.getElem?_diverted {i target : Nat} (h : program.Tests i target) :
    program.diverted.ops[program.shift (i + 1) + 1]? = some (.branch (.goto (program.shift target))) := by
  obtain ⟨-, -, hflag⟩ := LiteralPattern.getElem?_marksOf.mp h.marked
  have hjump := LiteralPattern.getElem?_insertJumps_succ h.test hflag
  unfold diverted
  rw [List.getElem?_map]
  exact congrArg (Option.map _) hjump

/-- Behind a test there are two positions for what was behind it. -/
theorem Tests.shift_succ {i target : Nat} (h : program.Tests i target) :
    program.shift (i + 2) = program.shift (i + 1) + 2 :=
  moveBehind.succ_of_marked h.marked

/-- What stands in the program with the jumps: an instruction that has moved, or the jump of a test. -/
theorem diverted_cases {p : Nat} {op : CodeOp Nat} (hop : program.diverted.ops[p]? = some op) :
    (∃ i old, program.ops[i]? = some old ∧ p = program.shift i ∧ op = old.mapTargets program.shift) ∨
      ∃ i target, program.Tests i target ∧ p = program.shift (i + 1) + 1 ∧
        op = .branch (.goto (program.shift target)) := by
  have hp := (List.getElem?_eq_some_iff.mp hop).1
  rw [length_diverted] at hp
  rcases moveBehind.cases _ hp with ⟨i, hi, rfl⟩ | ⟨k, -, hmark, rfl⟩
  · have hold := List.getElem?_eq_getElem hi
    exact .inl ⟨i, _, hold, rfl, Option.some.inj (hop.symm.trans (getElem?_diverted hold))⟩
  · obtain ⟨i, target, rfl, htest⟩ := marked_iff.mp hmark
    exact .inr ⟨i, target, htest, rfl, Option.some.inj (hop.symm.trans htest.getElem?_diverted)⟩

/-- The jumps go to instructions if the branches do. -/
theorem targets_diverted (h : ∀ op ∈ program.ops, ∀ t ∈ op.targets, t < program.ops.length) :
    ∀ op ∈ program.diverted.ops, ∀ t ∈ op.targets, t < program.diverted.ops.length := by
  intro op hop t ht
  obtain ⟨op', hop', rfl⟩ := List.mem_map.mp hop
  rw [CodeOp.targets_mapTargets] at ht
  obtain ⟨t', ht', rfl⟩ := List.mem_map.mp ht
  rw [length_diverted]
  refine shift_lt ?_
  obtain ⟨entry, hentry, hmem⟩ := List.mem_flatMap.mp hop'
  have hfirst := (List.of_mem_zip hentry).1
  rcases List.mem_cons.mp hmem with rfl | hjump
  · exact h _ hfirst t' ht'
  · obtain ⟨target, htarget, rfl⟩ := by simpa using hjump
    rw [(LiteralPattern.testTarget_eq_some.mp htarget).1] at hfirst
    exact h _ hfirst t' ht'

/-- Moved behind the jumps that are put in, a program is still well-formed. -/
theorem WellFormed.diverted (h : program.WellFormed) : program.diverted.WellFormed where
  targets := targets_diverted h.targets
  handlers := by
    change ∀ handler ∈ program.handlers.map _, _
    rw [List.forall_mem_map, length_diverted]
    intro handler hmem
    obtain ⟨hstart, hstop, htarget⟩ := h.handlers handler hmem
    exact ⟨shift_mono hstart, shift_mono hstop, shift_mono htarget⟩
  lines := by
    change ∀ line ∈ program.lines.map _, _
    rw [List.forall_mem_map, length_diverted]
    exact fun line hline => shift_lt (h.lines line hline)
  sorted := by
    change ((program.lines.map _).map _).Pairwise _
    rw [List.map_map]
    exact List.pairwise_map.mpr ((List.pairwise_map.mp h.sorted).imp fun hle => shift_mono hle)
  ranges := by
    change ∀ v ∈ program.locals.map _, _
    rw [List.forall_mem_map, length_diverted]
    exact fun v hv => ⟨shift_mono (h.ranges v hv).1, shift_mono (h.ranges v hv).2⟩
  signatures := by
    change ∀ v ∈ program.locals.map _, ∀ w ∈ program.locals.map _, _
    rw [List.forall_mem_map]
    intro v hv
    rw [List.forall_mem_map]
    intro w hw hstart hstop hslot
    exact h.signatures v hv w hw (shift_inj hstart) (shift_inj hstop) hslot

end Program

/-! ## Labelled bodies -/

namespace LabelledBody

open LiteralPattern (loadsFlag? testTarget marksOf insertJumps divertFrom divertFrom_cons pendingAfter
  detour jump)

variable (labelled : LabelledBody)

/-- Whether the flag is on top of the stack before each of some instructions, given whether it is before what
stands in front of the first one. -/
def flagsFrom (flag : Bool) : List (Nat × CodeOp Label) → List Bool
  | [] => []
  | op :: ops => (flag && (labelled.linesAt op.1).isEmpty) :: flagsFrom (loadsFlag? op.2) ops

/-- The flags of the instructions. -/
abbrev flags : List Bool :=
  labelled.flagsFrom false labelled.ops

/-- The jump behind an instruction, at an offset where no label stands. -/
def jumpBehind (entry : (Nat × CodeOp Label) × Bool) : Option (Nat × CodeOp Label) :=
  (testTarget entry.2 entry.1.2).map fun target => (labelled.codeLength + 1 + entry.1.1, .branch (.goto target))

/-- The body with the jumps put in. -/
def diverted : LabelledBody :=
  { labelled with
    ops := (labelled.ops.zip labelled.flags).flatMap fun entry =>
      entry.1 :: (labelled.jumpBehind entry).toList }

/-- Where a position is when the jumps are there. -/
def shift (position : Nat) : Nat :=
  moveBehind (marksOf labelled.flags (labelled.ops.map Prod.snd)) position

/-! ### Events -/

theorem divertFrom_append (pending : Bool) (events others : List MethodEvent) :
    divertFrom pending (events ++ others) = divertFrom pending events ++ divertFrom
    (events.foldl pendingAfter pending) others := by
  induction events generalizing pending with
  | nil => simp [divertFrom, LiteralPattern.withPending]
  | cons event events ih => simp [divertFrom_cons, ih]

/-- Where there are no instructions, nothing is put in. -/
theorem divertFrom_of_bare {events : List MethodEvent} (h : events.filterMap MethodEvent.op? = [])
    (pending : Bool) : divertFrom pending events = events := by
  induction events generalizing pending with
  | nil => rfl
  | cons event events ih =>
    rw [divertFrom_cons]
    cases event with
    | op op => simp [MethodEvent.op?] at h
    | _ => simp [detour, ih (by simpa [MethodEvent.op?] using h)]

theorem detour_op (flag : Bool) (op : CodeOp Label) :
    detour flag (.op op) = ((testTarget flag op).map jump).toList := by
  unfold detour testTarget
  split
  · rename_i target heq
    cases heq
    cases flag <;> rfl
  · rename_i hne
    split
    · exact absurd rfl (hne _)
    · rfl

theorem pendingAfter_op (flag : Bool) (op : CodeOp Label) : pendingAfter flag (.op op) = loadsFlag? op := by
  unfold pendingAfter loadsFlag?
  split <;> split <;> simp_all

/-- Lines take the flag from the top of the stack, and nothing else does that stands in front of an instruction. -/
theorem foldl_eventsAt (flag : Bool) (offset : Nat) :
    (labelled.eventsAt offset).foldl pendingAfter flag = (flag && (labelled.linesAt offset).isEmpty) := by
  unfold eventsAt linesAt
  cases labelled.labels.get? offset with
  | none => simp
  | some label =>
    have hframe : ∀ frames : List (FrameRecord RefType Label), (frames.map .frame).foldl pendingAfter flag =
        flag := by
      intro frames
      induction frames with
      | nil => rfl
      | cons frame frames ih => simpa [pendingAfter] using ih
    have hlines : ∀ (lines : List UInt16) (flag : Bool),
        (lines.map (.line · label)).foldl pendingAfter flag = (flag && lines.isEmpty) := by
      intro lines
      induction lines with
      | nil => simp
      | cons line lines ih => simp [pendingAfter, ih]
    simp only [List.cons_append, List.foldl_cons, List.foldl_append, List.isEmpty_map]
    rw [show pendingAfter flag (.label label) = flag from rfl, hframe, hlines]

/-- Jumps go behind the instructions before which the flag is on top of the stack. -/
theorem divertFrom_ops {others : List MethodEvent} (hothers : ∀ flag, divertFrom flag others = others) :
    ∀ (flag : Bool) (ops : List (Nat × CodeOp Label)),
      divertFrom flag (ops.flatMap (fun op => labelled.eventsAt op.1 ++ [.op op.2]) ++ others) =
        (ops.zip (labelled.flagsFrom flag ops)).flatMap (fun entry => labelled.eventsAt entry.1.1 ++
          .op entry.1.2 :: ((testTarget entry.2 entry.1.2).map jump).toList) ++ others
  | flag, [] => by simpa using hothers flag
  | flag, op :: ops => by
    have hrest := divertFrom_ops hothers (loadsFlag? op.2) ops
    simp only [List.flatMap_cons, List.append_assoc, flagsFrom, List.zip_cons_cons, List.cons_append,
      List.nil_append]
    rw [divertFrom_append, divertFrom_of_bare (labelled.op?_eventsAt op.1), foldl_eventsAt, divertFrom_cons,
      detour_op, pendingAfter_op, hrest]

/-- No label stands behind the end of the code. -/
theorem get?_behind (h : labelled.Placed) (hend : ∀ offset ∈ labelled.offsets, offset ≤ labelled.codeLength)
    (k : Nat) : labelled.labels.get? (labelled.codeLength + 1 + k) = none := by
  cases hlabel : labelled.labels.get? (labelled.codeLength + 1 + k) with
  | none => rfl
  | some label =>
    have hle := hend _ (h.marked hlabel)
    omega

/-- The events with the jumps put in are those of the body with the jumps put in. -/
theorem events_diverted (h : labelled.Placed)
    (hend : ∀ offset ∈ labelled.offsets, offset ≤ labelled.codeLength) :
    LiteralPattern.divert labelled.events = labelled.diverted.events := by
  have hfirst : (MethodEvent.code :: labelled.handlers.map .handler).filterMap MethodEvent.op? = [] := by
    simp [MethodEvent.op?]
  have hflag : (MethodEvent.code :: labelled.handlers.map .handler).foldl pendingAfter false = false := by
    rw [List.foldl_cons, List.foldl_map]
    induction labelled.handlers with
    | nil => rfl
    | cons handler handlers ih => simpa [pendingAfter] using ih
  have hlast : ((labelled.labels.get? labelled.codeLength).toList.map MethodEvent.label ++
      (labelled.localVariables.map MethodEvent.localVariable ++ [MethodEvent.finish])).filterMap
      MethodEvent.op? = [] := by
    simp [MethodEvent.op?]
  -- the new jumps are at offsets of their own, where nothing else is announced
  have hjump : ∀ k, labelled.eventsAt (labelled.codeLength + 1 + k) = [] := by
    intro k
    unfold eventsAt
    rw [labelled.get?_behind h hend]
  have hops : labelled.diverted.ops.flatMap (fun op => labelled.diverted.eventsAt op.1 ++ [.op op.2]) =
      (labelled.ops.zip (labelled.flagsFrom false labelled.ops)).flatMap
      (fun entry => labelled.eventsAt entry.1.1 ++
        .op entry.1.2 :: ((testTarget entry.2 entry.1.2).map jump).toList) := by
    change List.flatMap (fun op : Nat × CodeOp Label => labelled.eventsAt op.1 ++ [.op op.2]) _ = _
    unfold diverted jumpBehind
    rw [List.flatMap_assoc]
    congr 1
    funext entry
    cases testTarget entry.2 entry.1.2 <;> simp [hjump, jump]
  change divertFrom false labelled.events = _
  unfold events
  rw [hops, List.append_assoc, List.append_assoc, List.append_assoc, divertFrom_append,
    divertFrom_of_bare hfirst, hflag, divertFrom_ops labelled (divertFrom_of_bare hlast)]
  simp only [List.append_assoc]
  rfl

/-! ### Positions -/

theorem length_flagsFrom (flag : Bool) (ops : List (Nat × CodeOp Label)) :
    (labelled.flagsFrom flag ops).length = ops.length := by
  induction ops generalizing flag with
  | nil => rfl
  | cons op ops ih => simp [flagsFrom, ih]

theorem length_zip_flags : (labelled.ops.zip labelled.flags).length = labelled.ops.length := by
  rw [List.length_zip, length_flagsFrom, Nat.min_self]

theorem marks_diverted : marksOf labelled.flags (labelled.ops.map Prod.snd) =
    (labelled.ops.zip labelled.flags).map fun entry => (labelled.jumpBehind entry).isSome := by
  simp [marksOf, jumpBehind, List.zip_map_left]

theorem ops_diverted : labelled.diverted.ops.map Prod.snd = insertJumps labelled.flags
    (labelled.ops.map Prod.snd) := by
  unfold diverted insertJumps jumpBehind
  rw [List.zip_map_left, List.map_flatMap, List.flatMap_map]
  congr 1
  funext entry
  cases htarget : testTarget entry.2 entry.1.2 <;> simp [htarget]

/-- A place of the body is a place of the body with the jumps put in, behind the jumps before it. -/
theorem getElem?_offsets_diverted {i offset : Nat} (h : labelled.offsets[i]? = some offset) :
    labelled.diverted.offsets[labelled.shift i]? = some offset := by
  have hlookup := moveBehind.getElem?_flatMap Prod.fst labelled.jumpBehind (labelled.ops.zip labelled.flags) i
  have hlength := moveBehind.length_flatMap Prod.fst labelled.jumpBehind (labelled.ops.zip labelled.flags)
  rw [← marks_diverted, length_zip_flags] at hlength
  rw [← marks_diverted] at hlookup
  change labelled.diverted.ops[labelled.shift i]? = _ at hlookup
  change labelled.diverted.ops.length = labelled.shift _ at hlength
  unfold offsets at h ⊢
  rcases Nat.lt_or_ge i labelled.ops.length with hlt | hge
  · -- a jump is put behind an instruction, so that stays at its offset
    have hshift : labelled.shift i < labelled.diverted.ops.length := by
      rw [hlength]
      exact moveBehind.strictMono _ hlt
    rw [List.getElem?_append_left (by simpa using hlt), List.getElem?_map] at h
    obtain ⟨op, hop, rfl⟩ := Option.map_eq_some_iff.mp h
    have hflag := List.getElem?_eq_getElem (show i < labelled.flags.length by rwa [length_flagsFrom])
    have hzip : (labelled.ops.zip labelled.flags)[i]? = some (op, _) := List.getElem?_zip_eq_some.mpr
      ⟨hop, hflag⟩
    rw [List.getElem?_append_left (by simpa using hshift), List.getElem?_map, hlookup, hzip]
    rfl
  · -- the end
    obtain rfl : i = labelled.ops.length := by
      have hle := (List.getElem?_eq_some_iff.mp h).1
      simp at hle
      omega
    rw [List.getElem?_append_right (by simp)] at h
    rw [← hlength, List.getElem?_append_right (by simp)]
    simpa [diverted] using h

/-- What stands at an instruction: itself, and its jump behind the end of the code. -/
theorem mem_offsets_behind {entry : (Nat × CodeOp Label) × Bool} {offset : Nat}
    (h : offset ∈ (entry.1 :: (labelled.jumpBehind entry).toList).map Prod.fst) :
    offset = entry.1.1 ∨ offset = labelled.codeLength + 1 + entry.1.1 := by
  unfold jumpBehind at h
  cases htarget : testTarget entry.2 entry.1.2 <;> simp [htarget] at h <;> omega

/-- Every place has its own offset. -/
theorem nodup_offsets_diverted (h : labelled.Placed)
    (hend : ∀ offset ∈ labelled.offsets, offset ≤ labelled.codeLength) :
    labelled.diverted.offsets.Nodup := by
  obtain ⟨hnodup, -, hlast⟩ := List.nodup_append.mp h.nodup
  have hpairs : (labelled.ops.zip labelled.flags).Pairwise fun entry entry' => entry.1.1 ≠ entry'.1.1 := by
    have hfirst : (labelled.ops.zip labelled.flags).map (fun entry => entry.1.1) =
        labelled.ops.map Prod.fst := by
      have hzip : (labelled.ops.zip labelled.flags).map Prod.fst = labelled.ops := List.map_fst_zip
        (by rw [length_flagsFrom])
      rw [← hzip, List.map_map]
      simp [hzip, Function.comp_def]
    exact List.pairwise_map.mp (hfirst ▸ hnodup)
  -- the new jumps are behind the end of the code, each as far as its test is from the start
  have hinside : ∀ entry ∈ labelled.ops.zip labelled.flags, entry.1.1 < labelled.codeLength := by
    intro entry hentry
    have hmem : entry.1.1 ∈ labelled.ops.map Prod.fst := List.mem_map_of_mem (List.of_mem_zip hentry).1
    have hne := hlast _ hmem _ (List.mem_singleton_self _)
    have hle := hend _ (List.mem_append_left _ hmem)
    omega
  unfold offsets
  change (List.map Prod.fst (List.flatMap _ _) ++ _).Nodup
  rw [List.map_flatMap]
  refine List.nodup_append.mpr ⟨List.nodup_flatMap.mpr ⟨fun entry hentry => ?_, ?_⟩, List.nodup_singleton _, ?_⟩
  · unfold jumpBehind
    cases testTarget entry.2 entry.1.2 <;> simp
  · refine hpairs.imp_of_mem ?_
    intro entry entry' hentry hentry' hne offset hoffset hoffset'
    have hlt := hinside entry hentry
    have hlt' := hinside entry' hentry'
    rcases labelled.mem_offsets_behind hoffset with rfl | rfl <;>
      rcases labelled.mem_offsets_behind hoffset' with heq | heq <;> omega
  · intro offset hoffset last hlast
    obtain rfl := List.mem_singleton.mp hlast
    obtain ⟨entry, hentry, hoffset⟩ := List.mem_flatMap.mp hoffset
    have hlt := hinside entry hentry
    change offset ≠ labelled.codeLength
    rcases labelled.mem_offsets_behind hoffset with rfl | rfl <;> omega

variable {labelled}

theorem Placed.diverted (h : labelled.Placed)
    (hend : ∀ offset ∈ labelled.offsets, offset ≤ labelled.codeLength) : labelled.diverted.Placed where
  sound := h.sound
  nodup := labelled.nodup_offsets_diverted h hend
  marked := fun hlabel => by
    obtain ⟨i, hi⟩ := List.mem_iff_getElem?.mp (h.marked hlabel)
    exact List.mem_of_getElem? (labelled.getElem?_offsets_diverted hi)

theorem idxOf_diverted (h : labelled.Placed)
    (hend : ∀ offset ∈ labelled.offsets, offset ≤ labelled.codeLength) {offset : Nat}
    (hmem : offset ∈ labelled.offsets) :
    labelled.diverted.offsets.idxOf offset = labelled.shift (labelled.offsets.idxOf offset) := by
  obtain ⟨hlt, heq⟩ := List.getElem?_eq_some_iff.mp
    (labelled.getElem?_offsets_diverted (List.getElem?_idxOf hmem))
  have hfirst := (labelled.nodup_offsets_diverted h hend).idxOf_getElem _ hlt
  rwa [heq] at hfirst

/-! ### Programs -/

theorem getElem?_flagsFrom_zero (flag : Bool) {ops : List (Nat × CodeOp Label)} {op : Nat × CodeOp Label}
    (hop : ops[0]? = some op) :
    (labelled.flagsFrom flag ops)[0]? = some (flag && (labelled.linesAt op.1).isEmpty) := by
  cases ops with
  | nil => simp at hop
  | cons first ops =>
    obtain rfl : first = op := by simpa using hop
    simp [flagsFrom]

theorem getElem?_flagsFrom_succ : ∀ (flag : Bool) {ops : List (Nat × CodeOp Label)} {k : Nat}
    {op next : Nat × CodeOp Label}, ops[k]? = some op → ops[k + 1]? = some next →
      (labelled.flagsFrom flag ops)[k + 1]? = some (loadsFlag? op.2 && (labelled.linesAt next.1).isEmpty)
  | _, [], _, _, _, hop, _ => by simp at hop
  | _, first :: ops, 0, op, next, hop, hnext => by
    obtain rfl : first = op := by simpa using hop
    exact getElem?_flagsFrom_zero _ (by simpa using hnext)
  | _, first :: ops, k + 1, op, next, hop, hnext => by
    have hop' : ops[k]? = some op := by simpa using hop
    have hnext' : ops[k + 1]? = some next := by simpa using hnext
    exact getElem?_flagsFrom_succ (loadsFlag? first.2) hop' hnext'

theorem mem_linesAt {offset : Nat} {line : UInt16 × Label} (h : line ∈ labelled.linesAt offset) :
    labelled.labels.Marks offset line.2 := by
  unfold linesAt at h
  cases hlabel : labelled.labels.get? offset with
  | none => simp [hlabel] at h
  | some label =>
    simp only [hlabel, List.mem_map] at h
    obtain ⟨number, -, rfl⟩ := h
    exact hlabel

variable {code code' : MethodCode} {source : Program}

theorem Placed.idxOf_op (h : labelled.Placed) {i : Nat} {op : Nat × CodeOp Label}
    (hop : labelled.ops[i]? = some op) : labelled.offsets.idxOf op.1 = i := by
  have hplace : labelled.offsets[i]? = some op.1 := by
    have hlt := (List.getElem?_eq_some_iff.mp hop).1
    unfold offsets
    rw [List.getElem?_append_left (by simpa using hlt), List.getElem?_map, hop]
    rfl
  obtain ⟨hlt, heq⟩ := List.getElem?_eq_some_iff.mp hplace
  rw [← heq]
  exact h.nodup.idxOf_getElem _ hlt

/-- Lines start at an instruction if there are some at its offset. -/
theorem Builds.exists_line (hb : labelled.Builds code) (h : labelled.Placed)
    (hprogram : code.program = .ok source) {i : Nat} {op : Nat × CodeOp Label}
    (hop : labelled.ops[i]? = some op) : (∃ line ∈ source.lines, line.2 = i) ↔ labelled.linesAt op.1 ≠ [] := by
  obtain ⟨-, hlines, -⟩ := MethodCode.program_parts hprogram
  rw [hb.lines] at hlines
  constructor
  · rintro ⟨placed, hplaced, rfl⟩
    obtain ⟨j, hj⟩ := List.mem_iff_getElem?.mp hplaced
    obtain ⟨line, hline, hposition, -⟩ := Lists.getElem?_of_forall₂ hlines.flip hj
    obtain ⟨op', hop', hline⟩ := List.mem_flatMap.mp (List.mem_of_getElem? hline)
    obtain ⟨k, hk⟩ := List.mem_iff_getElem?.mp hop'
    have hsame := hposition.symm.trans (hb.position (labelled.mem_linesAt hline))
    rw [h.idxOf_op hk] at hsame
    cases hsame
    cases hk.symm.trans hop
    exact List.ne_nil_of_mem hline
  · -- the label of a line stands for the instruction that has it
    intro hne
    obtain ⟨line, hline⟩ := List.exists_mem_of_ne_nil _ hne
    have hall : line ∈ labelled.ops.flatMap fun op => labelled.linesAt op.1 :=
      List.mem_flatMap.mpr ⟨op, List.mem_of_getElem? hop, hline⟩
    obtain ⟨j, hj⟩ := List.mem_iff_getElem?.mp hall
    obtain ⟨placed, hplaced, hposition, -⟩ := Lists.getElem?_of_forall₂ hlines hj
    have hsame := hposition.symm.trans (hb.position (labelled.mem_linesAt hline))
    rw [h.idxOf_op hop] at hsame
    cases hsame
    exact ⟨placed, List.mem_of_getElem? hplaced, rfl⟩

/-- The instructions of a body, with positions for labels. -/
theorem Builds.retargeted (hb : labelled.Builds code) (hprogram : code.program = .ok source) :
    List.Forall₂ (CodeOp.Retargeted fun label position => code.position label = .ok position)
      (labelled.ops.map Prod.snd) source.ops := by
  have hresolved := MethodCode.resolve_ok (MethodCode.program_parts hprogram).1
  rwa [hb.ops] at hresolved

/-- The flags of a body are those of its program. -/
theorem Builds.flags_eq (hb : labelled.Builds code) (h : labelled.Placed)
    (hprogram : code.program = .ok source) : source.flags = labelled.flags := by
  have hops := hb.retargeted hprogram
  have hlength : labelled.ops.length = source.ops.length := by simpa using hops.length_eq
  refine List.ext_getElem? fun i => ?_
  rcases Nat.lt_or_ge i source.ops.length with hlt | hge
  · obtain ⟨next, hnext⟩ : ∃ next, labelled.ops[i]? = some next := ⟨_, List.getElem?_eq_getElem (hlength ▸ hlt)⟩
    have hflag : source.flags[i]? = some (source.flagBefore i) := by simp [Program.flags, hlt]
    rw [hflag]
    cases i with
    | zero => rw [labelled.getElem?_flagsFrom_zero false hnext, Bool.false_and, Program.flagBefore]
    | succ k =>
      obtain ⟨op, hop⟩ : ∃ op, labelled.ops[k]? = some op := ⟨_, List.getElem?_eq_getElem (by omega)⟩
      have hop' : (labelled.ops.map Prod.snd)[k]? = some op.2 := by rw [List.getElem?_map, hop]; rfl
      obtain ⟨found, hfound, hrel⟩ := Lists.getElem?_of_forall₂ hops hop'
      -- a line between the two instructions breaks the pattern in both
      have hlines : (source.lines.all fun line => line.2 != k + 1) = (labelled.linesAt next.1).isEmpty := by
        have hexists := hb.exists_line h hprogram hnext
        rw [Bool.eq_iff_iff, List.isEmpty_iff, List.all_eq_true, ← not_iff_not, ← ne_eq, ← hexists]
        simp
      rw [labelled.getElem?_flagsFrom_succ false hop hnext, Program.flagBefore, hfound, hlines, Option.any_some,
        LiteralPattern.loadsFlag?_retargeted hrel]
  · rw [List.getElem?_eq_none (by simpa [Program.flags] using hge),
      List.getElem?_eq_none (by rw [length_flagsFrom, hlength]; exact hge)]

theorem Builds.shift_eq (hb : labelled.Builds code) (h : labelled.Placed)
    (hprogram : code.program = .ok source) : source.shift = labelled.shift := by
  funext position
  unfold Program.shift shift
  rw [hb.flags_eq h hprogram, LiteralPattern.marksOf_retargeted (hb.retargeted hprogram)]

/-- With the jumps put in, labels stand for the positions behind the jumps before theirs. -/
theorem Builds.moves (hb : labelled.Builds code) (h : labelled.Placed)
    (hend : ∀ offset ∈ labelled.offsets, offset ≤ labelled.codeLength) (hb' : labelled.diverted.Builds code')
    (hprogram : code.program = .ok source) : MethodCode.Moves source.shift code code' := by
  intro label position hposition
  obtain ⟨offset, hmarks⟩ := hb.marked hposition
  cases hposition.symm.trans (hb.position hmarks)
  have hmarks' : labelled.diverted.labels.Marks offset label := hmarks
  rw [hb'.position hmarks', idxOf_diverted h hend (h.marked hmarks), hb.shift_eq h hprogram]

/-- The jumps come with no lines. -/
theorem lines_diverted (h : labelled.Placed)
    (hend : ∀ offset ∈ labelled.offsets, offset ≤ labelled.codeLength) :
    (labelled.diverted.ops.flatMap fun op => labelled.diverted.linesAt op.1) =
      labelled.ops.flatMap fun op => labelled.linesAt op.1 := by
  have hjump : ∀ k, labelled.linesAt (labelled.codeLength + 1 + k) = [] := by
    intro k
    unfold linesAt
    rw [labelled.get?_behind h hend]
  have hzip : (labelled.ops.zip labelled.flags).map Prod.fst = labelled.ops := List.map_fst_zip
    (by rw [length_flagsFrom])
  change List.flatMap (fun op : Nat × CodeOp Label => labelled.linesAt op.1) (List.flatMap _ _) = _
  conv_rhs => rw [← hzip, List.flatMap_map]
  rw [List.flatMap_assoc]
  congr 1
  funext entry
  unfold jumpBehind
  cases testTarget entry.2 entry.1.2 <;> simp [hjump]

/-- What is built of a body with the jumps put in says the program with the jumps put in. -/
theorem Builds.program_diverted (hb : labelled.Builds code) (h : labelled.Placed)
    (hend : ∀ offset ∈ labelled.offsets, offset ≤ labelled.codeLength) (hb' : labelled.diverted.Builds code')
    (hprogram : code.program = .ok source) : code'.program = .ok source.diverted := by
  have hmoves := hb.moves h hend hb' hprogram
  obtain ⟨⟨ops, handlers⟩, hresolve, hrest⟩ := except_bind.mp hprogram
  obtain ⟨lines, hlines, hrest⟩ := except_bind.mp hrest
  obtain ⟨locals, hlocals, hrest⟩ := except_bind.mp hrest
  cases hrest
  obtain ⟨_, hops, hresolve⟩ := except_bind.mp hresolve
  obtain ⟨_, hhandlers, hresolve⟩ := except_bind.mp hresolve
  cases hresolve
  -- every label is where it was, shifted by the jumps that were put in before it
  have hops' : code'.ops.toList.mapM (·.convertTargets code'.position) = .ok
      (Program.mk ops handlers lines locals).diverted.ops := by
    rw [hb'.ops, ops_diverted, ← hb.flags_eq h hprogram]
    refine except_mapM.mpr (List.forall₂_map_right_iff.mpr ?_)
    exact (LiteralPattern.insertJumps_retargeted (hb.retargeted hprogram) _).imp fun _ _ hop =>
      hmoves.convertRetargeted hop
  have hhandlers' : code'.handlers.toList.mapM (·.convertPositions code'.position) =
      .ok (Program.mk ops handlers lines locals).diverted.handlers := by
    rw [hb'.handlers, show labelled.diverted.handlers = labelled.handlers from rfl, ← hb.handlers]
    refine except_mapM.mpr (List.forall₂_map_right_iff.mpr ?_)
    exact (except_mapM.mp hhandlers).imp fun _ _ hhandler => hmoves.convertPositions hhandler
  have hlines' : code'.lines.toList.mapM code'.placeLine = .ok
      (Program.mk ops handlers lines locals).diverted.lines := by
    rw [hb'.lines, lines_diverted h hend, ← hb.lines]
    refine except_mapM.mpr (List.forall₂_map_right_iff.mpr ?_)
    refine (except_mapM.mp hlines).imp fun line placed hline => ?_
    obtain ⟨position, hposition, hplaced⟩ := except_bind.mp hline
    cases hplaced
    exact except_bind.mpr ⟨_, hmoves _ _ hposition, rfl⟩
  have hlocals' : code'.localVariables.toList.mapM code'.placeVariable =
      .ok (Program.mk ops handlers lines locals).diverted.locals := by
    rw [hb'.localVariables, show labelled.diverted.localVariables = labelled.localVariables from rfl,
      ← hb.localVariables]
    refine except_mapM.mpr (List.forall₂_map_right_iff.mpr ?_)
    refine (except_mapM.mp hlocals).imp fun v placed hv => ?_
    obtain ⟨start, hstart, hv⟩ := except_bind.mp hv
    obtain ⟨stop, hstop, hv⟩ := except_bind.mp hv
    cases hv
    exact except_bind.mpr ⟨_, hmoves _ _ hstart, except_bind.mpr ⟨_, hmoves _ _ hstop, rfl⟩⟩
  have hresolve' : code'.resolve = .ok ((Program.mk ops handlers lines locals).diverted.ops,
      (Program.mk ops handlers lines locals).diverted.handlers) :=
    except_bind.mpr ⟨_, hops', except_bind.mpr ⟨_, hhandlers', rfl⟩⟩
  exact except_bind.mpr ⟨_, hresolve', except_bind.mpr ⟨_, hlines', except_bind.mpr ⟨_, hlocals', rfl⟩⟩⟩

/-- Patching a body makes of its program the program with the jumps put in. -/
theorem Placed.finishes_divert (h : labelled.Placed)
    (hend : ∀ offset ∈ labelled.offsets, offset ≤ labelled.codeLength)
    (hfinishes : MethodCode.finishes none labelled.events = .ok [some code])
    (hprogram : code.program = .ok source) :
    ∃ code', MethodCode.finishes none (LiteralPattern.divert labelled.events) = .ok [some code'] ∧
      code'.program = .ok source.diverted := by
  obtain ⟨_, hfound, hb⟩ := h.finishes_events
  cases hfound.symm.trans hfinishes
  obtain ⟨code', hfinishes', hb'⟩ := (h.diverted hend).finishes_events
  rw [labelled.events_diverted h hend]
  exact ⟨code', hfinishes', hb.program_diverted h hend hb' hprogram⟩

end LabelledBody

/-! ## Stored bodies -/

/-- Nothing is behind the end of the code. -/
theorem LabelledBody.Reads.le_codeLength {pool : Pool} {body : CodeAttribute} {labelled : LabelledBody}
    {decoded : List (Nat × CodeOp Nat)} {tables : List BodyTable} (h : Reads pool body labelled decoded tables)
    (hd : Code.Decoded pool body.code decoded) : ∀ offset ∈ labelled.offsets, offset ≤ labelled.codeLength := by
  rw [h.offsets_eq, h.codeLength]
  intro offset hoffset
  rcases List.mem_append.mp hoffset with hmem | hlast
  · obtain ⟨op, hop, rfl⟩ := List.mem_map.mp hmem
    exact Nat.le_of_lt (hd.inside op hop).2
  · exact Nat.le_of_eq (List.mem_singleton.mp hlast)

/-- The program of a body, and what is built of its events with the jumps put in. -/
theorem ClassFile.exists_diverted {pool : Pool} (hp : pool.WellFormed) {owner : BinaryName}
    {method : MethodHeader} {body : CodeAttribute} {events : List MethodEvent}
    (h : ClassFile.bodyEvents pool owner method (some body) = .ok events) :
    ∃ source code, body.Says pool owner method source ∧
      source.WellFormed ∧ MethodCode.finishes none (LiteralPattern.divert events) = .ok [some code] ∧
        code.program = .ok source.diverted := by
  obtain ⟨labelled, hlabelled, hevents⟩ := except_bind.mp h
  cases hevents
  obtain ⟨decoded, tables, hreads⟩ := LabelledBody.ofCode_ok hlabelled
  have hd := Code.decode_ok hp hreads.code
  obtain ⟨once, source, hfinishes, hprogram, hread⟩ := hreads.program_ok hd
  obtain ⟨code, hcode, hdiverted⟩ := (hreads.placed hd).finishes_divert
    (hreads.le_codeLength hd) hfinishes hprogram
  refine ⟨source, code, ⟨_, h, except_bind.mpr ⟨_, hfinishes, except_mapM.mpr (.cons ?_ .nil)⟩⟩,
    hread.wellFormed hd, hcode, hdiverted⟩
  exact except_bind.mpr ⟨source, hprogram, rfl⟩

end ClassWeave
