import ClassWeave.Proofs.Patch.Sealed

/-!
# Programs that are patched again

A program that was patched has a jump behind each test of the flag, and gets one more when it is patched again.
Of two jumps the second one is never reached. When the code is collapsed, it becomes one `athrow` with what cannot
be reached behind it; so all that is left of it is an `athrow` where there is none yet (`Program.RepatchedAs`).
-/

namespace ClassWeave

open Analysis (Reachable)
open Layout (Encoding ofItems)
open MethodBody (Framed DeadRun collapse collapsedAt)

/-! ## Fences -/

/-- What stands behind an instruction with a fence. -/
def fenceOf (marked : Bool) : Option (CodeOp Nat) :=
  if marked then some (.branch .athrow) else none

/-- The instructions with an `athrow` behind each one that is marked. -/
def fenced (fences : List Bool) (ops : List (CodeOp Nat)) : List (CodeOp Nat) :=
  ((ops.zip fences).flatMap fun entry => entry.1 :: (fenceOf entry.2).toList).map
    (·.mapTargets (moveBehind fences))

section Fenced

variable {fences : List Bool} {ops : List (CodeOp Nat)} (hlen : fences.length = ops.length)

include hlen

theorem map_fenceOf : (ops.zip fences).map (fun entry => (fenceOf entry.2).isSome) = fences := by
  have hsome : (fun entry : CodeOp Nat × Bool => (fenceOf entry.2).isSome) = Prod.snd := by
    funext ⟨_, marked⟩
    cases marked <;> rfl
  rw [hsome]
  exact List.map_snd_zip (Nat.le_of_eq hlen)

/-- Instructions move behind the fences before them. -/
theorem getElem?_fenced (i : Nat) :
    (fenced fences ops)[moveBehind fences i]? = ops[i]?.map (·.mapTargets (moveBehind fences)) := by
  have hget := moveBehind.getElem?_flatMap Prod.fst (fun entry => fenceOf entry.2) (ops.zip fences) i
  rw [map_fenceOf hlen, ← List.getElem?_map, List.map_fst_zip (Nat.le_of_eq hlen.symm)] at hget
  rw [fenced, List.getElem?_map, hget]

/-- A fence is right behind its instruction. -/
theorem getElem?_fenced_succ {i : Nat} (hi : fences[i]? = some true) :
    (fenced fences ops)[moveBehind fences i + 1]? = some (.branch .athrow) := by
  have hlt : i < ops.length := hlen ▸ (List.getElem?_eq_some_iff.mp hi).1
  have hzip : (ops.zip fences)[i]? = some (ops[i], true) :=
    List.getElem?_zip_eq_some.mpr ⟨List.getElem?_eq_getElem hlt, hi⟩
  have hget := moveBehind.getElem?_flatMap_succ Prod.fst (fun entry => fenceOf entry.2) hzip rfl
  rw [map_fenceOf hlen] at hget
  rw [fenced, List.getElem?_map, hget]
  rfl

theorem length_fenced : (fenced fences ops).length = moveBehind fences ops.length := by
  have hlength := moveBehind.length_flatMap Prod.fst (fun entry => fenceOf entry.2) (ops.zip fences)
  rw [map_fenceOf hlen, List.length_zip, hlen, Nat.min_self] at hlength
  rw [fenced, List.length_map, hlength]

end Fenced

/-! ## Collapsing -/

namespace CodeOp.Repeats

variable {marks fences : List Bool} {ops ops' : List (CodeOp Nat)} {handlers : List (Handler Nat BinaryName)}
  {frames : Array (Option AnalysisFrame)}

/-- Trimmed code where some jumps stand twice then, with the frames that it has there. A fence is at each of
these jumps that has no dead instruction behind it. -/
structure FramedOnce (marks fences : List Bool) (ops ops' : List (CodeOp Nat))
    (handlers : List (Handler Nat BinaryName)) (frames : Array (Option AnalysisFrame)) :
    Prop extends CodeOp.Repeats marks ops ops', Trimmed ops handlers where
  framesOf : FramesOf ops' (handlers.map (Handler.move (moveBehind marks))) frames
  targets : ∀ op ∈ ops, ∀ t ∈ op.targets, t < ops.length
  fences_length : fences.length = ops.length
  fence : ∀ i, fences[i]? = some true ↔ marks[i]? = some true ∧
    (i + 1 < ops.length → Reachable ops handlers (i + 1))

namespace FramedOnce

variable (h : FramedOnce marks fences ops ops' handlers frames)

include h

theorem framed_iff (k : Nat) : Framed frames k ↔ ∃ i, k = moveBehind marks i ∧ Reachable ops handlers i :=
  (h.framesOf.framed k).trans h.reachable_iff

theorem inside {i : Nat} (hi : Reachable ops handlers i) : i < ops.length := by
  have hlt := h.framesOf.inside _ (h.reachable_iff.mpr ⟨i, rfl, hi⟩)
  rwa [h.length, (moveBehind.strictMono marks).lt_iff_lt] at hlt

theorem framed_of_reachable {i : Nat} (hi : Reachable ops handlers i) : Framed frames (moveBehind marks i) :=
  (h.framed_iff _).mpr ⟨i, rfl, hi⟩

theorem reachable_of_framed {i : Nat} (hi : Framed frames (moveBehind marks i)) : Reachable ops handlers i := by
  obtain ⟨j, hj, hreach⟩ := (h.framed_iff _).mp hi
  rwa [(moveBehind.strictMono marks).injective hj]

/-- Control flow gets to what stands twice, since it is a jump. -/
theorem reachable_of_marked {i : Nat} (hi : marks[i]? = some true) : Reachable ops handlers i := by
  obtain ⟨target, hop⟩ := h.jumps hi
  by_contra hdead
  cases (h.dead (List.getElem?_eq_some_iff.mp hop).1 hdead).symm.trans hop

theorem unmarked_of_dead {i : Nat} (hi : ¬ Reachable ops handlers i) : marks[i]? ≠ some true :=
  fun hmark => hi (h.reachable_of_marked hmark)

/-- The second of two jumps has no frame. -/
theorem not_framed_twice {i : Nat} (hi : marks[i]? = some true) : ¬ Framed frames (moveBehind marks i + 1) := by
  intro hframed
  obtain ⟨j, hj, -⟩ := (h.framed_iff _).mp hframed
  have hmono := moveBehind.strictMono marks
  have hsucc := moveBehind.succ_of_marked hi
  have hlow : i < j := hmono.lt_iff_lt.mp (by omega)
  have hhigh : j < i + 1 := hmono.lt_iff_lt.mp (by omega)
  omega

theorem frames_size : frames.size = moveBehind marks ops.length :=
  h.framesOf.size.trans h.length

/-- A single dead instruction is a run, with the second of two jumps if one is before it. -/
theorem deadRun_of_dead {i : Nat} (hi : i < ops.length) (hdead : ¬ Reachable ops handlers i) :
    ∃ start ≤ moveBehind marks i, DeadRun (Framed frames) frames.size start (moveBehind marks (i + 1)) := by
  have hmono := moveBehind.strictMono marks
  have hstop : moveBehind marks (i + 1) ≤ frames.size := by
    rw [h.frames_size]
    exact hmono.monotone hi
  have hafter : moveBehind marks (i + 1) < frames.size → Framed frames (moveBehind marks (i + 1)) := by
    rw [h.frames_size, hmono.lt_iff_lt]
    exact fun hlt => h.framed_of_reachable (h.single hlt hdead)
  have hsucc := moveBehind.succ_of_unmarked (h.unmarked_of_dead hdead)
  have hhere : ¬ Framed frames (moveBehind marks i) := fun hframed => hdead (h.reachable_of_framed hframed)
  cases i with
  | zero => exact absurd .start hdead
  | succ j =>
    have hbefore : Reachable ops handlers j := by
      by_contra hdead'
      exact hdead (h.single hi hdead')
    -- behind a mark the run begins with what was inserted there
    by_cases hmark : marks[j]? = some true
    · have htwice := moveBehind.succ_of_marked hmark
      refine ⟨moveBehind marks j + 1, by omega, by omega, hstop, fun k hlow hhigh => ?_, .inr ?_, hafter⟩
      · obtain rfl | rfl : k = moveBehind marks j + 1 ∨ k = moveBehind marks (j + 1) := by omega
        · exact h.not_framed_twice hmark
        · exact hhere
      · exact h.framed_of_reachable hbefore
    · have honce := moveBehind.succ_of_unmarked hmark
      refine ⟨moveBehind marks (j + 1), Nat.le_refl _, by omega, hstop, fun k hlow hhigh => ?_, .inr ?_, hafter⟩
      · obtain rfl : k = moveBehind marks (j + 1) := by omega
        exact hhere
      · rw [honce]
        exact h.framed_of_reachable hbefore

/-- The second of two jumps is a run, with the dead instruction behind it if there is one. -/
theorem deadRun_of_marked {i : Nat} (hi : marks[i]? = some true) : ∃ stop,
    DeadRun (Framed frames) frames.size (moveBehind marks i + 1) stop ∧
      stop = if fences[i]? = some true then moveBehind marks (i + 1) else moveBehind marks (i + 1) + 1 := by
  have hmono := moveBehind.strictMono marks
  have hlt : i < ops.length := h.inside (h.reachable_of_marked hi)
  have htwice := moveBehind.succ_of_marked hi
  have hstop : moveBehind marks (i + 1) ≤ frames.size := by
    rw [h.frames_size]
    exact hmono.monotone hlt
  have hbefore : Framed frames (moveBehind marks i + 1 - 1) := h.framed_of_reachable (h.reachable_of_marked hi)
  refine ⟨_, ?_, rfl⟩
  split_ifs with hfence
  · refine ⟨by omega, hstop, fun k hlow hhigh => ?_, .inr hbefore, ?_⟩
    · obtain rfl : k = moveBehind marks i + 1 := by omega
      exact h.not_framed_twice hi
    · rw [h.frames_size, hmono.lt_iff_lt]
      exact fun hlt => h.framed_of_reachable (((h.fence i).mp hfence).2 hlt)
  · -- without a fence there is a dead instruction behind the jump, and none behind that one
    obtain ⟨hnext, hdead⟩ : i + 1 < ops.length ∧ ¬ Reachable ops handlers (i + 1) := by
      by_contra hcontra
      exact hfence ((h.fence i).mpr ⟨hi, fun hlt => by_contra fun hdead => hcontra ⟨hlt, hdead⟩⟩)
    have honce := moveBehind.succ_of_unmarked (h.unmarked_of_dead hdead)
    refine ⟨by omega, ?_, fun k hlow hhigh => ?_, .inr hbefore, ?_⟩
    · rw [h.frames_size, ← honce]
      exact hmono.monotone hnext
    · obtain rfl | rfl : k = moveBehind marks i + 1 ∨ k = moveBehind marks (i + 1) := by omega
      · exact h.not_framed_twice hi
      · exact fun hframed => hdead (h.reachable_of_framed hframed)
    · rw [h.frames_size, ← honce, hmono.lt_iff_lt]
      exact fun hlt => h.framed_of_reachable (h.single hlt hdead)

/-- In collapsed code, an instruction has moved only behind the fences before it. -/
theorem collapsedAt_move : ∀ {i : Nat}, i ≤ ops.length → collapsedAt frames (moveBehind marks i) =
    moveBehind fences i := by
  intro i
  induction i with
  | zero =>
    intro _
    obtain ⟨f, hf⟩ := h.framed_of_reachable .start
    rw [moveBehind.zero] at hf ⊢
    rw [moveBehind.zero, MethodBody.collapsedAt_reachable hf]
    simp [MethodBody.stay]
  | succ i ih =>
    intro hi
    have hmove := ih (Nat.le_of_succ_le hi)
    by_cases hmark : marks[i]? = some true
    · -- behind a mark a run begins that is not reached: the jump alone, or with what was dead behind it
      have htwice := moveBehind.succ_of_marked hmark
      obtain ⟨f, hf⟩ := h.framed_of_reachable (h.reachable_of_marked hmark)
      obtain ⟨stop, hrun, hstop⟩ := h.deadRun_of_marked hmark
      obtain ⟨hinside, hend⟩ := MethodBody.collapsedAt_deadRun hrun
      rw [MethodBody.collapsedAt_succ hf] at hinside hend
      split_ifs at hstop with hfence
      · rw [← hstop, hend, hmove, moveBehind.succ_of_marked hfence]
      · rw [hinside _ (by omega) (by omega), hmove, moveBehind.succ_of_unmarked hfence]
    · have hfence : fences[i]? ≠ some true := fun hfence => hmark ((h.fence i).mp hfence).1
      rw [moveBehind.succ_of_unmarked hfence, ← hmove]
      by_cases hreach : Reachable ops handlers i
      · obtain ⟨f, hf⟩ := h.framed_of_reachable hreach
        rw [moveBehind.succ_of_unmarked hmark, MethodBody.collapsedAt_succ hf]
      · obtain ⟨start, hle, hrun⟩ := h.deadRun_of_dead hi hreach
        obtain ⟨hinside, hend⟩ := MethodBody.collapsedAt_deadRun hrun
        rw [hend, hinside _ hle (moveBehind.strictMono marks (Nat.lt_succ_self i))]

/-- An instruction is there, wherever it has moved. -/
theorem getElem?_collapse {i : Nat} {op : CodeOp Nat} (hop : ops[i]? = some op) :
    (collapse ops' frames handlers).ops[moveBehind fences i]? = some (op.mapTargets (moveBehind fences)) := by
  have hlt : i < ops.length := (List.getElem?_eq_some_iff.mp hop).1
  rw [← h.collapsedAt_move (Nat.le_of_lt hlt)]
  by_cases hreach : Reachable ops handlers i
  · obtain ⟨f, hf⟩ := h.framed_of_reachable hreach
    rw [(MethodBody.collapse_reachable (h.moved hop) hf).1, CodeOp.mapTargets_mapTargets]
    refine congrArg some (CodeOp.mapTargets_congr fun t ht => ?_)
    exact h.collapsedAt_move (Nat.le_of_lt (h.targets op (List.mem_of_getElem? hop) t ht))
  · obtain ⟨start, hle, hrun⟩ := h.deadRun_of_dead hlt hreach
    have hinside := (MethodBody.collapsedAt_deadRun hrun).1 _ hle
      (moveBehind.strictMono marks (Nat.lt_succ_self i))
    cases hop.symm.trans (h.dead hlt hreach)
    rw [hinside, (MethodBody.collapse_deadRun h.framesOf.size hrun).1]
    rfl

/-- When the code is collapsed, all that is left of the second jumps are the fences. -/
theorem ops_collapse : (collapse ops' frames handlers).ops = fenced fences ops := by
  have hlength : (collapse ops' frames handlers).ops.length = moveBehind fences ops.length := by
    rw [← MethodBody.collapsedAt_end h.framesOf.size, h.length, h.collapsedAt_move (Nat.le_refl _)]
  refine List.ext_getElem? fun p => ?_
  rcases Nat.lt_or_ge p (moveBehind fences ops.length) with hp | hp
  · rcases moveBehind.cases fences hp with ⟨i, hi, rfl⟩ | ⟨i, hi, hfence, rfl⟩
    · have hop : ops[i]? = some ops[i] := List.getElem?_eq_getElem hi
      rw [h.getElem?_collapse hop, getElem?_fenced h.fences_length, hop]
      rfl
    · have hmark := ((h.fence i).mp hfence).1
      obtain ⟨f, hf⟩ := h.framed_of_reachable (h.reachable_of_marked hmark)
      obtain ⟨stop, hrun, -⟩ := h.deadRun_of_marked hmark
      have hathrow := (@MethodBody.collapse_deadRun _ _ handlers h.framesOf.size _ _ hrun).1
      rw [MethodBody.collapsedAt_succ hf, h.collapsedAt_move (Nat.le_of_lt hi)] at hathrow
      rw [hathrow, getElem?_fenced_succ h.fences_length hfence]
  · rw [List.getElem?_eq_none (hlength ▸ hp), List.getElem?_eq_none]
    rw [length_fenced h.fences_length]
    exact hp

end FramedOnce

end CodeOp.Repeats

/-! ## Programs -/

namespace Program

open LiteralPattern (marksOf)

variable {program : Program}

/-- Tells for each instruction whether it is the jump behind a test. -/
def jumpMarks (program : Program) : List Bool :=
  (false :: marksOf program.flags program.ops).take program.ops.length

theorem length_jumpMarks (program : Program) : program.jumpMarks.length = program.ops.length := by
  simp [jumpMarks, marksOf, length_flags]

theorem getElem?_jumpMarks {k : Nat} (hk : k < program.ops.length) : program.jumpMarks[k]? = some true ↔
    ∃ i target, k = i + 2 ∧ program.Tests i target := by
  unfold jumpMarks
  rw [List.getElem?_take_of_lt hk]
  cases k with
  | zero => simp
  | succ k =>
    rw [List.getElem?_cons_succ, marked_iff]
    simp only [Nat.add_right_cancel_iff]

theorem moveBehind_jumpMarks_succ {k : Nat} (hk : k < program.ops.length) :
    moveBehind program.jumpMarks (k + 1) = program.shift k + 1 := by
  have htake : moveBehind program.jumpMarks (k + 1) = moveBehind (false :: marksOf program.flags program.ops)
      (k + 1) := by
    unfold moveBehind jumpMarks
    rw [List.take_take, Nat.min_eq_left hk]
  rw [htake, moveBehind.cons_succ]
  rfl

/-- Positions move behind the jumps that are there as they do behind those that are put in, but for the jumps
themselves. -/
theorem moveBehind_jumpMarks {k : Nat} (hk : k ≤ program.ops.length)
    (hother : ∀ i target, program.Tests i target → i + 2 ≠ k) :
    moveBehind program.jumpMarks k = program.shift k := by
  cases k with
  | zero => rw [moveBehind.zero, shift, moveBehind.zero]
  | succ k =>
    rw [moveBehind_jumpMarks_succ hk]
    refine (moveBehind.succ_of_unmarked fun hmark => ?_).symm
    obtain ⟨i, target, rfl, htest⟩ := marked_iff.mp hmark
    exact hother i target htest rfl

/-- The jump behind each test goes where the test goes. -/
def JumpsAlike (program : Program) : Prop :=
  ∀ i target, program.Tests i target → program.ops[i + 2]? = some (.branch (.goto target))

/-- What a program is when it is patched once more: there is an `athrow` behind each jump of a test where there
was no instruction that cannot be reached, and branches may have become too far for what is between them and
their targets then. -/
def RepatchedAs (pool : Pool) (once twice : Program) : Prop :=
  ∃ fences items, fences.length = once.ops.length ∧
    (∀ k, fences[k]? = some true ↔ (∃ i target, k = i + 2 ∧ once.Tests i target) ∧
      (k + 1 < once.ops.length → Reachable once.ops once.handlers (k + 1))) ∧
        Encoding pool (fenced fences once.ops) items ∧
          (∀ k ∈ (ofItems items).widened, Layout.WasFar .signed16 items k) ∧
            twice.ops = Layout.respelled (ofItems items).widened (fenced fences once.ops)

namespace Patched

variable (h : program.Patched) (hplaced : program.WellFormed) (hjumps : program.JumpsAlike)

include h

/-- What branches and handlers refer to moves behind the jumps that are there. -/
theorem move_eq {k : Nat} (hk : k ≤ program.ops.length)
    (hnamed : ∀ i, Unnamed program.ops program.handlers i → i ≠ k) :
    moveBehind program.jumpMarks k = program.shift k :=
  moveBehind_jumpMarks hk fun _ _ htest => hnamed _ (h.unnamed htest)

include hplaced

theorem target_eq {op : CodeOp Nat} (hop : op ∈ program.ops) {t : Nat} (ht : t ∈ op.targets) :
    moveBehind program.jumpMarks t = program.shift t := by
  refine h.move_eq (Nat.le_of_lt (hplaced.targets op hop t ht)) fun i hunnamed heq => ?_
  exact hunnamed.targets op hop (heq ▸ ht)

/-- Handlers move behind the jumps that are there. -/
theorem handlers_diverted :
    program.diverted.handlers = program.handlers.map (Handler.move (moveBehind program.jumpMarks)) := by
  refine List.map_congr_left fun handler hmem => ?_
  obtain ⟨hstart, hstop, htarget⟩ := hplaced.handlers handler hmem
  have hmove : ∀ {k}, k ≤ program.ops.length →
      (k = handler.start ∨ k = handler.stop ∨ k = handler.target) →
        program.shift k = moveBehind program.jumpMarks k := by
    intro k hk hnamed
    refine (h.move_eq hk fun i hunnamed heq => ?_).symm
    obtain ⟨hfree, hfree', hfree''⟩ := hunnamed.handlers handler hmem
    rcases hnamed with rfl | rfl | rfl
    · exact hfree heq.symm
    · exact hfree' heq.symm
    · exact hfree'' heq.symm
  unfold Handler.move
  rw [hmove hstart (.inl rfl), hmove hstop (.inr (.inl rfl)), hmove htarget (.inr (.inr rfl))]

include hjumps

/-- Patching the program once more makes its jumps stand twice. -/
theorem repeats : CodeOp.Repeats program.jumpMarks program.ops program.diverted.ops where
  length := by
    rw [length_diverted]
    refine (moveBehind_jumpMarks (Nat.le_refl _) fun i target htest => ?_).symm
    exact Nat.ne_of_lt (List.getElem?_eq_some_iff.mp (hjumps i target htest)).1
  moved := fun {k op} hop => by
    have hlt := (List.getElem?_eq_some_iff.mp hop).1
    have hmem := List.mem_of_getElem? hop
    rw [CodeOp.mapTargets_congr fun t ht => h.target_eq hplaced hmem ht]
    by_cases hjump : ∃ i target, k = i + 2 ∧ program.Tests i target
    · obtain ⟨i, target, rfl, htest⟩ := hjump
      rw [moveBehind_jumpMarks_succ (Nat.lt_of_succ_lt hlt)]
      cases hop.symm.trans (hjumps i target htest)
      exact htest.getElem?_diverted
    · rw [moveBehind_jumpMarks (Nat.le_of_lt hlt) fun i target htest heq => hjump ⟨i, target, heq.symm, htest⟩]
      exact getElem?_diverted hop
  jumps := fun {k} hmark => by
    have hlt := (List.getElem?_eq_some_iff.mp hmark).1
    rw [length_jumpMarks] at hlt
    obtain ⟨i, target, rfl, htest⟩ := (getElem?_jumpMarks hlt).mp hmark
    exact ⟨target, hjumps i target htest⟩

/-- When the code is collapsed then, all that is new are fences. -/
theorem exists_fences {frames : Array (Option AnalysisFrame)}
    (hframes : FramesOf program.diverted.ops program.diverted.handlers frames) :
    ∃ fences : List Bool, fences.length = program.ops.length ∧
      (∀ k, fences[k]? = some true ↔ (∃ i target, k = i + 2 ∧ program.Tests i target) ∧
        (k + 1 < program.ops.length → Reachable program.ops program.handlers (k + 1))) ∧
      (collapse program.diverted.ops frames program.diverted.handlers).ops = fenced fences program.ops := by
  classical
  obtain ⟨fences, hlength, hget⟩ : ∃ fences : List Bool, fences.length = program.ops.length ∧
      ∀ k, fences[k]? = some true ↔ program.jumpMarks[k]? = some true ∧
        (k + 1 < program.ops.length → Reachable program.ops program.handlers (k + 1)) := by
    refine ⟨program.jumpMarks.zipIdx.map fun entry => entry.1 && decide (entry.2 + 1 < program.ops.length →
      Reachable program.ops program.handlers (entry.2 + 1)), by simp [length_jumpMarks], fun k => ?_⟩
    cases hmark : program.jumpMarks[k]? with
    | none => simp [hmark]
    | some mark => simp [hmark, or_iff_not_imp_left]
  -- a jump is put in behind each test
  have hmarks : ∀ k, program.jumpMarks[k]? = some true ↔ ∃ i target, k = i + 2 ∧ program.Tests i target := by
    intro k
    rcases Nat.lt_or_ge k program.ops.length with hlt | hge
    · exact getElem?_jumpMarks hlt
    · rw [List.getElem?_eq_none (by rwa [length_jumpMarks])]
      refine ⟨nofun, ?_⟩
      rintro ⟨i, target, rfl, htest⟩
      exact absurd (List.getElem?_eq_some_iff.mp (hjumps i target htest)).1 (Nat.not_lt_of_le hge)
  rw [h.handlers_diverted hplaced] at hframes ⊢
  refine ⟨fences, hlength, fun k => by rw [hget, hmarks], ?_⟩
  have honce : CodeOp.Repeats.FramedOnce program.jumpMarks fences program.ops program.diverted.ops
      program.handlers frames := {
    toRepeats := h.repeats hplaced hjumps
    toTrimmed := h.toTrimmed
    framesOf := hframes
    targets := hplaced.targets
    fences_length := hlength
    fence := hget }
  exact honce.ops_collapse

end Patched

end Program

end ClassWeave
