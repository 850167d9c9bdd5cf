import ClassWeave.Proofs.Analysis.Covered
import ClassWeave.Proofs.Instruction.Targets
import ClassWeave.Proofs.Method.Collapsed

/-!
# Collapsing preserves the program

What can be reached in collapsed code is what could be reached before, in the same order and with the same
handlers in the same order (`MethodBody.Preserves`). Every run of other instructions (`DeadRun`) is one `athrow`
that nothing leads to.
-/

namespace ClassWeave

open Analysis (Reachable reachable_of_frameAt covers_analyze)

namespace MethodBody

/-! ## Lists of instructions that stay -/

theorem kept_zero {previous : Bool} {reachable : List Bool} (hprevious : previous = true)
    (h : 0 < reachable.length) : (kept previous reachable)[0]? = some true := by
  cases reachable with
  | nil => cases h
  | cons first rest =>
    change some (first || previous) = some true
    rw [hprevious, Bool.or_true]

/-- What is not reachable and follows something that is not does not stay. -/
theorem kept_succ_false {reachable : List Bool} : ∀ {previous : Bool} {i : Nat}, reachable[i]? = some false →
    reachable[i + 1]? = some false → (kept previous reachable)[i + 1]? = some false := by
  induction reachable with
  | nil =>
    intro previous i h
    cases h
  | cons first rest ih =>
    intro previous i h h'
    cases i with
    | zero =>
      cases rest with
      | nil => cases h'
      | cons second rest =>
        cases h
        cases h'
        rfl
    | succ i => exact ih h h'

/-- What stays without being reachable is the first of its run. -/
theorem kept_of_unreachable : ∀ {previous : Bool} {reachable : List Bool} {i : Nat},
    (kept previous reachable)[i]? = some true → reachable[i]? = some false → i = 0 ∨
    reachable[i - 1]? = some true
  | _, _, 0, _, _ => .inl rfl
  | _, first :: second :: _, 1, h, h' => by
    cases h'
    change some (false || first) = some true at h
    exact .inr h
  | _, _ :: rest, i + 2, h, h' => by
    rcases @kept_of_unreachable _ rest (i + 1) h h' with hzero | hbefore
    · cases hzero
    · exact .inr hbefore

theorem stay_succ_of_ne {keep : List Bool} {i : Nat} (h : keep[i]? ≠ some true) :
    stay keep (i + 1) = stay keep i := by
  unfold stay
  rw [List.take_add_one]
  cases hget : keep[i]? with
  | none => rw [Option.toList_none, List.append_nil]
  | some stays =>
    cases stays with
    | true => exact absurd hget h
    | false =>
      rw [List.count_append]
      rfl

/-! ## Runs of what cannot be reached -/

/-- The indices from `start` up to, but not including, `stop` are not live, and the run cannot be made longer. -/
structure DeadRun (live : Nat → Prop) (length start stop : Nat) : Prop where
  start_lt : start < stop
  stop_le : stop ≤ length
  dead : ∀ i, start ≤ i → i < stop → ¬ live i
  before : start = 0 ∨ live (start - 1)
  after : stop < length → live stop

/-- A run that is open to the right has an end. -/
theorem exists_deadRun {live : Nat → Prop} : ∀ {count start : Nat}, start = 0 ∨ live (start - 1) →
    ¬ live start → ∃ stop, DeadRun live (start + 1 + count) start stop := by
  intro count start hbefore hdead
  have hstop : ∀ k, start + 1 + k ≤ start + 1 + count → (∀ i, start ≤ i → i < start + 1 + k → ¬ live i) →
      ∃ stop, DeadRun live (start + 1 + count) start stop := by
    intro k hk
    induction hn : count - k generalizing k with
    | zero => exact fun hrun => ⟨start + 1 + k, by omega, hk, hrun, hbefore, fun hlt => by omega⟩
    | succ n ih =>
      intro hrun
      by_cases hlive : live (start + 1 + k)
      · exact ⟨start + 1 + k, by omega, hk, hrun, hbefore, fun _ => hlive⟩
      · refine ih (k + 1) (by omega) (by omega) fun i hle hlt => ?_
        by_cases heq : i = start + 1 + k
        · rw [heq]
          exact hlive
        · exact hrun i hle (by omega)
  refine hstop 0 (by omega) fun i hle hlt => ?_
  rw [show i = start by omega]
  exact hdead

/-- The instruction has a frame. -/
def Framed (frames : Array (Option AnalysisFrame)) (index : Nat) : Prop :=
  ∃ f, (frames[index]?).join = some f

variable {ops : List (CodeOp Nat)} {frames : Array (Option AnalysisFrame)}
  {handlers : List (Handler Nat BinaryName)}

theorem not_framed_eq {i : Nat} (hi : i < frames.size) (h : ¬ Framed frames i) :
    (frames.toList.map Option.isSome)[i]? = some false := by
  rw [List.getElem?_map, Array.getElem?_toList, Array.getElem?_eq_getElem hi]
  cases hget : frames[i] with
  | none => rfl
  | some f =>
    refine absurd ⟨f, ?_⟩ h
    rw [Array.getElem?_eq_getElem hi, hget]
    rfl

/-- Not all instructions have frames if one of them has none. -/
theorem any_isNone_iff : frames.any Option.isNone = true ↔ ∃ i < frames.size, ¬ Framed frames i := by
  rw [Array.any_eq_true]
  constructor
  · rintro ⟨i, hi, hnone⟩
    refine ⟨i, hi, fun ⟨f, hf⟩ => ?_⟩
    rw [Array.getElem?_eq_getElem hi] at hf
    change frames[i] = some f at hf
    rw [hf] at hnone
    cases hnone
  · rintro ⟨i, hi, hdead⟩
    refine ⟨i, hi, ?_⟩
    cases hframe : frames[i] with
    | none => rfl
    | some f =>
      refine absurd ⟨f, ?_⟩ hdead
      rw [Array.getElem?_eq_getElem hi, hframe]
      rfl

/-- There are runs where not all instructions have frames. -/
theorem exists_deadRun_of_any (h : frames.any Option.isNone = true) :
    ∃ start stop, DeadRun (Framed frames) frames.size start stop := by
  obtain ⟨i, hi, hdead⟩ := any_isNone_iff.mp h
  -- go back from there to where the run starts
  have hstart : ∀ i < frames.size, ¬ Framed frames i → ∃ start < frames.size,
      (start = 0 ∨ Framed frames (start - 1)) ∧ ¬ Framed frames start := by
    intro i
    induction i with
    | zero => exact fun hlt hdead => ⟨0, hlt, .inl rfl, hdead⟩
    | succ i ih =>
      intro hlt hdead
      by_cases hlive : Framed frames i
      · exact ⟨i + 1, hlt, .inr hlive, hdead⟩
      · exact ih (by omega) hlive
  obtain ⟨start, hlt, hbefore, hdead⟩ := hstart i hi hdead
  obtain ⟨stop, hrun⟩ := @exists_deadRun _ (frames.size - (start + 1)) start hbefore hdead
  rw [show start + 1 + (frames.size - (start + 1)) = frames.size by omega] at hrun
  exact ⟨start, stop, hrun⟩

theorem any_of_deadRun {start stop : Nat} (h : DeadRun (Framed frames) frames.size start stop) :
    frames.any Option.isNone = true :=
  any_isNone_iff.mpr ⟨start, Nat.lt_of_lt_of_le h.start_lt h.stop_le, h.dead start (Nat.le_refl _) h.start_lt⟩

theorem keptOf_start {start stop : Nat} (h : DeadRun (Framed frames) frames.size start stop) :
    (keptOf frames)[start]? = some true := by
  have hlen : (frames.toList.map Option.isSome).length =
    frames.size := by rw [List.length_map, Array.length_toList]
  have hlt := h.start_lt
  have hle := h.stop_le
  rcases h.before with rfl | ⟨f, hf⟩
  · exact kept_zero rfl (by omega)
  · by_cases hzero : start = 0
    · subst hzero
      exact kept_zero rfl (by omega)
    · have hnext := @kept_succ true _ (start - 1) (reachable_eq hf).1 (by omega)
      rwa [show start - 1 + 1 = start by omega] at hnext

theorem keptOf_inside {start stop i : Nat} (h : DeadRun (Framed frames) frames.size start stop)
    (hlt : start < i) (hi : i < stop) : (keptOf frames)[i]? = some false := by
  have hle := h.stop_le
  have hbefore := not_framed_eq (by omega) (h.dead (i - 1) (by omega) (by omega))
  have hhere := not_framed_eq (by omega) (h.dead i (by omega) hi)
  rw [show i = i - 1 + 1 by omega] at hhere ⊢
  exact kept_succ_false hbefore hhere

theorem stay_run {start stop : Nat} (h : DeadRun (Framed frames) frames.size start stop) :
    ∀ k, start + 1 + k ≤ stop → stay (keptOf frames) (start + 1 + k) = stay (keptOf frames) start + 1
  | 0, _ => stay_succ (keptOf_start h)
  | k + 1, hk => by
    have hgone := keptOf_inside h (show start < start + 1 + k by omega) (by omega)
    rw [← Nat.add_assoc, stay_succ_of_ne (by rw [hgone]; decide)]
    exact stay_run h k (by omega)

/-! ## Positions -/

theorem collapsedAt_eq_sub {i : Nat} (hi : i ≤ frames.size) :
    collapsedAt frames i = stay (keptOf frames) i - if (keptOf frames)[i]? = some false then 1 else 0 := by
  unfold collapsedAt position
  rw [List.getElem?_toArray, getElem?_positionsFrom 0 (by rw [length_keptOf]; exact hi), Nat.zero_add]
  rfl

theorem collapsedAt_le {i j : Nat} (hij : i ≤ j) (hj : j ≤ frames.size) :
    collapsedAt frames i ≤ collapsedAt frames j := by
  rcases Nat.eq_or_lt_of_le hij with rfl | hlt
  · exact Nat.le_refl _
  rw [collapsedAt_eq_sub (Nat.le_trans hij hj), collapsedAt_eq_sub hj]
  have hmono := @stay_mono (keptOf frames) (i + 1) j hlt
  cases hget : (keptOf frames)[i]? with
  | none =>
    rw [List.getElem?_eq_none_iff, length_keptOf] at hget
    omega
  | some stays =>
    cases stays with
    | true =>
      rw [stay_succ hget] at hmono
      split_ifs <;> omega
    | false =>
      rw [stay_succ_of_ne (by rw [hget]; decide)] at hmono
      rw [if_pos rfl]
      split_ifs <;> omega

/-- A run becomes one instruction. -/
theorem collapsedAt_deadRun {start stop : Nat} (h : DeadRun (Framed frames) frames.size start stop) :
    (∀ i, start ≤ i → i < stop → collapsedAt frames i = collapsedAt frames start) ∧
      collapsedAt frames stop = collapsedAt frames start + 1 := by
  have hlt := h.start_lt
  have hle := h.stop_le
  have hstart : collapsedAt frames start = stay (keptOf frames) start :=
    collapsedAt_eq (by omega) (by rw [keptOf_start h]; decide)
  rw [hstart]
  constructor
  · intro i hi hstop
    by_cases heq : i = start
    · rw [heq, hstart]
    · have hstay := stay_run h (i - (start + 1)) (by omega)
      rw [show start + 1 + (i - (start + 1)) = i by omega] at hstay
      rw [collapsedAt_eq_sub (by omega), if_pos (keptOf_inside h (by omega) hstop), hstay]
      rfl
  · -- behind the run one entry of it has been kept
    have hstay := stay_run h (stop - (start + 1)) (by omega)
    rw [show start + 1 + (stop - (start + 1)) = stop by omega] at hstay
    rw [← hstay]
    refine collapsedAt_eq hle ?_
    by_cases hend : stop < frames.size
    · obtain ⟨f, hf⟩ := h.after hend
      rw [keptOf_of_reachable hf]
      decide
    · rw [List.getElem?_eq_none (by rw [length_keptOf]; omega)]
      intro h
      cases h

/-- The instruction in place of a run is no other. -/
theorem collapsedAt_ne_deadRun {start stop i : Nat} (h : DeadRun (Framed frames) frames.size start stop)
    (hi : Framed frames i) : collapsedAt frames i ≠ collapsedAt frames start := by
  obtain ⟨f, hf⟩ := hi
  have hlt := h.start_lt
  have hle := h.stop_le
  have hsize := (reachable_eq hf).2.2
  by_cases hbefore : i < start
  · have hmono := collapsedAt_le (show i + 1 ≤ start from hbefore) (show start ≤ frames.size by omega)
    rw [collapsedAt_succ hf] at hmono
    omega
  · have hafter : stop ≤ i := by
      by_contra hinside
      exact h.dead i (by omega) (by omega) ⟨f, hf⟩
    have hmono := collapsedAt_le hafter (Nat.le_of_lt hsize)
    rw [(collapsedAt_deadRun h).2] at hmono
    omega

/-! ## Instructions -/

/-- What stands for an instruction that stays without being reachable. -/
theorem collapse_dead (hsize : frames.size = ops.length) {i : Nat} (hi : i < ops.length)
    (hdead : ¬ Framed frames i) (hkept : (keptOf frames)[i]? = some true) :
    (collapse ops frames handlers).ops[collapsedAt frames i]? = some (.branch .athrow) ∧
      (collapse ops frames handlers).frames[collapsedAt frames i]? =
        some ⟨[], [.object (.object .throwable)]⟩ := by
  have hframe : frames.toList[i]? = some none := by
    have hnone := not_framed_eq (by omega) hdead
    rw [List.getElem?_map] at hnone
    obtain ⟨frame, hframe, hnone⟩ := Option.map_eq_some_iff.mp hnone
    cases frame with
    | none => exact hframe
    | some f => cases hnone
  have hentry := getElem?_keptOps (List.getElem?_eq_getElem hi) hframe hkept
  rw [← collapsedAt_eq (by omega) (by rw [hkept]; decide)] at hentry
  constructor
  · change ((keptOps ops frames.toList (keptOf frames)).map _)[_]? = _
    rw [List.getElem?_map, hentry]
    rfl
  · change ((keptOps ops frames.toList (keptOf frames)).map _)[_]? = _
    rw [List.getElem?_map, hentry]
    rfl

/-- What stands for a run. -/
theorem collapse_deadRun (hsize : frames.size = ops.length) {start stop : Nat}
    (h : DeadRun (Framed frames) frames.size start stop) :
    (collapse ops frames handlers).ops[collapsedAt frames start]? = some (.branch .athrow) ∧
      (collapse ops frames handlers).frames[collapsedAt frames start]? =
      some ⟨[], [.object (.object .throwable)]⟩ := by
  have hlt := h.start_lt
  have hle := h.stop_le
  exact collapse_dead hsize (by omega) (h.dead start (Nat.le_refl _) hlt) (keptOf_start h)

/-- Whatever is left has a frame of its own or stands for one run. -/
theorem collapse_places (hsize : frames.size = ops.length) {p : Nat} {op' : CodeOp Nat}
    (h : (collapse ops frames handlers).ops[p]? = some op') :
    (∃ i, Framed frames i ∧ p = collapsedAt frames i) ∨
      ∃ start stop, DeadRun (Framed frames) frames.size start stop ∧ p = collapsedAt frames start := by
  change ((keptOps ops frames.toList (keptOf frames)).map _)[p]? = _ at h
  rw [List.getElem?_map] at h
  obtain ⟨entry, hentry, rfl⟩ := Option.map_eq_some_iff.mp h
  obtain ⟨i, op, frame, hop, hframe, hkeep, rfl, rfl⟩ := keptOps_cases hentry
  have hi := (List.getElem?_eq_some_iff.mp hop).1
  have hat : collapsedAt frames i = stay (keptOf frames) i := collapsedAt_eq (by omega) (by rw [hkeep]; decide)
  rw [← hat]
  by_cases hlive : Framed frames i
  · exact .inl ⟨i, hlive, rfl⟩
  · have hbefore : i = 0 ∨ Framed frames (i - 1) := by
      refine (kept_of_unreachable hkeep (not_framed_eq (by omega) hlive)).imp_right fun htrue => ?_
      by_contra hdead
      rw [not_framed_eq (by omega) hdead] at htrue
      cases htrue
    obtain ⟨stop, hrun⟩ := @exists_deadRun _ (frames.size - (i + 1)) i hbefore hlive
    rw [show i + 1 + (frames.size - (i + 1)) = frames.size by omega] at hrun
    exact .inr ⟨i, stop, hrun, rfl⟩

theorem length_keptOps : ∀ {ops : List (CodeOp Nat)} {frames : List (Option AnalysisFrame)} {keep : List Bool},
    frames.length = ops.length → keep.length = ops.length → (keptOps ops frames keep).length = keep.count true
  | [], [], [], _, _ => rfl
  | op :: ops, frame :: frames, true :: keep, hframes, hkeep => by
    rw [keptOps_cons_true, List.length_cons, List.count_cons_self,
      length_keptOps (Nat.succ_inj.mp hframes) (Nat.succ_inj.mp hkeep)]
  | op :: ops, frame :: frames, false :: keep, hframes, hkeep => by
    rw [keptOps_cons_false, List.count_cons_of_ne (by decide), length_keptOps (Nat.succ_inj.mp hframes)
      (Nat.succ_inj.mp hkeep)]

/-- The end of the code is still the end of the code. -/
theorem collapsedAt_end (hsize : frames.size = ops.length) :
    collapsedAt frames ops.length = (collapse ops frames handlers).ops.length := by
  have hkeep : (keptOf frames).length = ops.length := by rw [length_keptOf, hsize]
  have hend : (keptOf frames)[ops.length]? = none := List.getElem?_eq_none hkeep.le
  have hframes : frames.toList.length = ops.length := by rw [Array.length_toList, hsize]
  rw [collapsedAt_eq hsize.ge (by rw [hend]; decide)]
  change _ = ((keptOps ops frames.toList (keptOf frames)).map _).length
  rw [List.length_map, length_keptOps hframes hkeep]
  unfold stay
  rw [List.take_of_length_le hkeep.le]

theorem length_positionsFrom : ∀ (count : Nat) (keep : List Bool), (positionsFrom count keep).length =
    keep.length + 1
  | _, [] => rfl
  | count, true :: rest => congrArg Nat.succ (length_positionsFrom (count + 1) rest)
  | count, false :: rest => congrArg Nat.succ (length_positionsFrom count rest)

/-! ## Handlers -/

/-- A reachable instruction that is covered is in exactly one of the ranges. -/
theorem countP_reachableRanges {reachable : Nat → Bool} {i : Nat} (hi : reachable i = true) :
    ∀ {count index : Nat} {opened : Option Nat}, opened.getD index ≤ index →
      (reachableRanges reachable opened index count).countP
      (fun range => decide (range.1 ≤ i) && decide (i < range.2)) =
        if opened.getD index ≤ i ∧ i < index + count then 1 else 0
  | 0, index, none, _ => by
    rw [if_neg (by change ¬ (index ≤ i ∧ _); omega)]
    rfl
  | 0, index, some start, _ => by
    change List.countP _ [(start, index)] = if start ≤ i ∧ i < index then 1 else 0
    simp [List.countP_singleton]
  | count + 1, index, opened, hopened => by
    unfold reachableRanges
    by_cases hreach : reachable index = true
    · rw [if_pos hreach]
      rw [countP_reachableRanges hi (show opened.getD index ≤ index + 1 by omega), Nat.add_assoc,
        Nat.add_comm 1 count]
      rfl
    -- the range ends before this position, which is not the one counted
    · have hne : i ≠ index := by
        rintro rfl
        exact hreach hi
      rw [if_neg hreach, List.countP_append, @countP_reachableRanges reachable i hi count
        (index + 1) none (Nat.le_refl _)]
      change _ + (if index + 1 ≤ i ∧ i < index + 1 + count then 1 else 0) = _
      cases opened with
      | none =>
        change 0 + _ = if index ≤ i ∧ _ then 1 else 0
        split_ifs <;> omega
      | some start =>
        change start ≤ index at hopened
        change List.countP _ [(start, index)] + _ = if start ≤ i ∧ _ then 1 else 0
        simp only [List.countP_singleton, Bool.and_eq_true, decide_eq_true_eq]
        split_ifs <;> omega

/-- The range holds the instruction after collapsing if it did before. -/
theorem collapsedAt_mem_range {range : Nat × Nat} {i : Nat} (hlt : range.1 < range.2)
    (hrun : ∀ j, range.1 ≤ j → j < range.2 → Framed frames j) (hi : Framed frames i) :
    (collapsedAt frames range.1 ≤ collapsedAt frames i ∧ collapsedAt frames i < collapsedAt frames range.2) ↔
      range.1 ≤ i ∧ i < range.2 := by
  obtain ⟨f, hf⟩ := hi
  obtain ⟨g, hg⟩ := hrun (range.2 - 1) (by omega) (by omega)
  have hi := (reachable_eq hf).2.2
  have hlast := (reachable_eq hg).2.2
  have hsucc := collapsedAt_succ hf
  -- positions do not change their order, and what can be reached stays apart
  constructor
  · rintro ⟨hstart, hstop⟩
    constructor
    · by_contra hbefore
      have hmono := collapsedAt_le (show i + 1 ≤ range.1 by omega) (show range.1 ≤ frames.size by omega)
      omega
    · by_contra hafter
      have hmono := collapsedAt_le (show range.2 ≤ i by omega) (Nat.le_of_lt hi)
      omega
  · rintro ⟨hstart, hstop⟩
    have hfirst := collapsedAt_le hstart (Nat.le_of_lt hi)
    have hnext := collapsedAt_le (show i + 1 ≤ range.2 from hstop) (show range.2 ≤ frames.size by omega)
    omega

/-- Of the parts of a handler one covers a reachable instruction if the handler did, and none if it did not. -/
theorem filter_splitHandler {i : Nat} (hi : Framed frames i) (handler : Handler Nat BinaryName) :
    ((splitHandler (fun index => ((frames[index]?).join).isSome) (positionsFrom 0 (keptOf frames)).toArray
    handler).filter
        (·.covers (collapsedAt frames i))).map (fun h => (h.target, h.catches)) =
      if handler.covers i then [(collapsedAt frames handler.target, handler.catches)] else [] := by
  have hcount := @countP_reachableRanges (fun index => ((frames[index]?).join).isSome) i
    (Option.isSome_iff_exists.mpr hi) (handler.stop - handler.start) handler.start none (Nat.le_refl _)
  -- a range covers a position where both have moved if it did before
  have hsame : ∀ range ∈ reachableRanges (fun index => ((frames[index]?).join).isSome) none handler.start
      (handler.stop - handler.start),
      (decide (collapsedAt frames range.1 ≤ collapsedAt frames i) &&
        decide (collapsedAt frames i < collapsedAt frames range.2)) =
        (decide (range.1 ≤ i) && decide (i < range.2)) := by
    intro range hrange
    obtain ⟨-, hlt, -, hrun⟩ := reachableRanges_mem (fun start heq => by cases heq) hrange
    have hmem := collapsedAt_mem_range hlt (fun j hle hj => Option.isSome_iff_exists.mp (hrun j hle hj)) hi
    rw [Bool.eq_iff_iff, Bool.and_eq_true, Bool.and_eq_true]
    simpa only [decide_eq_true_eq] using hmem
  unfold splitHandler
  rw [List.filter_map, List.map_map]
  change ((List.filter (fun range : Nat × Nat => decide (collapsedAt frames range.1 ≤ collapsedAt frames i) &&
    decide (collapsedAt frames i < collapsedAt frames range.2)) _).map
      fun _ => (collapsedAt frames handler.target, handler.catches)) = _
  rw [List.filter_congr hsame, List.map_const', ← List.countP_eq_length_filter, hcount]
  have hcovers : handler.covers i = true ↔
      handler.start ≤ i ∧ i < handler.start + (handler.stop - handler.start) := by
    unfold Handler.covers
    rw [Bool.and_eq_true, decide_eq_true_eq, decide_eq_true_eq]
    omega
  change List.replicate (if handler.start ≤ i ∧ _ then 1 else 0) _ = _
  simp only [hcovers]
  split_ifs <;> rfl

/-- The handlers of a reachable instruction are those it had, in the same order. -/
theorem handlers_collapse {i : Nat} (hi : Framed frames i) :
    ((collapse ops frames handlers).handlers.filter (·.covers (collapsedAt frames i))).map
    (fun h => (h.target, h.catches)) =
      (handlers.filter (·.covers i)).map fun h => (collapsedAt frames h.target, h.catches) := by
  change ((handlers.flatMap (splitHandler _ (positionsFrom 0 (keptOf frames)).toArray)).filter _).map _ = _
  induction handlers with
  | nil => rfl
  | cons handler rest ih =>
    rw [List.flatMap_cons, List.filter_append, List.map_append, filter_splitHandler hi handler, ih,
      List.filter_cons]
    split_ifs
    · rfl
    · rfl

/-- A range begins where it must, or behind something that is not reachable, and so it ends. -/
theorem reachableRanges_ends {reachable : Nat → Bool} : ∀ {count index : Nat} {opened : Option Nat}
    {range : Nat × Nat}, range ∈ reachableRanges reachable opened index count →
      (opened = some range.1 ∨ opened = none ∧ range.1 = index ∨ reachable (range.1 - 1) = false) ∧
        (range.2 = index + count ∨ reachable range.2 = false)
  | 0, index, opened, range, h => by
    obtain ⟨start, hstart, rfl⟩ := List.mem_map.mp h
    exact ⟨.inl (Option.mem_toList.mp hstart), .inl rfl⟩
  | count + 1, index, opened, range, h => by
    unfold reachableRanges at h
    split_ifs at h with hreach
    · obtain ⟨hstart, hstop⟩ := reachableRanges_ends h
      refine ⟨?_, hstop.imp_left fun heq => by omega⟩
      rcases hstart with hopened | ⟨hnone, -⟩ | hbefore
      · cases opened with
        | none => exact .inr (.inl ⟨rfl, (Option.some.inj hopened).symm⟩)
        | some start => exact .inl hopened
      · cases hnone
      · exact .inr (.inr hbefore)
    · -- a range that was open ends here
      have hfalse : reachable index = false := by simpa using hreach
      rcases List.mem_append.mp h with h | h
      · obtain ⟨start, hstart, rfl⟩ := List.mem_map.mp h
        exact ⟨.inl (Option.mem_toList.mp hstart), .inr hfalse⟩
      · obtain ⟨hstart, hstop⟩ := reachableRanges_ends h
        refine ⟨.inr (.inr ?_), hstop.imp_left fun heq => by omega⟩
        rcases hstart with hnone | ⟨-, heq⟩ | hbefore
        · cases hnone
        · rw [heq]
          exact hfalse
        · exact hbefore

/-- A handler of collapsed code covers a run of reachable instructions that a handler covered, and ends only
where that one does or the run does. -/
theorem collapse_handler_ends {handler' : Handler Nat BinaryName}
    (h : handler' ∈ (collapse ops frames handlers).handlers) : ∃ handler ∈ handlers, ∃ start stop,
      handler'.start = collapsedAt frames start ∧ handler'.stop = collapsedAt frames stop ∧
        handler'.target = collapsedAt frames handler.target ∧ start < stop ∧
          (∀ i, start ≤ i → i < stop → handler.covers i = true ∧ Framed frames i) ∧
            (start = handler.start ∨ ¬ Framed frames (start - 1)) ∧
              (stop = handler.stop ∨ ¬ Framed frames stop) := by
  obtain ⟨handler, hmem, hsplit⟩ := List.mem_flatMap.mp h
  obtain ⟨range, hrange, rfl⟩ := List.mem_map.mp hsplit
  obtain ⟨hle, hlt, hstop, hrun⟩ := reachableRanges_mem (fun start heq => by cases heq) hrange
  change handler.start ≤ range.1 at hle
  -- a range ends where the handler does, or next to what cannot be reached
  obtain ⟨hfirst, hlast⟩ := reachableRanges_ends hrange
  have hdead : ∀ {i}, ((frames[i]?).join).isSome = false → ¬ Framed frames i := by
    rintro i hnone ⟨f, hf⟩
    rw [hf] at hnone
    cases hnone
  refine ⟨handler, hmem, range.1, range.2, rfl, rfl, rfl, hlt, fun i hlow hhigh => ⟨?_, ?_⟩, ?_, ?_⟩
  · unfold Handler.covers
    rw [Bool.and_eq_true, decide_eq_true_eq, decide_eq_true_eq]
    omega
  · exact Option.isSome_iff_exists.mp (hrun i hlow hhigh)
  · rcases hfirst with hnone | ⟨-, heq⟩ | hbefore
    · cases hnone
    · exact .inl heq
    · exact .inr (hdead hbefore)
  · exact hlast.imp (fun heq => by omega) hdead

/-- No handler covers what stands for a run. -/
theorem covers_deadRun {start stop : Nat} (h : DeadRun (Framed frames) frames.size start stop)
    {handler : Handler Nat BinaryName} (hmem : handler ∈ (collapse ops frames handlers).handlers) :
    handler.covers (collapsedAt frames start) = false := by
  obtain ⟨whole, -, hpart⟩ := collapse_handler hmem
  by_contra hcovers
  obtain ⟨i, f, -, hf, heq⟩ := hpart.covered _ (Bool.eq_true_of_not_eq_false hcovers)
  exact collapsedAt_ne_deadRun h ⟨f, hf⟩ heq.symm

/-! ## What is preserved -/

/-- Where an instruction of the code before is in the body. -/
def placeOf (body : MethodBody) (index : Nat) : Nat :=
  position body.positions index

/-- The body does what the code does that has the frames `frames`. -/
structure Preserves (ops : List (CodeOp Nat)) (handlers : List (Handler Nat BinaryName))
    (frames : Array (Option AnalysisFrame)) (body : MethodBody) : Prop where
  size : body.positions.size = ops.length + 1
  place_end : body.placeOf ops.length = body.ops.length
  framed : body.frames.length = body.ops.length
  mono : ∀ {i j}, i ≤ j → j ≤ ops.length → body.placeOf i ≤ body.placeOf j
  distinct : ∀ {i j}, Reachable ops handlers i → Reachable ops handlers j →
    body.placeOf i = body.placeOf j → i = j
  stays : ∀ {i}, Reachable ops handlers i → ∃ op f, ops[i]? = some op ∧ (frames[i]?).join = some f ∧
    body.ops[body.placeOf i]? = some (op.mapTargets body.placeOf) ∧
      body.frames[body.placeOf i]? = some (relocate body.positions f)
  next : ∀ {i}, Reachable ops handlers i → body.placeOf (i + 1) = body.placeOf i + 1
  run : ∀ {start stop}, DeadRun (Reachable ops handlers) ops.length start stop →
    (∀ i, start ≤ i → i < stop → body.placeOf i = body.placeOf start) ∧
    body.placeOf stop = body.placeOf start + 1 ∧
      body.ops[body.placeOf start]? = some (.branch .athrow) ∧
        body.frames[body.placeOf start]? = some ⟨[], [.object (.object .throwable)]⟩
  places : ∀ p < body.ops.length, (∃ i, Reachable ops handlers i ∧ p = body.placeOf i) ∨
    ∃ start stop, DeadRun (Reachable ops handlers) ops.length start stop ∧ p = body.placeOf start
  unreached : ∀ {start stop p : Nat} {op : CodeOp Nat}, DeadRun (Reachable ops handlers) ops.length start stop →
    body.ops[p]? = some op → ¬ op.Follows body.handlers p (body.placeOf start)
  covering : ∀ {i}, Reachable ops handlers i →
    (body.handlers.filter (·.covers (body.placeOf i))).map (fun h => (h.target, h.catches)) =
      (handlers.filter (·.covers i)).map fun h => (body.placeOf h.target, h.catches)
  uncovered : ∀ {start stop handler}, DeadRun (Reachable ops handlers) ops.length start stop →
    handler ∈ body.handlers → handler.covers (body.placeOf start) = false
  nonempty : ∀ handler ∈ body.handlers, handler.start < handler.stop

/-- What may come after an instruction of collapsed code is in the place of a reachable instruction. -/
theorem follows_collapse (hframed : ∀ i, Framed frames i ↔ Reachable ops handlers i)
    (hinside : ∀ i, Reachable ops handlers i → i < ops.length) {p next : Nat} {op' : CodeOp Nat}
    (hop' : (collapse ops frames handlers).ops[p]? = some op')
    (h : op'.Follows (collapse ops frames handlers).handlers p next) :
    ∃ i, Reachable ops handlers i ∧ next = collapsedAt frames i := by
  cases h with
  | thrown hmem hcovers =>
    obtain ⟨whole, hwhole, hpart⟩ := collapse_handler hmem
    obtain ⟨i, f, hi, hf, rfl⟩ := hpart.covered _ hcovers
    have hreach := (hframed i).mp ⟨f, hf⟩
    exact ⟨whole.target, .thrown hreach (hinside i hreach) hwhole hi, hpart.target⟩
  | next hfalls =>
    rcases collapse_cases hop' with ⟨i, op, f, hop, hf, rfl, rfl⟩ | ⟨rfl, -⟩
    · rw [CodeOp.fallsThrough_mapTargets] at hfalls
      exact ⟨i + 1, .next ((hframed i).mp ⟨f, hf⟩) hop hfalls, (collapsedAt_succ hf).symm⟩
    · -- an `athrow` that was put there leads nowhere
      cases hfalls
  | target htarget =>
    rcases collapse_cases hop' with ⟨i, op, f, hop, hf, rfl, rfl⟩ | ⟨rfl, -⟩
    · rw [CodeOp.targets_mapTargets] at htarget
      obtain ⟨target, hmem, rfl⟩ := List.mem_map.mp htarget
      exact ⟨target, .target ((hframed i).mp ⟨f, hf⟩) hop hmem, rfl⟩
    · cases htarget

/-- What can be reached in collapsed code are the places of reachable instructions. -/
theorem reachable_collapse (hframed : ∀ i, Framed frames i ↔ Reachable ops handlers i)
    (hinside : ∀ i, Reachable ops handlers i → i < ops.length) {p : Nat} :
    Reachable (collapse ops frames handlers).ops (collapse ops frames handlers).handlers p ↔
      ∃ i, Reachable ops handlers i ∧ p = collapsedAt frames i := by
  have hzero : collapsedAt frames 0 = 0 := by
    obtain ⟨f, hf⟩ := (hframed 0).mpr .start
    exact collapsedAt_reachable hf
  constructor
  · intro hp
    -- what follows in the collapsed code is the place of something that follows in the code
    cases hp with
    | start => exact ⟨0, .start, hzero.symm⟩
    | next _ hop' hfalls => exact follows_collapse hframed hinside hop' (.next hfalls)
    | target _ hop' htarget => exact follows_collapse hframed hinside hop' (.target htarget)
    | thrown _ hlt hmem hcovers =>
      exact follows_collapse hframed hinside (List.getElem?_eq_getElem hlt) (.thrown hmem hcovers)
  -- along the path to the instruction: each of its steps is one in the collapsed code
  · rintro ⟨i, hi, rfl⟩
    have hstays : ∀ {i op}, Reachable ops handlers i → ops[i]? = some op →
        (collapse ops frames handlers).ops[collapsedAt frames i]? =
        some (op.mapTargets (collapsedAt frames)) := by
      intro i op hi hop
      obtain ⟨f, hf⟩ := (hframed i).mpr hi
      exact (collapse_reachable hop hf).1
    induction hi with
    | start =>
      rw [hzero]
      exact .start
    | @next i op hi hop hfalls ih =>
      obtain ⟨f, hf⟩ := (hframed i).mpr hi
      rw [collapsedAt_succ hf]
      exact ih.next (hstays hi hop) (by rw [CodeOp.fallsThrough_mapTargets]; exact hfalls)
    | @target i target op hi hop htarget ih =>
      refine ih.target (hstays hi hop) ?_
      rw [CodeOp.targets_mapTargets]
      exact List.mem_map.mpr ⟨target, htarget, rfl⟩
    | @thrown i handler hi hlt hmem hcovers ih =>
      obtain ⟨f, hf⟩ := (hframed i).mpr hi
      obtain ⟨handler', hmem', htarget, -, hstart, hstop⟩ := @collapse_covers ops _ _ _ hmem _ _ hcovers hf
      have hcovers' : handler'.covers (collapsedAt frames i) = true := by
        unfold Handler.covers
        rw [Bool.and_eq_true, decide_eq_true_eq, decide_eq_true_eq]
        exact ⟨hstart, hstop⟩
      rw [← htarget]
      exact ih.thrown (List.getElem?_eq_some_iff.mp (hstays hi (List.getElem?_eq_getElem hlt))).1 hmem' hcovers'

/-- Collapsing the unreachable code of an analyzed method preserves the method. -/
theorem collapse_preserves {υ : Type} {context : MethodContext} {hints : FrameHints υ} {s : Analysis}
    (h : analyze context ops handlers hints = .ok s) :
    (collapse ops s.frames handlers).Preserves ops handlers s.frames := by
  have hcovers := covers_analyze h
  have hsize := hcovers.size
  have hframed : ∀ i, Framed s.frames i ↔ Reachable ops handlers i := fun i =>
    ⟨fun ⟨f, hf⟩ => reachable_of_frameAt h hf, fun hi => hcovers.frameAt_of_reachable hi⟩
  have hinside : ∀ i, Reachable ops handlers i → i < ops.length := fun i hi => by
    obtain ⟨f, hf⟩ := (hframed i).mpr hi
    have hlt := (reachable_eq hf).2.2
    omega
  -- runs of dead code say the same in terms of frames and of control flow
  have hrun : ∀ {start stop}, DeadRun (Reachable ops handlers) ops.length start stop ↔
      DeadRun (Framed s.frames) s.frames.size start stop := by
    intro start stop
    rw [show Framed s.frames = Reachable ops handlers from funext fun i => propext (hframed i), hsize]
  constructor
  case size =>
    change (positionsFrom 0 (keptOf s.frames)).toArray.size = _
    rw [List.size_toArray, length_positionsFrom, length_keptOf, hsize]
  case place_end => exact collapsedAt_end hsize
  case framed => exact length_collapse
  case mono => exact fun hij hj => collapsedAt_le hij (by omega)
  case distinct =>
    intro i j hi hj heq
    obtain ⟨f, hf⟩ := (hframed i).mpr hi
    obtain ⟨g, hg⟩ := (hframed j).mpr hj
    exact collapsedAt_inj hf hg heq
  case stays =>
    intro i hi
    obtain ⟨f, hf⟩ := (hframed i).mpr hi
    obtain ⟨op, hop⟩ := hcovers.op_of_frameAt hf
    exact ⟨op, f, hop, hf, collapse_reachable hop hf⟩
  case next =>
    intro i hi
    obtain ⟨f, hf⟩ := (hframed i).mpr hi
    exact collapsedAt_succ hf
  case run =>
    intro start stop hdead
    obtain ⟨hsame, hstop⟩ := collapsedAt_deadRun (hrun.mp hdead)
    exact ⟨hsame, hstop, collapse_deadRun hsize (hrun.mp hdead)⟩
  case places =>
    intro p hp
    rcases collapse_places hsize (List.getElem?_eq_getElem hp) with ⟨i, hi, rfl⟩ | ⟨start, stop, hdead, rfl⟩
    · exact .inl ⟨i, (hframed i).mp hi, rfl⟩
    · exact .inr ⟨start, stop, hrun.mpr hdead, rfl⟩
  -- control only comes to where a frame was, and no such place is that of a dead run
  case unreached =>
    intro start stop p op hdead hop hfollows
    obtain ⟨i, hi, heq⟩ := follows_collapse hframed hinside hop hfollows
    exact collapsedAt_ne_deadRun (hrun.mp hdead) ((hframed i).mpr hi) heq.symm
  case covering => exact fun {i} hi => handlers_collapse ((hframed i).mpr hi)
  case uncovered => exact fun hdead hmem => covers_deadRun (hrun.mp hdead) hmem
  case nonempty =>
    intro handler hmem
    obtain ⟨whole, -, hpart⟩ := collapse_handler hmem
    exact hpart.start_lt

/-- A static method without parameters, in a class that nothing is known of. -/
def gapContext : MethodContext :=
  ⟨⟨⟨"C", Eq.refl true⟩, ⟨"m", Eq.refl true⟩, ⟨[], none⟩⟩, true, true, .empty⟩

/-- Two instructions that nothing leads to, and what handles everything before the end. -/
def gapCode : List (CodeOp Nat) :=
  [.branch (.goto 3), .plain (.simple .nop), .plain (.simple .nop), .plain (.simple .nop), .branch .returnVoid,
    .branch .athrow]

/-- The frames of `gapCode`. -/
def gapFrames : Array (Option AnalysisFrame) :=
  #[some ⟨[], []⟩, none, none, some ⟨[], []⟩, some ⟨[], []⟩, some ⟨[], [.object (.object .throwable)]⟩]

/-- The two become one, and the handler goes around it. -/
theorem collapse_preserves_gap :
    analyze gapContext gapCode [⟨0, 4, 5, none⟩] (fun _ => (none : Option (Frame RefType Label))) = .ok
    ⟨gapFrames, 1, []⟩ ∧
      (collapse gapCode gapFrames [⟨0, 4, 5, none⟩]).positions = #[0, 1, 1, 2, 3, 4, 5] ∧
      (collapse gapCode gapFrames [⟨0, 4, 5, none⟩]).handlers = [⟨0, 1, 4, none⟩, ⟨2, 3, 4, none⟩] ∧
      (collapse gapCode gapFrames [⟨0, 4, 5, none⟩]).Preserves gapCode [⟨0, 4, 5, none⟩] gapFrames := by
  have h : analyze gapContext gapCode [⟨0, 4, 5, none⟩] (fun _ => (none : Option (Frame RefType Label))) =
      .ok ⟨gapFrames, 1, []⟩ := rfl
  exact ⟨h, rfl, rfl, collapse_preserves h⟩

end MethodBody

end ClassWeave
