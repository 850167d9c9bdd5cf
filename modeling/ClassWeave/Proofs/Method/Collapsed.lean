import ClassWeave.Method.Collapse
import ClassWeave.Proofs.Analysis.Steps

/-!
# What stays of collapsed code

Reachable instructions stay, in their order and next to each other where they were before; each takes its frame and
its handlers along. What else is left are single `athrow`s, which no handler covers.
-/

namespace ClassWeave

namespace MethodBody

/-! ## Lists of instructions that stay -/

theorem length_kept : ∀ (previous : Bool) (reachable : List Bool), (kept previous reachable).length =
    reachable.length
  | _, [] => rfl
  | _, _ :: rest => congrArg Nat.succ (length_kept _ rest)

theorem kept_of_reachable : ∀ {previous : Bool} {reachable : List Bool} {i : Nat}, reachable[i]? = some true →
    (kept previous reachable)[i]? = some true
  | _, _ :: _, 0, h => by
    cases h
    rfl
  | _, _ :: rest, i + 1, h => @kept_of_reachable _ rest i h

/-- What follows a reachable instruction stays. -/
theorem kept_succ : ∀ {previous : Bool} {reachable : List Bool} {i : Nat}, reachable[i]? = some true →
    i + 1 < reachable.length → (kept previous reachable)[i + 1]? = some true
  | _, [_], 0, _, hlt => absurd hlt (Nat.lt_irrefl _)
  | _, _ :: next :: rest, 0, h, _ => by
    cases h
    change some (next || true) = some true
    rw [Bool.or_true]
  | _, _ :: rest, i + 1, h, hlt => @kept_succ _ rest i h (Nat.lt_of_succ_lt_succ hlt)

/-- How many of the first `i` instructions stay. -/
def stay (keep : List Bool) (i : Nat) : Nat :=
  (keep.take i).count true

theorem stay_succ {keep : List Bool} {i : Nat} (h : keep[i]? = some true) :
    stay keep (i + 1) = stay keep i + 1 := by
  unfold stay
  rw [List.take_add_one, h, List.count_append]
  rfl

theorem stay_cons_true (keep : List Bool) (i : Nat) : stay (true :: keep) (i + 1) = stay keep i + 1 := by
  unfold stay
  rw [List.take_succ_cons, List.count_cons_self]

theorem stay_cons_false (keep : List Bool) (i : Nat) : stay (false :: keep) (i + 1) = stay keep i := by
  unfold stay
  rw [List.take_succ_cons, List.count_cons_of_ne (by decide)]

theorem stay_mono {keep : List Bool} {i j : Nat} (h : i ≤ j) : stay keep i ≤ stay keep j :=
  ((List.take_prefix_take_left (l := keep) h).sublist).count_le true

theorem getElem?_positionsFrom : ∀ {keep : List Bool} {i : Nat} (count : Nat), i ≤ keep.length →
    (positionsFrom count keep)[i]? = some (count + stay keep i - if keep[i]? = some false then 1 else 0)
  | [], 0, count, _ => rfl
  | true :: _, 0, count, _ => rfl
  | false :: _, 0, count, _ => rfl
  | true :: rest, i + 1, count, h => by
    have ih := @getElem?_positionsFrom rest i (count + 1) (Nat.le_of_succ_le_succ h)
    change (positionsFrom (count + 1) rest)[i]? = _
    rw [ih, stay_cons_true, Nat.add_right_comm, Nat.add_assoc]
    rfl
  | false :: rest, i + 1, count, h => by
    have ih := @getElem?_positionsFrom rest i count (Nat.le_of_succ_le_succ h)
    change (positionsFrom count rest)[i]? = _
    rw [ih, stay_cons_false]
    rfl

/-- What an instruction that stays turns into. -/
def entryOf (op : CodeOp Nat) : Option AnalysisFrame → CodeOp Nat × AnalysisFrame
  | some frame => (op, frame)
  | none => dead

theorem keptOps_cons_true (op : CodeOp Nat) (ops : List (CodeOp Nat)) (frame : Option AnalysisFrame)
    (frames : List (Option AnalysisFrame)) (keep : List Bool) :
    keptOps (op :: ops) (frame :: frames) (true :: keep) = entryOf op frame :: keptOps ops frames keep := by
  cases frame <;> rfl

theorem keptOps_cons_false (op : CodeOp Nat) (ops : List (CodeOp Nat)) (frame : Option AnalysisFrame)
    (frames : List (Option AnalysisFrame)) (keep : List Bool) :
    keptOps (op :: ops) (frame :: frames) (false :: keep) = keptOps ops frames keep := by
  cases frame <;> rfl

theorem getElem?_keptOps {ops : List (CodeOp Nat)} {frames : List (Option AnalysisFrame)}
    {keep : List Bool} {i : Nat} {op : CodeOp Nat} {frame : Option AnalysisFrame} (hop : ops[i]? = some op)
    (hframe : frames[i]? = some frame) (hkeep : keep[i]? = some true) :
    (keptOps ops frames keep)[stay keep i]? = some (entryOf op frame) := by
  induction i generalizing ops frames keep with
  | zero =>
    obtain ⟨ops, rfl⟩ := List.head?_eq_some_iff.mp (List.head?_eq_getElem? ▸ hop)
    obtain ⟨frames, rfl⟩ := List.head?_eq_some_iff.mp (List.head?_eq_getElem? ▸ hframe)
    obtain ⟨keep, rfl⟩ := List.head?_eq_some_iff.mp (List.head?_eq_getElem? ▸ hkeep)
    rw [keptOps_cons_true]
    rfl
  | succ i ih =>
    cases ops with
    | nil => cases hop
    | cons op' ops =>
      cases frames with
      | nil => cases hframe
      | cons frame' frames =>
        cases keep with
        | nil => cases hkeep
        | cons stays keep =>
          have ih := ih (show ops[i]? = some op from hop) (show frames[i]? = some frame from hframe)
            (show keep[i]? = some true from hkeep)
          -- the first entry moves the others up by one, or is dropped
          cases stays with
          | true =>
            rw [keptOps_cons_true, stay_cons_true]
            exact ih
          | false =>
            rw [keptOps_cons_false, stay_cons_false]
            exact ih

/-- Everything that is left stands for an instruction that stays. -/
theorem keptOps_cases : ∀ {ops : List (CodeOp Nat)} {frames : List (Option AnalysisFrame)}
    {keep : List Bool} {p : Nat} {entry : CodeOp Nat × AnalysisFrame}, (keptOps ops frames keep)[p]? =
    some entry →
      ∃ i op frame, ops[i]? = some op ∧ frames[i]? = some frame ∧ keep[i]? = some true ∧ p = stay keep i ∧
        entry = entryOf op frame
  | op :: ops, frame :: frames, true :: keep, 0, entry, h => by
    rw [keptOps_cons_true] at h
    cases h
    exact ⟨0, op, frame, rfl, rfl, rfl, rfl, rfl⟩
  | op :: ops, frame :: frames, true :: keep, p + 1, entry, h => by
    rw [keptOps_cons_true] at h
    obtain ⟨i, op', frame', hop, hframe, hkeep, rfl, rfl⟩ := keptOps_cases
      (show (keptOps ops frames keep)[p]? = some entry from h)
    exact ⟨i + 1, op', frame', hop, hframe, hkeep, (stay_cons_true keep i).symm, rfl⟩
  | op :: ops, frame :: frames, false :: keep, p, entry, h => by
    rw [keptOps_cons_false] at h
    obtain ⟨i, op', frame', hop, hframe, hkeep, rfl, rfl⟩ := keptOps_cases h
    exact ⟨i + 1, op', frame', hop, hframe, hkeep, (stay_cons_false keep i).symm, rfl⟩
  | [], _, _, _, _, h => by cases h
  | _ :: _, [], _, _, _, h => by cases h
  | _ :: _, _ :: _, [], _, _, h => by cases h

/-! ## Positions -/

variable {ops : List (CodeOp Nat)} {frames : Array (Option AnalysisFrame)}
  {handlers : List (Handler Nat BinaryName)}

/-- The instructions that stay in code with these frames. -/
def keptOf (frames : Array (Option AnalysisFrame)) : List Bool :=
  kept true (frames.toList.map Option.isSome)

/-- Where an instruction goes when code is collapsed. -/
def collapsedAt (frames : Array (Option AnalysisFrame)) (index : Nat) : Nat :=
  position (positionsFrom 0 (keptOf frames)).toArray index

theorem length_keptOf (frames : Array (Option AnalysisFrame)) : (keptOf frames).length = frames.size := by
  unfold keptOf
  rw [length_kept, List.length_map, Array.length_toList]

theorem reachable_eq {i : Nat} {f : AnalysisFrame} (hf : (frames[i]?).join = some f) :
    (frames.toList.map Option.isSome)[i]? = some true ∧ frames.toList[i]? = some (some f) ∧
    i < frames.size := by
  cases hget : frames[i]? with
  | none => rw [hget] at hf; cases hf
  | some o =>
    rw [hget] at hf
    change o = some f at hf
    subst hf
    have hlist : frames.toList[i]? = some (some f) := by rw [Array.getElem?_toList]; exact hget
    refine ⟨?_, hlist, (Array.getElem?_eq_some_iff.mp hget).1⟩
    rw [List.getElem?_map, hlist]
    rfl

theorem keptOf_of_reachable {i : Nat} {f : AnalysisFrame} (hf : (frames[i]?).join = some f) :
    (keptOf frames)[i]? = some true :=
  kept_of_reachable (reachable_eq hf).1

theorem collapsedAt_eq {i : Nat} (hi : i ≤ frames.size) (hkeep : (keptOf frames)[i]? ≠ some false) :
    collapsedAt frames i = stay (keptOf frames) i := by
  unfold collapsedAt position
  rw [List.getElem?_toArray, getElem?_positionsFrom 0 (by rw [length_keptOf]; exact hi), if_neg hkeep]
  exact Nat.zero_add _

theorem collapsedAt_reachable {i : Nat} {f : AnalysisFrame} (hf : (frames[i]?).join = some f) :
    collapsedAt frames i = stay (keptOf frames) i := by
  refine collapsedAt_eq (Nat.le_of_lt (reachable_eq hf).2.2) ?_
  rw [keptOf_of_reachable hf]
  intro h
  cases h

/-- What follows a reachable instruction, or the end, still comes right after it. -/
theorem collapsedAt_succ {i : Nat} {f : AnalysisFrame} (hf : (frames[i]?).join = some f) :
    collapsedAt frames (i + 1) = collapsedAt frames i + 1 := by
  obtain ⟨hreach, -, hlt⟩ := reachable_eq hf
  rw [collapsedAt_reachable hf, ← stay_succ (keptOf_of_reachable hf)]
  refine collapsedAt_eq hlt ?_
  by_cases hend : i + 1 < frames.size
  · have hnext : (keptOf frames)[i + 1]? = some true :=
      kept_succ hreach (by rw [List.length_map, Array.length_toList]; exact hend)
    rw [hnext]
    intro h
    cases h
  · rw [List.getElem?_eq_none (by rw [length_keptOf]; omega)]
    intro h
    cases h

/-- Reachable instructions stay in order. -/
theorem collapsedAt_lt {i j : Nat} {f g : AnalysisFrame} (hij : i < j) (hf : (frames[i]?).join = some f)
    (hg : (frames[j]?).join = some g) : collapsedAt frames i < collapsedAt frames j := by
  rw [collapsedAt_reachable hf, collapsedAt_reachable hg]
  have hmono := @stay_mono (keptOf frames) _ _ (show i + 1 ≤ j from hij)
  rw [stay_succ (keptOf_of_reachable hf)] at hmono
  exact hmono

theorem collapsedAt_inj {i j : Nat} {f g : AnalysisFrame} (hf : (frames[i]?).join = some f)
    (hg : (frames[j]?).join = some g) (heq : collapsedAt frames i = collapsedAt frames j) : i = j := by
  rcases Nat.lt_trichotomy i j with hlt | rfl | hlt
  · have := collapsedAt_lt hlt hf hg
    omega
  · rfl
  · have := collapsedAt_lt hlt hg hf
    omega

/-- In a run of reachable instructions all stay next to each other. -/
theorem collapsedAt_run {start : Nat} : ∀ {count : Nat},
    (∀ i, start ≤ i → i < start + count → ∃ f, (frames[i]?).join = some f) →
      collapsedAt frames (start + count) = collapsedAt frames start + count
  | 0, _ => rfl
  | count + 1, h => by
    obtain ⟨f, hf⟩ := h (start + count) (by omega) (by omega)
    have ih := @collapsedAt_run start count fun i hi hlt => h i hi (by omega)
    rw [← Nat.add_assoc, collapsedAt_succ hf, ih]
    rfl

theorem collapsedAt_between {start stop i : Nat}
    (h : ∀ j, start ≤ j → j < stop → ∃ f, (frames[j]?).join = some f) (hle : start ≤ i) (hi : i ≤ stop) :
    collapsedAt frames i = collapsedAt frames start + (i - start) := by
  have hrun := @collapsedAt_run frames start (i - start) fun j hj hlt => h j hj (by omega)
  rwa [show start + (i - start) = i by omega] at hrun

/-! ## Instructions -/

/-- A reachable instruction with its frame. -/
theorem collapse_reachable {i : Nat} {op : CodeOp Nat} {f : AnalysisFrame} (hop : ops[i]? = some op)
    (hf : (frames[i]?).join = some f) :
    (collapse ops frames handlers).ops[collapsedAt frames i]? = some (op.mapTargets (collapsedAt frames)) ∧
      (collapse ops frames handlers).frames[collapsedAt frames i]? =
        some (relocate (collapse ops frames handlers).positions f) := by
  have hentry := getElem?_keptOps hop (reachable_eq hf).2.1 (keptOf_of_reachable hf)
  rw [← collapsedAt_reachable hf] at hentry
  constructor
  · change ((keptOps ops frames.toList (keptOf frames)).map _)[_]? = _
    rw [List.getElem?_map, hentry]
    rfl
  · change ((keptOps ops frames.toList (keptOf frames)).map _)[_]? = _
    rw [List.getElem?_map, hentry]
    rfl

/-- Whatever is left is a reachable instruction or stands for unreachable ones. -/
theorem collapse_cases {p : Nat} {op' : CodeOp Nat} (h : (collapse ops frames handlers).ops[p]? = some op') :
    (∃ i op f, ops[i]? = some op ∧ (frames[i]?).join = some f ∧ p = collapsedAt frames i ∧
      op' = op.mapTargets (collapsedAt frames)) ∨
    (op' = .branch .athrow ∧ (collapse ops frames handlers).frames[p]? =
        some ⟨[], [.object (.object .throwable)]⟩) := by
  change ((keptOps ops frames.toList (keptOf frames)).map _)[p]? = _ at h
  rw [List.getElem?_map] at h
  obtain ⟨entry, hentry, rfl⟩ := Option.map_eq_some_iff.mp h
  obtain ⟨i, op, frame, hop, hframe, hkeep, rfl, rfl⟩ := keptOps_cases hentry
  cases frame with
  | some f =>
    have hf : (frames[i]?).join = some f := by
      rw [← Array.getElem?_toList, hframe]
      rfl
    exact .inl ⟨i, op, f, hop, hf, (collapsedAt_reachable hf).symm, rfl⟩
  | none =>
    refine .inr ⟨rfl, ?_⟩
    change ((keptOps ops frames.toList (keptOf frames)).map _)[_]? = _
    rw [List.getElem?_map, hentry]
    rfl

theorem length_collapse : (collapse ops frames handlers).frames.length =
    (collapse ops frames handlers).ops.length := by
  change ((keptOps ops frames.toList (keptOf frames)).map _).length =
    ((keptOps ops frames.toList (keptOf frames)).map _).length
  rw [List.length_map, List.length_map]

/-! ## Handlers -/

/-- The ranges are runs of reachable instructions. -/
theorem reachableRanges_mem {reachable : Nat → Bool} : ∀ {count index : Nat} {opened : Option Nat}
    {range : Nat × Nat}, (∀ start, opened = some start → start < index ∧ ∀ i, start ≤ i → i < index →
    reachable i = true) →
      range ∈ reachableRanges reachable opened index count →
        opened.getD index ≤ range.1 ∧ range.1 < range.2 ∧ range.2 ≤ index + count ∧
          ∀ i, range.1 ≤ i → i < range.2 → reachable i = true
  | 0, index, opened, range, ho, h => by
    obtain ⟨start, hstart, rfl⟩ := List.mem_map.mp h
    obtain rfl := Option.mem_toList.mp hstart
    obtain ⟨hlt, hrun⟩ := ho start rfl
    exact ⟨Nat.le_refl _, hlt, Nat.le_refl _, hrun⟩
  | count + 1, index, opened, range, ho, h => by
    unfold reachableRanges at h
    split_ifs at h with hreach
    -- the range goes on, or begins here
    · have ho' : ∀ start, some (opened.getD index) = some start →
          start < index + 1 ∧ ∀ i, start ≤ i → i < index + 1 → reachable i = true := by
        rintro start heq
        cases heq
        cases opened with
        | none =>
          refine ⟨Nat.lt_succ_self _, fun i hle hlt => ?_⟩
          have : i = index := by change index ≤ i at hle; omega
          rw [this]
          exact hreach
        | some start =>
          obtain ⟨hlt, hrun⟩ := ho start rfl
          refine ⟨by change start < index + 1; omega, fun i hle hi => ?_⟩
          by_cases heq : i = index
          · rw [heq]
            exact hreach
          · exact hrun i hle (by omega)
      obtain ⟨h1, h2, h3, h4⟩ := reachableRanges_mem ho' h
      exact ⟨h1, h2, by omega, h4⟩
    -- the range that was open ends here, and others begin behind it
    · rcases List.mem_append.mp h with h | h
      · obtain ⟨start, hstart, rfl⟩ := List.mem_map.mp h
        obtain rfl := Option.mem_toList.mp hstart
        obtain ⟨hlt, hrun⟩ := ho start rfl
        exact ⟨Nat.le_refl _, hlt, by dsimp only; omega, hrun⟩
      · obtain ⟨h1, h2, h3, h4⟩ := reachableRanges_mem (fun start heq => by cases heq) h
        change index + 1 ≤ range.1 at h1
        refine ⟨?_, h2, by omega, h4⟩
        cases opened with
        | none => change index ≤ range.1; omega
        | some start =>
          have := (ho start rfl).1
          change start ≤ range.1
          omega

/-- Every reachable instruction is in one of the ranges. -/
theorem reachableRanges_covers {reachable : Nat → Bool} : ∀ {count index i : Nat} {opened : Option Nat},
    opened.getD index ≤ index → (opened.getD index ≤ i ∧ i < index ∨ index ≤ i ∧ i < index + count ∧
    reachable i = true) →
      ∃ range ∈ reachableRanges reachable opened index count, range.1 ≤ i ∧ i < range.2
  | 0, index, i, none, _, h => by
    change index ≤ i ∧ _ ∨ _ at h
    omega
  | 0, index, i, some start, _, h => by
    change start ≤ i ∧ _ ∨ _ at h
    exact ⟨(start, index), List.mem_map.mpr ⟨start, Option.mem_toList.mpr rfl,
      rfl⟩, by omega, by dsimp only; omega⟩
  | count + 1, index, i, opened, ho, h => by
    unfold reachableRanges
    split_ifs with hreach
    · refine reachableRanges_covers (show opened.getD index ≤ index + 1 by omega) ?_
      change opened.getD index ≤ i ∧ _ ∨ _
      rcases h with ⟨hle, hlt⟩ | ⟨hle, hlt, hi⟩
      · exact .inl ⟨hle, by omega⟩
      · by_cases heq : i = index
        · exact .inl ⟨by omega, by omega⟩
        · exact .inr ⟨by omega, by omega, hi⟩
    · rcases h with ⟨hle, hlt⟩ | ⟨hle, hlt, hi⟩
      -- in the range that ends here
      · cases opened with
        | none =>
          change index ≤ i at hle
          omega
        | some start =>
          exact ⟨(start, index), List.mem_append_left _
            (List.mem_map.mpr ⟨start, Option.mem_toList.mpr rfl, rfl⟩), hle, hlt⟩
      · have hne : i ≠ index := by
          rintro rfl
          exact hreach hi
        -- or in one that begins later
        obtain ⟨range, hmem, hrange⟩ := @reachableRanges_covers reachable count
          (index + 1) i none (Nat.le_refl _) (.inr ⟨by omega, by omega, hi⟩)
        exact ⟨range, List.mem_append_right _ hmem, hrange⟩

/-- A handler of collapsed code: a part of one that was there before, from a reachable instruction to another,
and it covers nothing but instructions that the whole handler covered. -/
structure PartOf (frames : Array (Option AnalysisFrame)) (handler handler' : Handler Nat BinaryName) :
    Prop where
  target : handler'.target = collapsedAt frames handler.target
  catches : handler'.catches = handler.catches
  start : ∃ i f, handler.covers i = true ∧ (frames[i]?).join = some f ∧ handler'.start = collapsedAt frames i
  stop : ∃ i f, handler.covers i = true ∧ (frames[i]?).join = some f ∧ handler'.stop = collapsedAt frames i + 1
  start_lt : handler'.start < handler'.stop
  covered : ∀ p, handler'.covers p = true → ∃ i f, handler.covers i = true ∧ (frames[i]?).join = some f ∧
    p = collapsedAt frames i

theorem collapse_handler {handler' : Handler Nat BinaryName}
    (h : handler' ∈ (collapse ops frames handlers).handlers) :
    ∃ handler ∈ handlers, PartOf frames handler handler' := by
  obtain ⟨handler, hmem, hsplit⟩ := List.mem_flatMap.mp h
  obtain ⟨range, hrange, rfl⟩ := List.mem_map.mp hsplit
  obtain ⟨hstart, hlt, hstop, hrun⟩ := reachableRanges_mem (fun start heq => by cases heq) hrange
  change handler.start ≤ range.1 at hstart
  have hframes : ∀ i, range.1 ≤ i → i < range.2 → ∃ f, (frames[i]?).join = some f := fun i hle hi =>
    Option.isSome_iff_exists.mp (hrun i hle hi)
  have hcovers : ∀ i, range.1 ≤ i → i < range.2 → handler.covers i = true := by
    intro i hle hi
    unfold Handler.covers
    rw [Bool.and_eq_true, decide_eq_true_eq, decide_eq_true_eq]
    omega
  -- inside a range nothing is dropped, so positions move together
  have hend := collapsedAt_between hframes (Nat.le_of_lt hlt) (Nat.le_refl _)
  have hlast := collapsedAt_between hframes (show range.1 ≤ range.2 - 1 by omega) (by omega)
  refine ⟨handler, hmem, rfl, rfl, ?_, ?_, ?_, fun p hp => ?_⟩
  · obtain ⟨f, hf⟩ := hframes range.1 (Nat.le_refl _) hlt
    exact ⟨range.1, f, hcovers range.1 (Nat.le_refl _) hlt, hf, rfl⟩
  · obtain ⟨f, hf⟩ := hframes (range.2 - 1) (by omega) (by omega)
    refine ⟨range.2 - 1, f, hcovers _ (by omega) (by omega), hf, ?_⟩
    change collapsedAt frames range.2 = _
    omega
  · change collapsedAt frames range.1 < collapsedAt frames range.2
    omega
  · change (decide (collapsedAt frames range.1 ≤ p) && decide (p < collapsedAt frames range.2)) = true at hp
    rw [Bool.and_eq_true, decide_eq_true_eq, decide_eq_true_eq] at hp
    have hp' := collapsedAt_between hframes (Nat.le_add_right range.1 (p - collapsedAt frames range.1))
      (by omega)
    obtain ⟨f, hf⟩ := hframes (range.1 + (p - collapsedAt frames range.1)) (by omega) (by omega)
    exact ⟨_, f, hcovers _ (by omega) (by omega), hf, by omega⟩

/-- A handler that covers a reachable instruction still covers it. -/
theorem collapse_covers {handler : Handler Nat BinaryName} (hmem : handler ∈ handlers) {i : Nat}
    {f : AnalysisFrame} (hcovers : handler.covers i = true) (hf : (frames[i]?).join = some f) :
    ∃ handler' ∈ (collapse ops frames handlers).handlers, handler'.target = collapsedAt frames handler.target ∧
      handler'.catches = handler.catches ∧ handler'.start ≤ collapsedAt frames i ∧
      collapsedAt frames i < handler'.stop := by
  unfold Handler.covers at hcovers
  rw [Bool.and_eq_true, decide_eq_true_eq, decide_eq_true_eq] at hcovers
  obtain ⟨range, hrange, hle, hlt⟩ := @reachableRanges_covers (fun index => ((frames[index]?).join).isSome)
    (handler.stop - handler.start) handler.start i none (Nat.le_refl _)
    (.inr ⟨hcovers.1, by omega, Option.isSome_iff_exists.mpr ⟨f, hf⟩⟩)
  obtain ⟨-, -, -, hrun⟩ := reachableRanges_mem (fun start heq => by cases heq) hrange
  have hframes : ∀ i, range.1 ≤ i → i < range.2 → ∃ f, (frames[i]?).join = some f := fun i hle hi =>
    Option.isSome_iff_exists.mp (hrun i hle hi)
  have hi := collapsedAt_between hframes hle (Nat.le_of_lt hlt)
  have hend := collapsedAt_between hframes (Nat.le_of_lt (Nat.lt_of_le_of_lt hle hlt)) (Nat.le_refl _)
  refine ⟨_, List.mem_flatMap.mpr ⟨handler, hmem, List.mem_map.mpr ⟨range, hrange, rfl⟩⟩, rfl, rfl, ?_, ?_⟩
  · change collapsedAt frames range.1 ≤ _
    omega
  · change _ < collapsedAt frames range.2
    omega

end MethodBody

end ClassWeave
