import ClassWeave.Proofs.Method.Paths
import ClassWeave.Proofs.Method.Preserved

/-!
# Code that is left whole

Where nothing is unreachable, or frames are not needed, all instructions stay where they are
(`MethodBody.Whole`). Of the handlers those may go that cover nothing.
-/

namespace ClassWeave

open Analysis (Reachable)

/-- Whether a handler covers anything. -/
def Handler.isUsed {κ : Type} (handler : Handler Nat κ) : Bool :=
  decide (handler.start < handler.stop)

/-- The positions of a handler are in code of some length, or at its end. -/
structure Handler.Inside {κ : Type} (length : Nat) (handler : Handler Nat κ) : Prop where
  start : handler.start ≤ length
  stop : handler.stop ≤ length
  target : handler.target ≤ length

namespace MethodBody

variable {ops : List (CodeOp Nat)} {frames : Array (Option AnalysisFrame)}
  {handlers : List (Handler Nat BinaryName)}

/-- The body has the instructions of the code where they were, and its handlers, but perhaps not those that cover
nothing. -/
structure Whole (ops : List (CodeOp Nat)) (handlers : List (Handler Nat BinaryName)) (body : MethodBody) :
    Prop where
  ops_eq : body.ops = ops
  position_eq : ∀ i ≤ ops.length, position body.positions i = i
  handlers_sub : body.handlers.Sublist handlers
  used : body.handlers.filter Handler.isUsed = handlers.filter Handler.isUsed

theorem whole_unchanged (ops : List (CodeOp Nat)) (handlers : List (Handler Nat BinaryName)) :
    (unchanged ops handlers).Whole ops handlers where
  ops_eq := rfl
  position_eq := by
    intro i hi
    change ((Array.range (ops.length + 1))[i]?).getD 0 = i
    rw [Array.getElem?_range, if_pos (Nat.lt_succ_of_le hi)]
    rfl
  handlers_sub := .refl _
  used := rfl

/-- Where positions of code go in the body: they stay in order, those of instructions are instructions, and the
end is the end. -/
structure Places (count : Nat) (move : Nat → Nat) (body : MethodBody) : Prop where
  position_eq : ∀ {i}, i ≤ count → position body.positions i = move i
  mono : ∀ {i j}, i ≤ j → j ≤ count → move i ≤ move j
  lt : ∀ {i}, i < count → move i < body.ops.length
  last : move count = body.ops.length

theorem Places.le {count : Nat} {move : Nat → Nat} {body : MethodBody} (h : body.Places count move) {i : Nat}
    (hi : i ≤ count) : move i ≤ body.ops.length := by
  rw [← h.last]
  exact h.mono hi (Nat.le_refl _)

theorem Whole.places {body : MethodBody} (h : body.Whole ops handlers) : body.Places ops.length id where
  position_eq := fun hi => h.position_eq _ hi
  mono := fun hij _ => hij
  lt := fun hi => by rwa [h.ops_eq]
  last := by rw [h.ops_eq]; rfl

theorem places_collapse (hsize : frames.size = ops.length) :
    (collapse ops frames handlers).Places ops.length (collapsedAt frames) where
  position_eq := fun _ => rfl
  mono := fun hij hj => collapsedAt_le hij (by omega)
  lt := fun {i} hi => by
    -- an instruction that stays is counted, and one that does not comes behind the first, which does
    have hkeep : (keptOf frames).length = ops.length := by rw [length_keptOf, hsize]
    have hmono := @stay_mono (keptOf frames) (i + 1) ops.length hi
    have hend : collapsedAt frames ops.length = stay (keptOf frames) ops.length := by
      refine collapsedAt_eq hsize.ge ?_
      rw [List.getElem?_eq_none hkeep.le]
      decide
    rw [← collapsedAt_end hsize, hend, collapsedAt_eq_sub (by omega)]
    obtain ⟨stays, hstays⟩ : ∃ stays, (keptOf frames)[i]? = some stays :=
      ⟨_, List.getElem?_eq_getElem (by omega)⟩
    rw [hstays]
    cases stays with
    | true =>
      rw [stay_succ hstays] at hmono
      split_ifs <;> omega
    | false =>
      have hzero : (keptOf frames)[0]? = some true :=
        kept_zero rfl (by rw [List.length_map, Array.length_toList]; omega)
      have hpos : i ≠ 0 := by
        rintro rfl
        rw [hzero] at hstays
        cases hstays
      have hfirst := @stay_mono (keptOf frames) (0 + 1) i (by omega)
      rw [stay_succ hzero] at hfirst
      rw [stay_succ_of_ne (by rw [hstays]; decide)] at hmono
      rw [if_pos rfl]
      omega
  last := collapsedAt_end hsize

/-- Where positions go in the body is where they are looked up. -/
theorem Places.positions {count : Nat} {move : Nat → Nat} {body : MethodBody} (h : body.Places count move) :
    body.Places count (position body.positions) where
  position_eq := fun _ => rfl
  mono := fun hij hj => by
    rw [h.position_eq (Nat.le_trans hij hj), h.position_eq hj]
    exact h.mono hij hj
  lt := fun hi => by
    rw [h.position_eq (Nat.le_of_lt hi)]
    exact h.lt hi
  last := (h.position_eq (Nat.le_refl _)).trans h.last

/-! ## Collapsing code that is all reachable -/

/-- A range that is open stays open to the end where everything is reachable. -/
theorem reachableRanges_open {reachable : Nat → Bool} {start : Nat} : ∀ {count index : Nat},
    (∀ i, index ≤ i → i < index + count → reachable i = true) →
      reachableRanges reachable (some start) index count = [(start, index + count)]
  | 0, _, _ => rfl
  | count + 1, index, h => by
    unfold reachableRanges
    rw [if_pos (h index (Nat.le_refl _) (by omega)),
      @reachableRanges_open _ _ count _ fun i hle hlt => h i (by omega) (by omega)]
    change [(start, index + 1 + count)] = _
    rw [Nat.add_assoc, Nat.add_comm 1 count]

/-- Where everything is reachable, there is one range, or none if there is nothing in it. -/
theorem reachableRanges_all {reachable : Nat → Bool} {start stop : Nat}
    (h : ∀ i, start ≤ i → i < stop → reachable i = true) :
    reachableRanges reachable none start (stop - start) = if start < stop then [(start, stop)] else [] := by
  split_ifs with hlt
  · obtain ⟨count, rfl⟩ := Nat.exists_eq_add_of_lt hlt
    rw [show start + count + 1 - start = count + 1 from by omega]
    unfold reachableRanges
    rw [if_pos (h start (Nat.le_refl _) hlt), reachableRanges_open fun i hle hi => h i (by omega) (by omega)]
    change [(start, start + 1 + count)] = _
    rw [Nat.add_assoc, Nat.add_comm 1 count]
    rfl
  · rw [Nat.sub_eq_zero_of_le (Nat.le_of_not_lt hlt)]
    rfl

/-- Where all instructions stay, everything stays where it is. -/
theorem collapsedAt_of_kept (hkept : ∀ i < frames.size, (keptOf frames)[i]? = some true) {i : Nat}
    (hi : i ≤ frames.size) : collapsedAt frames i = i := by
  have hstay : ∀ {j}, j ≤ frames.size → stay (keptOf frames) j = j := by
    intro j
    induction j with
    | zero => exact fun _ => rfl
    | succ j ih => exact fun hj => by rw [stay_succ (hkept j hj), ih (Nat.le_of_succ_le hj)]
  rw [collapsedAt_eq hi, hstay hi]
  rcases Nat.lt_or_eq_of_le hi with hlt | rfl
  · rw [hkept i hlt]
    decide
  · rw [List.getElem?_eq_none (length_keptOf frames).le]
    decide

/-- A handler is its only part if it covers something, and all of that can be reached. -/
theorem splitHandler_of_kept (hkept : ∀ i < frames.size, (keptOf frames)[i]? = some true)
    {handler : Handler Nat BinaryName} (hinside : handler.Inside frames.size)
    (hcovered : ∀ i, handler.start ≤ i → i < handler.stop → Framed frames i) :
    splitHandler (fun index => ((frames[index]?).join).isSome)
    (positionsFrom 0 (keptOf frames)).toArray handler =
      [handler].filter Handler.isUsed := by
  have hstart := collapsedAt_of_kept hkept hinside.start
  have hstop := collapsedAt_of_kept hkept hinside.stop
  have htarget := collapsedAt_of_kept hkept hinside.target
  unfold collapsedAt at hstart hstop htarget
  unfold splitHandler
  rw [reachableRanges_all fun i hle hi => Option.isSome_iff_exists.mpr (hcovered i hle hi)]
  split_ifs with hlt
  · have hused : handler.isUsed = true := decide_eq_true hlt
    rw [List.map_singleton, hstart, hstop, htarget, List.filter_cons_of_pos hused]
    rfl
  · rw [List.filter_cons_of_neg (by rwa [Handler.isUsed, decide_eq_true_eq])]
    rfl

/-- What cannot be reached are single `athrow`s, which no handler covers. -/
structure Sparse (ops : List (CodeOp Nat)) (frames : Array (Option AnalysisFrame))
    (handlers : List (Handler Nat BinaryName)) : Prop where
  kept : ∀ i < frames.size, (keptOf frames)[i]? = some true
  dead : ∀ i < ops.length, ¬ Framed frames i → ops[i]? = some (.branch .athrow)
  covered : ∀ handler ∈ handlers, ∀ i, handler.start ≤ i → i < handler.stop → Framed frames i

/-- Code is left whole when it is collapsed, if what cannot be reached stands alone. -/
theorem whole_collapse_of_sparse (hsize : frames.size = ops.length) (h : Sparse ops frames handlers)
    (htargets : ∀ op ∈ ops, ∀ t ∈ op.targets, t ≤ ops.length)
    (hinside : ∀ handler ∈ handlers, handler.Inside ops.length) :
    (collapse ops frames handlers).Whole ops handlers := by
  have hat : ∀ {i}, i ≤ ops.length → collapsedAt frames i = i :=
    fun hi => collapsedAt_of_kept h.kept (hsize ▸ hi)
  -- handlers are split where nothing falls between, so only the empty ones go
  have hhandlers : (collapse ops frames handlers).handlers = handlers.filter Handler.isUsed := by
    obtain ⟨hkept, -, hcovered⟩ := h
    change handlers.flatMap (splitHandler _ (positionsFrom 0 (keptOf frames)).toArray) = _
    induction handlers with
    | nil => rfl
    | cons handler rest ih =>
      rw [List.flatMap_cons, splitHandler_of_kept hkept (hsize ▸ hinside handler List.mem_cons_self)
        (hcovered handler List.mem_cons_self),
        ih (fun handler' hmem => hinside handler' (List.mem_cons_of_mem _ hmem))
        fun handler' hmem => hcovered handler' (List.mem_cons_of_mem _ hmem), ← List.filter_append]
      rfl
  have hlength : (collapse ops frames handlers).ops.length = ops.length := by
    rw [← collapsedAt_end hsize, hat (Nat.le_refl _)]
  constructor
  case ops_eq =>
    apply List.ext_getElem?
    intro i
    by_cases hi : i < ops.length
    · have hop := List.getElem?_eq_getElem hi
      by_cases hf : Framed frames i
      · obtain ⟨f, hf⟩ := hf
        have hcollapsed := (@collapse_reachable _ _ handlers _ _ _ hop hf).1
        rw [hat (Nat.le_of_lt hi)] at hcollapsed
        have hsame : ops[i].Retargeted (fun t t' => t' = id t) (ops[i].mapTargets (collapsedAt frames)) :=
          CodeOp.retargeted_of_targets fun t ht => hat (htargets _ (List.getElem_mem hi) t ht)
        rw [hcollapsed, hop, hsame.eq_mapTargets, CodeOp.mapTargets_id]
      -- what cannot be reached was an `athrow` already
      · have hdead := (@collapse_dead _ _ handlers hsize i hi hf (h.kept i (hsize ▸ hi))).1
        rw [hat (Nat.le_of_lt hi)] at hdead
        rw [hdead, h.dead i hi hf]
    · rw [List.getElem?_eq_none (by omega), List.getElem?_eq_none (by omega)]
  case position_eq => exact fun i hi => hat hi
  case handlers_sub =>
    rw [hhandlers]
    exact List.filter_sublist
  case used =>
    rw [hhandlers, List.filter_filter]
    exact List.filter_congr fun handler _ => Bool.and_self _

/-- Code that is all reachable is left whole when it is collapsed. -/
theorem whole_collapse (hall : ∀ i < frames.size, Framed frames i) (hsize : frames.size = ops.length)
    (htargets : ∀ op ∈ ops, ∀ t ∈ op.targets, t ≤ ops.length)
    (hinside : ∀ handler ∈ handlers, handler.Inside ops.length) :
    (collapse ops frames handlers).Whole ops handlers := by
  refine whole_collapse_of_sparse hsize ⟨fun i hi => ?_, fun i hi hf => ?_, fun handler hmem i _ hi => ?_⟩
    htargets hinside
  · obtain ⟨f, hf⟩ := hall i hi
    exact keptOf_of_reachable hf
  · exact absurd (hall i (hsize ▸ hi)) hf
  · exact hall i (hsize ▸ Nat.lt_of_lt_of_le hi (hinside handler hmem).stop)

end MethodBody

namespace MethodCode

/-- The body of a method is whole if frames are not needed or all of the code can be reached. -/
theorem Analyzed.whole {code : MethodCode} {context : MethodContext} {ops : List (CodeOp Nat)}
    {handlers : List (Handler Nat BinaryName)} {s : Analysis} {body : MethodBody} {maxStack maxLocals : Nat}
    (h : Analyzed code context ops handlers s body maxStack maxLocals)
    (htargets : ∀ op ∈ ops, ∀ t ∈ op.targets, t ≤ ops.length)
    (hinside : ∀ handler ∈ handlers, handler.Inside ops.length)
    (hreachable : context.strict = true → ∀ i < ops.length, Reachable ops handlers i) :
    body.Whole ops handlers := by
  rw [h.body_eq]
  split_ifs with hstrict
  · have hsize := h.covers.size
    refine MethodBody.whole_collapse (fun i hi => ?_) hsize htargets hinside
    exact (h.framed_iff i).mpr (hreachable hstrict i (hsize ▸ hi))
  · exact MethodBody.whole_unchanged ops handlers

/-- Places of the code are places of the body of a method. -/
theorem Analyzed.moves {code : MethodCode} {context : MethodContext} {ops : List (CodeOp Nat)}
    {handlers : List (Handler Nat BinaryName)} {s : Analysis} {body : MethodBody} {maxStack maxLocals : Nat}
    (h : Analyzed code context ops handlers s body maxStack maxLocals) :
    body.Places ops.length (MethodBody.position body.positions) := by
  by_cases hstrict : context.strict = true
  · rw [h.body_eq, if_pos hstrict]
    exact (MethodBody.places_collapse h.covers.size).positions
  · rw [h.body_eq, if_neg hstrict]
    exact (MethodBody.whole_unchanged ops handlers).places.positions

end MethodCode

/-! ## Code that is left -/

/-- The instructions that are kept are in the body, at the positions that `at'` gives, in their order and next
to what follows them. -/
structure MethodBody.Carries (kept : Nat → Prop) (ops : List (CodeOp Nat)) (at' : Nat → Nat)
    (body : MethodBody) : Prop where
  stays : ∀ {i op}, kept i → ops[i]? = some op → body.ops[at' i]? = some (op.mapTargets at')
  next : ∀ {i op}, kept i → ops[i]? = some op → at' (i + 1) = at' i + 1
  lt : ∀ {i j}, i < j → kept i → kept j → at' i < at' j

/-- All of the code is in the body of a method if frames are not needed, and what can be reached is if they are. -/
theorem MethodCode.Analyzed.carries {code : MethodCode} {context : MethodContext} {ops : List (CodeOp Nat)}
    {handlers : List (Handler Nat BinaryName)} {s : Analysis} {body : MethodBody} {maxStack maxLocals : Nat}
    (h : Analyzed code context ops handlers s body maxStack maxLocals) :
    ∃ at', body.Carries (fun i => context.strict = true → Reachable ops handlers i) ops at' := by
  rw [h.body_eq]
  split_ifs with hstrict
  · have hframed : ∀ {i}, (context.strict = true → Reachable ops handlers i) → MethodBody.Framed s.frames i :=
      fun {i} hkept => (h.framed_iff i).mpr (hkept hstrict)
    refine ⟨MethodBody.collapsedAt s.frames, ?_, ?_, ?_⟩
    · intro i op hkept hop
      obtain ⟨f, hf⟩ := hframed hkept
      exact (MethodBody.collapse_reachable hop hf).1
    · intro i op hkept _
      obtain ⟨f, hf⟩ := hframed hkept
      exact MethodBody.collapsedAt_succ hf
    · intro i j hlt hi hj
      obtain ⟨f, hf⟩ := hframed hi
      obtain ⟨g, hg⟩ := hframed hj
      exact MethodBody.collapsedAt_lt hlt hf hg
  · -- code that is not strict stays where it is
    refine ⟨id, fun _ hop => ?_, fun _ _ => rfl, fun hlt _ _ => hlt⟩
    rw [CodeOp.mapTargets_id]
    exact hop

end ClassWeave
