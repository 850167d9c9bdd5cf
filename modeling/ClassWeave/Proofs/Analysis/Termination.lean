import ClassWeave.Proofs.Analysis.Faults
import ClassWeave.Proofs.Analysis.Sound
import ClassWeave.Proofs.Frame.Weight
import Mathlib.Algebra.Order.BigOperators.Group.List
import Mathlib.Algebra.Order.Ring.Nat

/-!
# The analysis ends

The potential of a state is the weight of its frames, with more than any frame weighs for each that is still
missing. An edge that leaves work to do lowers it, so the potential and the length of the worklist together
bound the visits that are left, and `visitBound` is more than both at the start. Bounds on single frames come
from the code: no store reaches past slot 65536, an instruction adds two values to the stack at most, and types
have no more dimensions than those that the input names.
-/

namespace ClassWeave

open ClassWeave.Frame (slotAt)

/-! ## Dimensions -/

/-- A type has at most so many dimensions. -/
def DepthAtMost (depth : Nat) (t : AnalysisType) : Prop :=
  t.depth ≤ depth

theorem depth_element? {s t : RefType} (h : s.element? = some (.ref t)) : t.depth ≤ s.depth := by
  match s, h with
  | .array 0 (.object name), h =>
    cases h
    exact Nat.zero_le _
  | .array (inner + 1) leaf, h =>
    cases h
    exact Nat.le_succ _

theorem depth_elementType {strict : Bool} {t e : AnalysisType} {depth : Nat} (ht : DepthAtMost depth t)
    (h : elementType strict t = .ok e) : DepthAtMost depth e := by
  have unknown : ∀ {e : AnalysisType},
      (if strict then Except.error VerifyFault.notArrayType else .ok .top) = .ok e →
      DepthAtMost depth e := by
    intro e h
    split_ifs at h
    cases h
    exact Nat.zero_le _
  unfold elementType at h
  dsimp only at h
  split at h
  · cases h
    exact Nat.zero_le _
  · split at h
    · rename_i heq
      cases h
      exact Nat.le_trans (depth_element? heq) ht
    · exact unknown h
  · exact unknown h

theorem depth_introduced {instruction : Instruction} :
    ∀ t ∈ instruction.introduced, t.depth ≤ instruction.depth := by
  -- loads, stores and simple instructions introduce no arrays
  have small : ∀ {t : AnalysisType} {kind : SlotKind}, t ∈ kind.type?.toList → t.depth ≤ 0 := by
    intro t kind ht
    cases kind <;> simp only [SlotKind.type?, Option.toList_some, Option.toList_none, List.mem_singleton,
      List.not_mem_nil] at ht <;> subst ht <;> exact Nat.le_refl 0
  -- what a call leaves is no deeper than its descriptor says
  have result : ∀ {t : AnalysisType} {type : Option FieldType},
      t ∈ (type.map VerificationType.ofFieldType).toList → t.depth ≤ Instruction.depth.resultDepth type := by
    intro t type ht
    cases type with
    | none => cases ht
    | some type =>
      rw [List.mem_singleton.mp ht]
      exact Nat.le_refl _
  intro t ht
  cases instruction with
  | simple op =>
    have hzero : ∀ t ∈ (op.pushes : List AnalysisType), t.depth ≤ 0 := by cases op <;> decide
    exact hzero t ht
  | load kind slot => exact small ht
  | store kind slot => exact small ht
  | invoke mode method => exact Nat.le_trans (result ht) (Nat.le_max_right _ _)
  | invokeDynamic site => exact result ht
  | newArray element =>
    rw [List.mem_singleton.mp ht]
    exact Nat.le_refl _
  | newRefArray element =>
    rw [List.mem_singleton.mp ht]
    exact Nat.le_of_eq (Hierarchy.depth_arrayOf element)
  | loadConstant constant =>
    rw [List.mem_singleton.mp ht]
    exact Nat.le_refl _
  | field access ref =>
    rw [List.mem_singleton.mp ht]
    exact Nat.le_refl _
  | checkCast type =>
    rw [List.mem_singleton.mp ht]
    exact Nat.le_refl _
  | newMultiArray type dimensions =>
    rw [List.mem_singleton.mp ht]
    exact Nat.le_refl _
  | pushByte value =>
    rw [List.mem_singleton.mp ht]
    exact Nat.le_refl _
  | pushShort value =>
    rw [List.mem_singleton.mp ht]
    exact Nat.le_refl _
  | instanceOf type =>
    rw [List.mem_singleton.mp ht]
    exact Nat.le_refl _
  | _ => cases ht

/-- What an instruction names bounds the dimensions of what it makes. -/
theorem depthInvariant {owner : BinaryName} {strict : Bool} {index : Nat} {instruction : Instruction}
    {depth : Nat} (hd : instruction.depth ≤ depth) : TypeInvariant owner strict index instruction
    (DepthAtMost depth) where
  top := Nat.zero_le _
  element := depth_elementType
  constructed := fun {mode method t type} hinstr h => by
    subst hinstr
    cases t with
    | uninitializedThis =>
      cases h
      exact Nat.zero_le _
    | uninitialized site =>
      cases h
      exact Nat.le_trans (Nat.le_max_left _ _) hd
    | _ => cases h
  introduced := fun t ht => Nat.le_trans (depth_introduced t ht) hd
  created := fun _ => Nat.zero_le _

namespace Frame

variable {υ : Type}

theorem depth_le_of_mem {hint : Frame RefType υ} {t : VerificationType RefType υ}
    (ht : t ∈ hint.locals ++ hint.stack) : t.depth ≤ hint.depth :=
  (le_foldl_max VerificationType.depth (hint.locals ++ hint.stack) 0).2 t ht

/-- A class that is suggested stands in the frame that suggests it. -/
theorem mem_of_hintAt {types : List (VerificationType RefType υ)} {place : Nat} {s : RefType}
    (h : hintAt (refTypes types) place = some s) : .object s ∈ types := by
  unfold hintAt refTypes at h
  rw [List.getElem?_map] at h
  cases hget : types[place]? with
  | none => rw [hget] at h; cases h
  | some t =>
    rw [hget] at h
    have hmem := List.mem_of_getElem? hget
    cases t with
    | object u => cases h; exact hmem
    | _ => cases h

theorem depthMergeInvariant {h : Hierarchy} {hint : Option (Frame RefType υ)} {depth : Nat}
    (hd : ((hint.map Frame.depth).getD 0) ≤ depth) : MergeInvariant h hint (DepthAtMost depth) where
  top := Nat.zero_le _
  join := fun {a b} ha _ => Nat.le_trans (h.depth_join_le a b) ha
  localHint := fun {place t} ht => by
    cases hint with
    | none => cases ht
    | some hint =>
      have hmem : .object t ∈ hint.locals := mem_of_hintAt ht
      have hle := depth_le_of_mem (List.mem_append_left hint.stack hmem)
      exact Nat.le_trans hle hd
  stackHint := fun {place t} ht => by
    cases hint with
    | none => cases ht
    | some hint =>
      have hmem : .object t ∈ hint.stack := List.mem_reverse.mp (mem_of_hintAt ht)
      have hle := depth_le_of_mem (List.mem_append_right hint.locals hmem)
      exact Nat.le_trans hle hd

end Frame

namespace Analysis

variable {υ : Type} {context : MethodContext} {code : Array (CodeOp Nat)}
  {handlers : List (Handler Nat BinaryName)} {hints : FrameHints υ} {s s' : Analysis}

/-! ## Bounds on frames -/

/-- Bounds on a frame: on the number of its locals, on the height of its stack and on the dimensions of its
types. -/
structure FrameFits (locals depth height : Nat) (frame : AnalysisFrame) : Prop where
  locals : frame.locals.length ≤ locals
  stack : frame.stack.length ≤ height
  depth : frame.Holds (DepthAtMost depth)

/-- The instructions that have a frame. -/
def found (s : Analysis) : Nat :=
  s.frames.toList.countP Option.isSome

/-- What bounds the states of an analysis: on a stack there are no more values than two for each frame but the
first. -/
structure Bounded (count locals depth : Nat) (s : Analysis) : Prop where
  size : s.frames.size = count
  frames : ∀ {i f}, s.frameAt i = some f → FrameFits locals depth (2 * (s.found - 1)) f

theorem found_le (s : Analysis) : s.found ≤ s.frames.size := by
  unfold found
  rw [← Array.length_toList]
  exact List.countP_le_length

theorem found_pos {i : Nat} {f : AnalysisFrame} (hf : s.frameAt i = some f) : 0 < s.found := by
  unfold frameAt at hf
  cases hget : s.frames[i]? with
  | none => rw [hget] at hf; cases hf
  | some o =>
    rw [hget] at hf
    change o = some f at hf
    rw [← Array.getElem?_toList] at hget
    refine List.countP_pos_iff.mpr ⟨o, List.mem_of_getElem? hget, ?_⟩
    rw [hf]
    rfl

/-- An edge gives a frame to one instruction more, or to none. -/
theorem Flowed.found {edge : FlowEdge} {merged : AnalysisFrame} (hf : Flowed context hints edge s s' merged) :
    s'.found = s.found + if (s.frameAt edge.1).isSome then 0 else 1 := by
  have hinside : edge.1 < s.frames.toList.length := by rw [Array.length_toList]; exact hf.inside
  have hget : s.frameAt edge.1 = s.frames.toList[edge.1] := by
    unfold frameAt
    rw [← Array.getElem?_toList, List.getElem?_eq_getElem hinside]
    rfl
  unfold Analysis.found
  rw [hf.frames, Array.toList_setIfInBounds, List.countP_set hinside, hget]
  cases hold : s.frames.toList[edge.1] with
  | none =>
    simp only [Option.isSome_none, Option.isSome_some, Bool.false_eq_true, if_false, if_true]
    omega
  | some f =>
    have hpos : 0 < s.frames.toList.countP Option.isSome :=
      List.countP_pos_iff.mpr ⟨_, List.getElem_mem hinside, by rw [hold]; rfl⟩
    simp only [Option.isSome_some, if_true]
    omega

theorem length_dropHalves : ∀ types : List AnalysisType, (Frame.dropHalves types).length = types.length
  | [] => rfl
  | [_] => rfl
  | _ :: next :: rest => congrArg Nat.succ (length_dropHalves (next :: rest))

theorem length_normalize_le (f : AnalysisFrame) : f.normalize.locals.length ≤ f.locals.length := by
  obtain ⟨count, htake⟩ := Frame.trimLocals_eq_take (Frame.dropHalves f.locals)
  change (Frame.trimLocals (Frame.dropHalves f.locals)).length ≤ _
  rw [htake, List.length_take, length_dropHalves]
  exact Nat.min_le_right _ _

theorem length_mergeLocals_le (h : Hierarchy) : ∀ (suggested : List (Option RefType))
    (lefts rights : List AnalysisType), (Frame.mergeLocals h suggested lefts rights).length ≤ lefts.length
  | suggested, _ :: lefts, _ :: rights => Nat.succ_le_succ (length_mergeLocals_le h suggested.tail lefts rights)
  | _, [], _ => Nat.le_refl _
  | _, _ :: _, [] => Nat.zero_le _

/-- A merge gives the frame that was there no more locals. -/
theorem length_merge_le {h : Hierarchy} {strict : Bool} {hint : Option (Frame RefType υ)}
    {f g m : AnalysisFrame} (hm : f.merge h strict hint g = .ok m) : m.locals.length ≤ f.locals.length := by
  obtain ⟨-, stack, -, rfl⟩ := Frame.merge_eq_ok.mp hm
  exact Nat.le_trans (length_normalize_le _) (length_mergeLocals_le h _ _ _)

theorem FrameFits.normalize {locals depth height : Nat} {f : AnalysisFrame}
    (hf : FrameFits locals depth height f) : FrameFits locals depth height f.normalize where
  locals := Nat.le_trans (length_normalize_le f) hf.locals
  stack := hf.stack
  depth := hf.depth.normalize (Nat.zero_le _)

theorem FrameFits.mono {locals depth height height' : Nat} {f : AnalysisFrame}
    (hf : FrameFits locals depth height f) (hle : height ≤ height') : FrameFits locals depth height' f :=
  ⟨hf.locals, Nat.le_trans hf.stack hle, hf.depth⟩

/-- A merged frame keeps the bounds of the one that was there. -/
theorem FrameFits.merge {h : Hierarchy} {strict : Bool} {hint : Option (Frame RefType υ)}
    {locals depth height height' : Nat} {f g m : AnalysisFrame} (hd : ((hint.map Frame.depth).getD 0) ≤ depth)
    (hf : FrameFits locals depth height f) (hg : FrameFits locals depth height' g)
    (hm : f.merge h strict hint g = .ok m) : FrameFits locals depth height m where
  locals := Nat.le_trans (length_merge_le hm) hf.locals
  stack := by
    rw [(Frame.merges_of_ok hm).height]
    exact hf.stack
  depth := hf.depth.merge (Frame.depthMergeInvariant hd) hg.depth hm

/-! ## Edges keep the bounds -/

/-- More slots than any store reaches. -/
theorem length_store_le (slot : UInt16) (type : AnalysisType) (f : AnalysisFrame) :
    (f.store slot type).locals.length ≤ max f.locals.length slotBound := by
  have hslot := slot.toNat_lt
  have htwo : type.width ≤ 2 := by
    rw [Frame.width_eq]
    split_ifs <;> omega
  unfold slotBound
  rw [Frame.length_store]
  omega

theorem length_transfer_le {owner : BinaryName} {strict : Bool} {index : Nat} {instruction : Instruction}
    {f g : AnalysisFrame} (h : instruction.transfer owner strict index f = .ok g) :
    g.locals.length ≤ max f.locals.length slotBound := by
  cases Frame.transfer_locals h with
  | same heq =>
    rw [heq]
    exact Nat.le_max_left _ _
  | stored kind slot type _ _ _ heq =>
    rw [heq]
    exact length_store_le slot type f
  | constructed site type _ _ heq =>
    rw [heq, List.length_map]
    exact Nat.le_max_left _ _

/-- The edges to the instructions that follow bring at most two more values. -/
theorem fits_successors {op : CodeOp Nat} {index locals depth height : Nat} {frame : AnalysisFrame}
    {successors : List FlowEdge} (hf : FrameFits locals depth height frame) (hlocals : slotBound ≤ locals)
    (hd : op.depth ≤ depth) (h : op.successors context index frame = .ok successors) :
    ∀ edge ∈ successors, FrameFits locals depth (height + 2) edge.2 := by
  cases op with
  | plain instruction =>
    obtain ⟨g, hg, h⟩ := Outcome.except_bind.mp h
    cases h
    intro edge hedge
    rw [List.mem_singleton.mp hedge]
    change FrameFits locals depth (height + 2) g
    have hlen := length_transfer_le hg
    have hheight := Frame.transfer_height hg
    exact ⟨by have := hf.locals; omega, by have := hf.stack; omega, hf.depth.transfer (depthInvariant hd) hg⟩
  | branch b =>
    obtain ⟨after, hafter, h⟩ := Outcome.except_bind.mp h
    have hlen : after.locals = frame.locals := Frame.branch_locals hafter
    have hheight : after.stack.length ≤ frame.stack.length := by
      unfold Branch.transfer at hafter
      split_ifs at hafter
      exact Frame.popN_stack hafter
    have hfits : FrameFits locals depth height after :=
      ⟨by rw [hlen]; exact hf.locals, Nat.le_trans hheight hf.stack, hf.depth.branch hafter⟩
    -- targets and the next instruction get what is left of the stack
    have hjumps : ∀ edge ∈ (b.targets.map fun target => (target, after)) ++ [(index + 1, after)],
        FrameFits locals depth (height + 2) edge.2 := by
      intro edge hedge
      rcases List.mem_append.mp hedge with hedge | hedge
      · obtain ⟨target, -, rfl⟩ := List.mem_map.mp hedge
        exact hfits.mono (Nat.le_add_right _ _)
      · rw [List.mem_singleton.mp hedge]
        exact hfits.mono (Nat.le_add_right _ _)
    intro edge hedge
    split at h
    · cases h
      -- a subroutine gets its return address on top
      rcases List.mem_cons.mp hedge with rfl | hedge
      · refine ⟨hfits.locals, ?_, hfits.depth.push (Nat.zero_le _)⟩
        have := hfits.stack
        change after.stack.length + 1 ≤ height + 2
        omega
      · rw [List.mem_singleton.mp hedge]
        exact hfits.mono (Nat.le_add_right _ _)
    · dsimp only at h
      split_ifs at h
      · cases h
        exact hjumps edge hedge
      · cases h
        exact hjumps edge (List.mem_append_left _ hedge)

/-- The edges to handlers bring locals that were there and one value. -/
theorem fits_handlerEdges {op : CodeOp Nat} {index locals depth height : Nat} {frame : AnalysisFrame}
    {successors : List FlowEdge} (hf : FrameFits locals depth height frame) (hpos : 0 < height)
    (hs : ∀ edge ∈ successors, FrameFits locals depth height edge.2) :
    ∀ edge ∈ op.handlerEdges handlers index frame successors, FrameFits locals depth height edge.2 := by
  intro edge hedge
  unfold CodeOp.handlerEdges at hedge
  obtain ⟨handler, -, hedge⟩ := List.mem_flatMap.mp hedge
  obtain ⟨ls, hls, rfl⟩ := List.mem_map.mp hedge
  have hthrown : ∃ g : AnalysisFrame, FrameFits locals depth height g ∧ g.locals = ls := by
    cases op with
    | plain instruction =>
      rcases List.mem_append.mp hls with hls | hls
      · obtain ⟨e, he, rfl⟩ := List.mem_map.mp hls
        exact ⟨e.2, hs e he, rfl⟩
      · exact ⟨frame, hf, (List.mem_singleton.mp hls).symm⟩
    | branch b => exact ⟨frame, hf, (List.mem_singleton.mp hls).symm⟩
  obtain ⟨g, hg, rfl⟩ := hthrown
  refine ⟨hg.locals, hpos, hg.depth.locals, fun t ht => ?_⟩
  rw [List.mem_singleton.mp ht]
  exact Nat.zero_le _

/-! ## The potential -/

/-- A sum with one summand changed. -/
theorem sum_range_update {f g : Nat → Nat} {i : Nat} : ∀ {count : Nat}, i < count → (∀ j, j ≠ i → g j = f j) →
    ((List.range count).map g).sum + f i = ((List.range count).map f).sum + g i
  | count + 1, hi, hsame => by
    simp only [List.range_succ, List.map_append, List.sum_append, List.map_cons, List.map_nil, List.sum_cons,
      List.sum_nil]
    by_cases heq : i = count
    · have hrest : (List.range count).map g = (List.range count).map f := by
        refine List.map_congr_left fun j hj => hsame j ?_
        have := List.mem_range.mp hj
        omega
      rw [hrest, heq]
      omega
    · have ih := sum_range_update (show i < count by omega) hsame
      have hlast := hsame count (Ne.symm heq)
      omega

/-- What an instruction adds to the potential: the weight of its frame, or more than that of any frame. -/
def share (context : MethodContext) (hints : FrameHints υ) (ceiling most : Nat) (s : Analysis)
    (index : Nat) : Nat :=
  match s.frameAt index with
  | none => most + 1
  | some frame => frame.weight context.hierarchy ceiling (hints index)

/-- The potential of a state. -/
def potential (context : MethodContext) (hints : FrameHints υ) (count ceiling most : Nat)
    (s : Analysis) : Nat :=
  ((List.range count).map (share context hints ceiling most s)).sum

/-- The numbers that bound an analysis: instructions, locals, dimensions, and weights of types and of frames. -/
structure Limits (context : MethodContext) (code : Array (CodeOp Nat)) (hints : FrameHints υ)
    (locals depth ceiling most : Nat) : Prop where
  rooted : context.hierarchy.Rooted
  slots : slotBound ≤ locals
  named : ∀ op ∈ code, op.depth ≤ depth
  suggested : ∀ i < code.size, ((hints i).map Frame.depth).getD 0 ≤ depth
  above : VerificationType.Ceiling context.hierarchy depth ceiling
  heaviest : (locals + 2 * code.size) * (ceiling + 1) ≤ most

variable {locals depth ceiling most : Nat}

/-- No frame that keeps the bounds weighs more than `most`. -/
theorem Limits.weight_le (hl : Limits context code hints locals depth ceiling most) {height : Nat}
    (hheight : height ≤ 2 * code.size) {f : AnalysisFrame} (hf : FrameFits locals depth height f)
    (hint : Option (Frame RefType υ)) : f.weight context.hierarchy ceiling hint ≤ most := by
  have hslots : ∀ t ∈ f.locals, t.depth ≤ depth := by
    intro t ht
    obtain ⟨i, hi⟩ := List.mem_iff_getElem?.mp ht
    have := hf.depth.locals i
    unfold slotAt at this
    rw [hi] at this
    exact this
  refine Nat.le_trans (Frame.weight_le hl.above hslots hf.depth.stack)
    (Nat.le_trans (Nat.mul_le_mul_right _ ?_) hl.heaviest)
  have h1 := hf.locals
  have h2 := hf.stack
  omega

/-- The step lemma for one edge: the bounds stay, and the potential pays for the work that is added. -/
theorem Flowed.bounded (hl : Limits context code hints locals depth ceiling most) {edge : FlowEdge}
    {merged : AnalysisFrame} (hs : Bounded code.size locals depth s)
    (hedge : FrameFits locals depth (2 * s.found) edge.2) (hf : Flowed context hints edge s s' merged) :
    Bounded code.size locals depth s' ∧ s.found ≤ s'.found ∧
      potential context hints code.size ceiling most s' + s'.worklist.length ≤
        potential context hints code.size ceiling most s + s.worklist.length := by
  have hinside : edge.1 < code.size := by rw [← hs.size]; exact hf.inside
  have hfound := hf.found
  have hsize : s'.found ≤ code.size := by rw [← hs.size, ← hf.size]; exact s'.found_le
  have hpos : 0 < s'.found := found_pos hf.frameAt_target
  -- the frame at the target keeps the bounds, and what it adds to the potential is less than before or the same
  have hmerged : FrameFits locals depth (2 * (s'.found - 1)) merged ∧
      (s.frameAt edge.1 = some merged ∨ merged.weight context.hierarchy ceiling (hints edge.1) <
        share context hints ceiling most s edge.1) := by
    have hshare : share context hints ceiling most s edge.1 = match s.frameAt edge.1 with
      | none => most + 1
      | some frame => frame.weight context.hierarchy ceiling (hints edge.1) := rfl
    cases hf.outcome with
    | first hnone =>
      rw [hnone] at hfound hshare
      simp only [Option.isSome_none, Bool.false_eq_true, if_false] at hfound
      have hfits : FrameFits locals depth (2 * (s'.found - 1)) edge.2.normalize :=
        hedge.normalize.mono (by omega)
      refine ⟨hfits, .inr ?_⟩
      rw [hshare]
      exact Nat.lt_succ_of_le (hl.weight_le (by omega) hfits (hints edge.1))
    | @again frame _ hsome hm =>
      rw [hsome] at hfound hshare
      simp only [Option.isSome_some, if_true, Nat.add_zero] at hfound
      have hold := hs.frames hsome
      refine ⟨hfound ▸ hold.merge (hl.suggested _ hinside) hedge hm, ?_⟩
      by_cases heq : merged = frame
      · exact .inl (by rw [hsome, heq])
      · right
        rw [hshare]
        have hslots : ∀ t ∈ edge.2.locals, t.depth ≤ depth := by
          intro t ht
          obtain ⟨i, hi⟩ := List.mem_iff_getElem?.mp ht
          have := hedge.depth.locals i
          unfold slotAt at this
          rw [hi] at this
          exact this
        exact Frame.weight_merge hl.rooted hl.above hslots hedge.depth.stack hm heq
  obtain ⟨hfits, hlighter⟩ := hmerged
  have hgrows : s.found ≤ s'.found := by rw [hfound]; omega
  refine ⟨⟨hf.size.trans hs.size, fun {i f} hi => ?_⟩, hgrows, ?_⟩
  · by_cases heq : i = edge.1
    · rw [heq, hf.frameAt_target] at hi
      cases hi
      exact hfits
    · rw [hf.frameAt_of_ne heq] at hi
      exact (hs.frames hi).mono (by omega)
  -- only the share of the target changes: it falls wherever the target goes on the worklist
  · have hothers : ∀ j, j ≠ edge.1 → share context hints ceiling most s' j =
        share context hints ceiling most s j := by
      intro j hj
      unfold share
      rw [hf.frameAt_of_ne hj]
    have hsum := sum_range_update hinside hothers
    have hnew : share context hints ceiling most s' edge.1 = merged.weight context.hierarchy ceiling
        (hints edge.1) := by
      unfold share
      rw [hf.frameAt_target]
    have hwork := hf.worklist
    unfold potential
    rcases hlighter with hsame | hlt
    · rw [if_pos (.inl hsame)] at hwork
      have hold : share context hints ceiling most s edge.1 = merged.weight context.hierarchy ceiling
          (hints edge.1) := by
        unfold share
        rw [hsame]
      rw [hwork]
      omega
    · have hlen : s'.worklist.length ≤ s.worklist.length + 1 := by
        rw [hwork]
        split_ifs
        · exact Nat.le_succ _
        · exact Nat.le_refl _
      omega

/-- The same of edges in a row. -/
theorem bounded_foldlM (hl : Limits context code hints locals depth ceiling most) : ∀ {edges : List FlowEdge}
    {s s' : Analysis} {height : Nat}, Bounded code.size locals depth s → height ≤ 2 * s.found →
      (∀ edge ∈ edges, FrameFits locals depth height edge.2) → edges.foldlM (flow context hints) s = .ok s' →
        Bounded code.size locals depth s' ∧ potential context hints code.size ceiling most s' +
        s'.worklist.length ≤
          potential context hints code.size ceiling most s + s.worklist.length
  | [], s, s', _, hs, _, _, h => by
    cases h
    exact ⟨hs, Nat.le_refl _⟩
  | edge :: edges, s, s', height, hs, hheight, hedges, h => by
    rw [List.foldlM_cons] at h
    obtain ⟨s1, h1, h⟩ := Outcome.except_bind.mp h
    obtain ⟨merged, hf⟩ := flow_ok h1
    obtain ⟨hs1, hfound, hle⟩ := hf.bounded hl hs ((hedges edge List.mem_cons_self).mono hheight)
    obtain ⟨hs', hle'⟩ := bounded_foldlM hl hs1 (by omega) (fun e he => hedges e (List.mem_cons_of_mem _ he)) h
    exact ⟨hs', Nat.le_trans hle' hle⟩

/-- The step lemma: a visit keeps the bounds, and the work it adds is paid for. -/
theorem Bounded.visit (hl : Limits context code hints locals depth ceiling most) {index : Nat}
    (hs : Bounded code.size locals depth s) (h : Analysis.visit context code handlers hints index s = .ok s') :
    Bounded code.size locals depth s' ∧ potential context hints code.size ceiling most s' + s'.worklist.length ≤
      potential context hints code.size ceiling most s + s.worklist.length := by
  rcases visit_ok h with ⟨rfl, -⟩ | ⟨op, frame, successors, hv⟩
  · exact ⟨hs, Nat.le_refl _⟩
  · have hpos := found_pos hv.frame_eq
    have hframe := hs.frames hv.frame_eq
    have hop : op ∈ code := Array.mem_of_getElem? hv.op_eq
    have hsucc := fits_successors hframe hl.slots (hl.named op hop) hv.successors_eq
    -- stacks are at most twice as high as the number of frames found before, and an instruction adds two
    have hheight : 2 * (s.found - 1) + 2 = 2 * s.found := by omega
    rw [hheight] at hsucc
    have hhandlers : ∀ edge ∈ op.handlerEdges handlers index frame successors,
        FrameFits locals depth (2 * s.found) edge.2 :=
      fits_handlerEdges (hframe.mono (by omega)) (by omega) hsucc
    have hcounted : Bounded code.size locals depth
        { s with maxStack := widest (max s.maxStack frame.stackWidth) successors } := ⟨hs.size, hs.frames⟩
    have hedges : ∀ edge ∈ op.handlerEdges handlers index frame successors ++ successors,
        FrameFits locals depth (2 * s.found) edge.2 := fun edge hedge =>
      (List.mem_append.mp hedge).elim (hhandlers edge) (hsucc edge)
    have hrun := bounded_foldlM hl hcounted (Nat.le_refl _) hedges hv.flows
    exact hrun

/-! ## The loop -/

/-- The loop of the analysis with no limit set: after so many visits the worklist is empty, or the last visit
found a fault. -/
inductive Ends (visit : Nat → Analysis → Except AnalysisFault Analysis) :
    Nat → Analysis → Except AnalysisFault Analysis → Prop
  | idle {frames : Array (Option AnalysisFrame)} {maxStack : Nat} :
    Ends visit 0 ⟨frames, maxStack, []⟩ (.ok ⟨frames, maxStack, []⟩)
  | fault {frames : Array (Option AnalysisFrame)} {maxStack index : Nat} {rest : List Nat} {reason :
    AnalysisFault} : visit index ⟨frames, maxStack, rest⟩ = .error reason → Ends visit 1
    ⟨frames, maxStack, index :: rest⟩ (.error reason)
  | visited {frames : Array (Option AnalysisFrame)} {maxStack index : Nat} {rest : List Nat} {visits : Nat}
    {s : Analysis} {result : Except AnalysisFault Analysis} : visit index ⟨frames, maxStack, rest⟩ = .ok s →
      Ends visit visits s result → Ends visit (visits + 1) ⟨frames, maxStack, index :: rest⟩ result

/-- The loop ends in one way only. -/
theorem Ends.unique {visit : Nat → Analysis → Except AnalysisFault Analysis} {visits visits' : Nat} {s : Analysis}
    {result result' : Except AnalysisFault Analysis} (h : Ends visit visits s result)
    (h' : Ends visit visits' s result') : result = result' := by
  induction h generalizing visits' with
  | idle =>
    cases h' with
    | idle => rfl
  | fault h1 =>
    cases h' with
    | fault h2 => exact congrArg _ (Except.error.inj (h1.symm.trans h2))
    | visited h2 _ => cases h1.symm.trans h2
  | visited h1 _ ih =>
    cases h' with
    | fault h2 => cases h1.symm.trans h2
    | visited h2 hrest =>
      obtain rfl := Except.ok.inj (h1.symm.trans h2)
      exact ih hrest

/-- A run that succeeds has come to the end of the loop. -/
theorem ends_of_run {visit : Nat → Analysis → Except AnalysisFault Analysis} : ∀ {visits : Nat} {s s' : Analysis},
    run visit visits s = .ok s' → ∃ taken, Ends visit taken s (.ok s')
  | 0, ⟨_, _, []⟩, _, h => by
    cases h
    exact ⟨0, .idle⟩
  | visits + 1, ⟨_, _, []⟩, _, h => by
    cases h
    exact ⟨0, .idle⟩
  | visits + 1, ⟨_, _, _ :: _⟩, _, h => by
    obtain ⟨s1, h1, hrest⟩ := Outcome.except_bind.mp h
    obtain ⟨taken, hends⟩ := ends_of_run hrest
    exact ⟨taken + 1, .visited h1 hends⟩

/-- The run lemma: the loop ends before it has used up the potential and the worklist, and a run that is allowed
as many visits comes to the same. -/
theorem ends_run (hl : Limits context code hints locals depth ceiling most)
    (handlers : List (Handler Nat BinaryName)) : ∀ {visits : Nat} {s : Analysis},
    Bounded code.size locals depth s →
      potential context hints code.size ceiling most s + s.worklist.length ≤ visits →
        ∃ taken ≤ visits, Ends (Analysis.visit context code handlers hints) taken s
          (run (Analysis.visit context code handlers hints) visits s)
  | 0, ⟨frames, maxStack, []⟩, _, _ => ⟨0, Nat.le_refl 0, .idle⟩
  | 0, ⟨frames, maxStack, _ :: _⟩, _, hle => by
    dsimp only [List.length_cons] at hle
    omega
  | visits + 1, ⟨frames, maxStack, []⟩, _, _ => ⟨0, Nat.zero_le _, .idle⟩
  | visits + 1, ⟨frames, maxStack, index :: rest⟩, hs, hle => by
    unfold run
    dsimp only
    cases h1 : Analysis.visit context code handlers hints index ⟨frames, maxStack, rest⟩ with
    | error reason => exact ⟨1, Nat.succ_le_succ (Nat.zero_le _), .fault h1⟩
    | ok s1 =>
      have hrest : Bounded code.size locals depth ⟨frames, maxStack, rest⟩ := ⟨hs.size, hs.frames⟩
      -- each visit takes one from the potential and the worklist together
      obtain ⟨hs1, hle1⟩ := hrest.visit hl h1
      have hsame : potential context hints code.size ceiling most ⟨frames, maxStack, rest⟩ =
          potential context hints code.size ceiling most ⟨frames, maxStack, index :: rest⟩ := rfl
      dsimp only [List.length_cons] at hle1 hle
      obtain ⟨taken, htaken, hends⟩ := ends_run hl handlers hs1 (by omega : _ ≤ visits)
      exact ⟨taken + 1, Nat.succ_le_succ htaken, .visited h1 hends⟩

/-! ## Faults of the loop -/

/-- What a loop that ends comes to: nothing is left to visit, or an instruction is at fault. -/
theorem Ends.outcome (hhandlers : ∀ handler ∈ handlers, handler.target < code.size) {visits : Nat}
    {result : Except AnalysisFault Analysis}
    (h : Ends (Analysis.visit context code handlers hints) visits s result)
    (hsize : s.frames.size = code.size) :
    (∃ final, result = .ok final ∧ final.worklist = []) ∨ ∃ index reason, result = .error
    (.rejected index reason) := by
  induction h with
  | idle => exact .inl ⟨_, rfl, rfl⟩
  | @fault frames maxStack index rest reason h1 =>
    cases visit_error (s := ⟨frames, maxStack, rest⟩) hsize h1 with
    | rejected why _ => exact .inr ⟨_, why, rfl⟩
    | stray _ hmem _ hle => exact absurd (hhandlers _ hmem) (Nat.not_lt.mpr hle)
  | @visited frames maxStack index rest visits s1 result h1 _ ih =>
    refine ih ?_
    rcases visit_ok h1 with ⟨rfl, -⟩ | ⟨op, frame, successors, hv⟩
    · exact hsize
    · have hrest : (Analysis.mk frames (widest (max maxStack frame.stackWidth) successors) rest).frames.size =
        code.size := hsize
      exact foldlM_flow_induction (P := fun s => s.frames.size = code.size) (fun hs hf => hf.size.trans hs)
        hrest hv.flows

/-! ## The bound on the visits -/

/-- The most dimensions of a type in the input. -/
def depthBound (context : MethodContext) (code : List (CodeOp Nat)) (hints : FrameHints υ) : Nat :=
  max (code.foldl (fun most op => max most op.depth) (context.initialFrame : AnalysisFrame).depth)
    ((List.range code.length).foldl (fun most i => max most (((hints i).map Frame.depth).getD 0)) 0)

/-- The bounds that `visitBound` is computed from. -/
theorem limits (hr : context.hierarchy.Rooted) (code : List (CodeOp Nat)) (hints : FrameHints υ) :
    Limits context code.toArray hints (slotBound + (context.initialFrame : AnalysisFrame).locals.length)
      (depthBound context code hints) (stepBound context code hints)
      ((slotBound + (context.initialFrame : AnalysisFrame).locals.length + 2 * code.length) *
        (stepBound context code hints + 1)) where
  rooted := hr
  slots := Nat.le_add_right _ _
  named := fun op hop => by
    have hmem : op ∈ code := List.mem_toArray.mp hop
    exact Nat.le_trans ((le_foldl_max CodeOp.depth code _).2 op hmem) (Nat.le_max_left _ _)
  suggested := fun i hi => by
    have hmem : i ∈ List.range code.length := List.mem_range.mpr (by rwa [List.size_toArray] at hi)
    exact Nat.le_trans ((le_foldl_max (fun i => ((hints i).map Frame.depth).getD 0) _ _).2 i hmem)
      (Nat.le_max_right _ _)
  above := by
    have hbound : stepBound context code hints = context.hierarchy.classes.size +
      depthBound context code hints + 6 := rfl
    refine ⟨fun t ht => ?_, by omega⟩
    have := context.hierarchy.height_le t
    omega
  heaviest := by rw [List.size_toArray]

/-- The frame on entry keeps the bounds. -/
theorem bounded_start (code : List (CodeOp Nat)) (hints : FrameHints υ) :
    Bounded code.toArray.size (slotBound + (context.initialFrame : AnalysisFrame).locals.length)
      (depthBound context code hints) (start context code.length) where
  size := by
    unfold start
    rw [Array.size_setIfInBounds, Array.size_replicate, List.size_toArray]
  frames := fun {i f} hf => by
    obtain ⟨-, rfl⟩ := frameAt_start hf
    have hdepth : ∀ t ∈ (context.initialFrame : AnalysisFrame).locals,
        t.depth ≤ depthBound context code hints := by
      intro t ht
      refine Nat.le_trans (Frame.depth_le_of_mem (List.mem_append_left _ ht)) ?_
      exact Nat.le_trans (le_foldl_max CodeOp.depth code _).1 (Nat.le_max_left _ _)
    refine ⟨Nat.le_add_left _ _, Nat.zero_le _, fun i => ?_, fun t ht => by cases ht⟩
    unfold slotAt
    cases hget : (context.initialFrame : AnalysisFrame).locals[i]? with
    | none => exact Nat.zero_le _
    | some t => exact hdepth t (List.mem_of_getElem? hget)

/-- The visits allowed are enough for the potential at the start, where all instructions but the first lack a
frame. -/
theorem potential_start (hr : context.hierarchy.Rooted) (code : List (CodeOp Nat)) (hints : FrameHints υ) :
    potential context hints code.toArray.size (stepBound context code hints)
      ((slotBound + (context.initialFrame : AnalysisFrame).locals.length + 2 * code.length) *
        (stepBound context code hints + 1)) (start context code.length) +
        (start context code.length).worklist.length ≤
      visitBound context code hints := by
  unfold visitBound
  dsimp only
  generalize hmost : (slotBound + (context.initialFrame : AnalysisFrame).locals.length + 2 * code.length) *
    (stepBound context code hints + 1) = most
  -- each position has the largest share at most
  have hshare : ∀ x ∈ (List.range code.toArray.size).map
      (share context hints (stepBound context code hints) most (start context code.length)), x ≤ 1 + most := by
    intro x hx
    obtain ⟨i, -, rfl⟩ := List.mem_map.mp hx
    unfold share
    cases hf : (start context code.length).frameAt i with
    | none => exact Nat.le_of_eq (Nat.add_comm _ _)
    | some f =>
      have hfits := ((bounded_start code hints).frames hf).mono
        (show 2 * ((start context code.length).found - 1) ≤ 2 * code.toArray.size by
          have := (start context code.length).found_le
          rw [(bounded_start code hints).size] at this
          omega)
      have hlight := (limits hr code hints).weight_le (Nat.le_refl _) hfits (hints i)
      rw [hmost] at hlight
      exact Nat.le_trans hlight (Nat.le_add_left _ _)
  have hsum := List.sum_le_card_nsmul _ _ hshare
  rw [List.length_map, List.length_range, List.size_toArray, nsmul_eq_mul, Nat.cast_id] at hsum
  unfold potential
  rw [List.size_toArray, Nat.add_comm 1]
  exact Nat.add_le_add_right hsum 1

/-- The analysis answers what its loop comes to with no limit set. -/
theorem ends_analyze (hr : context.hierarchy.Rooted) {code : List (CodeOp Nat)} (hne : code ≠ [])
    (handlers : List (Handler Nat BinaryName)) (hints : FrameHints υ) : ∃ visits ≤ visitBound context code hints,
      Ends (Analysis.visit context code.toArray handlers hints) visits (start context code.length)
        (analyze context code handlers hints) := by
  unfold analyze
  rw [if_neg fun hempty => hne (List.isEmpty_iff.mp hempty)]
  exact ends_run (limits hr code hints) handlers (bounded_start code hints) (potential_start hr code hints)

/-- The analysis always comes to an end by itself: with no limit set its loop takes no more visits than
`visitBound`, at the end nothing is left to visit or an instruction is at fault, and that is what the analysis
answers. Cycles of superclasses, missing classes and senseless hints do not matter, as long as the root class
has no superclass. -/
theorem analyze_ends (hr : context.hierarchy.Rooted) (code : List (CodeOp Nat)) (hints : FrameHints υ)
    (hhandlers : ∀ handler ∈ handlers, handler.target < code.length) :
    ∃ visits ≤ visitBound context code hints, ∃ result,
      Ends (Analysis.visit context code.toArray handlers hints) visits (start context code.length) result ∧
        ((∃ final, result = .ok final ∧ final.worklist = []) ∨ ∃ index reason,
        result = .error (.rejected index reason)) ∧
          analyze context code handlers hints =
            if code = [] then .error (.rejected 0 .fallsOffEnd) else result := by
  obtain ⟨visits, hvisits, hends⟩ := ends_run (limits hr code hints) handlers (bounded_start code hints)
    (potential_start hr code hints)
  have hhandlers' : ∀ handler ∈ handlers, handler.target < code.toArray.size := fun handler hmem => by
    rw [List.size_toArray]
    exact hhandlers handler hmem
  refine ⟨visits, hvisits, _, hends, hends.outcome hhandlers' (bounded_start code hints).size, ?_⟩
  unfold analyze
  simp only [List.isEmpty_iff]

/-- Two classes that extend each other. -/
def ringHierarchy : Hierarchy :=
  (Hierarchy.empty.add ⟨⟨"A", Eq.refl true⟩, some ⟨"B", Eq.refl true⟩, [], false⟩).add
    ⟨⟨"B", Eq.refl true⟩, some ⟨"A", Eq.refl true⟩, [], false⟩

/-- A static method that takes objects of both classes. -/
def ringContext : MethodContext :=
  ⟨⟨⟨"C", Eq.refl true⟩, ⟨"m", Eq.refl true⟩,
    ⟨[.ref (.object ⟨"A", Eq.refl true⟩), .ref (.object ⟨"B", Eq.refl true⟩)], none⟩⟩, true, true,
    ringHierarchy⟩

/-- A loop that exchanges its two arguments for ever, with a handler for all of it. -/
def exchangeLoop : List (CodeOp Nat) :=
  [.plain (.load .ref 0), .plain (.load .ref 1), .plain (.store .ref 0), .plain (.store .ref 1),
    .branch (.goto 0), .branch .athrow]

/-- The loop is analysed, though each class is above the other. -/
theorem analyze_ends_ring : ringContext.hierarchy.Rooted ∧
    ∃ visits ≤ visitBound ringContext exchangeLoop (fun _ => (none : Option (Frame RefType Label))), ∃ result,
      Ends (Analysis.visit ringContext exchangeLoop.toArray [⟨0, 5, 5, none⟩] fun _ =>
      (none : Option (Frame RefType Label)))
          visits (start ringContext exchangeLoop.length) result ∧
        ((∃ final, result = .ok final ∧ final.worklist = []) ∨ ∃ index reason,
          result = .error (.rejected index reason)) ∧ analyze ringContext exchangeLoop [⟨0, 5, 5, none⟩]
          (fun _ => (none : Option (Frame RefType Label))) =
            if exchangeLoop = [] then .error (.rejected 0 .fallsOffEnd) else result := by
  have hr : ringContext.hierarchy.Rooted := by
    refine Hierarchy.rooted_add (Hierarchy.rooted_add Hierarchy.rooted_empty ?_) ?_
    · decide
    · decide
  refine ⟨hr, analyze_ends hr exchangeLoop _ fun handler hmem => ?_⟩
  rw [List.mem_singleton.mp hmem]
  decide

end Analysis

end ClassWeave
