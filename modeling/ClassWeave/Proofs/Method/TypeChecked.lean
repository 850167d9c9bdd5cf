import ClassWeave.Proofs.Frame.Whole
import ClassWeave.Proofs.Method.Bounds
import ClassWeave.Proofs.Method.Room

/-!
# Assembled code passes the check

Strict code that is assembled is read back as a body that passes the check of the type-checking verifier: the
stack map table has a frame wherever one is asked for, and what flows there is assignable to it. Classes that
the hints of the method name are taken at their word (`Suggests`).
-/

namespace ClassWeave

open Analysis (Reachable JumpTarget)

/-! ## Where instructions come to stand -/

/-- Reachable instructions stand in a body, each at its own place and in order. A conditional branch may have
become its negation over a jump. -/
structure ResolvedBody.Places (body : ResolvedBody) (ops : List (CodeOp Nat))
    (handlers : List (Handler Nat BinaryName)) (place : Nat → Nat) : Prop where
  increasing : ∀ {i j}, Reachable ops handlers i → Reachable ops handlers j → i < j → place i < place j
  instruction : ∀ {i op}, Reachable ops handlers i → ops[i]? = some op → (place i, op.mapTargets place) ∈
    body.ops ∨ ∃ condition target, op = .branch (.conditional condition target) ∧
      (place i, .branch (.conditional condition.negate (place i + 8))) ∈ body.ops ∧
        (place i + 3, .branch (.goto (place target))) ∈ body.ops

/-- The frames that a method came with, at the places of their instructions. -/
structure MethodCode.Suggests (code : MethodCode) (ops : List (CodeOp Nat))
    (handlers : List (Handler Nat BinaryName)) (place : Nat → Nat)
    (suggested : Nat → Option (Frame RefType Label)) : Prop where
  reachable : ∀ {i}, Reachable ops handlers i → suggested (place i) = code.frameHints i
  only : ∀ {offset hint}, suggested offset = some hint → ∃ i, Reachable ops handlers i ∧ place i = offset

/-- The frames that are suggested at the places of the instructions with frames. -/
def Analysis.suggestedAt {υ : Type} (hints : FrameHints υ) (s : Analysis) (place : Nat → Nat) (offset : Nat) :
    Option (Frame RefType υ) :=
  ((List.range s.frames.size).find? fun i => (s.frameAt i).isSome && place i == offset).bind hints

theorem Analysis.suggestedAt_place {υ : Type} {hints : FrameHints υ} {s : Analysis}
    {place : Nat → Nat} {i : Nat} {f : AnalysisFrame}
    (hinj : ∀ j g, s.frameAt j = some g → place j = place i → j = i) (hf : s.frameAt i = some f) :
    s.suggestedAt hints place (place i) = hints i := by
  unfold suggestedAt
  cases hfind : (List.range s.frames.size).find? fun j => (s.frameAt j).isSome && place j == place i with
  | none =>
    have hnone := List.find?_eq_none.mp hfind i (List.mem_range.mpr (frameAt_lt hf))
    rw [hf, beq_self_eq_true] at hnone
    exact absurd rfl hnone
  | some j =>
    have hfound := List.find?_some hfind
    rw [Bool.and_eq_true, beq_iff_eq] at hfound
    obtain ⟨g, hg⟩ := Option.isSome_iff_exists.mp hfound.1
    rw [hinj j g hg hfound.2]
    rfl

theorem Analysis.suggestedAt_some {υ : Type} {hints : FrameHints υ} {s : Analysis} {place : Nat → Nat}
    {offset : Nat} {hint : Frame RefType υ} (h : s.suggestedAt hints place offset = some hint) :
    ∃ i f, s.frameAt i = some f ∧ place i = offset := by
  unfold suggestedAt at h
  obtain ⟨i, hfind, -⟩ := Option.bind_eq_some_iff.mp h
  have hfound := List.find?_some hfind
  rw [Bool.and_eq_true, beq_iff_eq] at hfound
  obtain ⟨f, hf⟩ := Option.isSome_iff_exists.mp hfound.1
  exact ⟨i, f, hf, hfound.2⟩

/-! ## What is stored -/

namespace MethodCode

variable {code : MethodCode} {context : MethodContext} {ops : List (CodeOp Nat)}
  {handlers : List (Handler Nat BinaryName)} {s : Analysis} {body : MethodBody} {maxStack maxLocals : Nat}
  {layout : Layout}

/-- Frames are recorded in the order of their offsets. -/
theorem recorded_increasing (hlt : ∀ j k, j < k → k < body.frames.length → layout.offset j < layout.offset k) :
    (recorded body layout).Pairwise fun x y => layout.offset x.2 < layout.offset y.2 := by
  have hindices : (body.frames.zipIdx.map Prod.snd).Pairwise (· < ·) := by
    rw [List.zipIdx_map_snd]
    exact List.pairwise_lt_range'
  refine List.Pairwise.filter _ ?_
  refine (List.pairwise_map.mp hindices).imp_of_mem fun {x y} _ hy hxy => hlt x.2 y.2 hxy ?_
  exact (List.getElem?_eq_some_iff.mp (List.mem_zipIdx_iff_getElem?.mp hy)).1

namespace Analyzed

variable (h : Analyzed code context ops handlers s body maxStack maxLocals)

include h

/-- The frame on entry can be stored. -/
theorem initial_storable (hw : code.IsWritable context) :
    (context.initialFrame : AnalysisFrame).Storable layout := by
  have holds : (context.initialFrame : AnalysisFrame).Holds (·.Storable layout) := by
    -- types that name neither a class nor a site are stored as they are
    have none : ∀ {t : AnalysisType}, (∀ type, t ≠ .object type) → (∀ site, t ≠ .uninitialized site) →
        t.Storable layout :=
      fun hobject hsite => ⟨fun type heq => absurd heq (hobject type), fun site heq => absurd heq (hsite site)⟩
    refine Analysis.holds_initialFrame ?_ ?_ ?_ ?_
    · exact none (fun _ heq => by cases heq) fun _ heq => by cases heq
    · exact none (fun _ heq => by cases heq) fun _ heq => by cases heq
    · exact ⟨fun type heq => (by cases heq; trivial), fun site heq => (by cases heq)⟩
    · intro type htype
      refine ⟨fun t heq => ?_, fun site heq => absurd heq (VerificationType.ofFieldType_ne type site)⟩
      have hdepth := FieldType.depth_of_isWritable (hw.parameters type htype)
      rw [heq] at hdepth
      exact RefType.isWritable_of_depth hdepth
  have hlocals := argumentWords_le_maxLocals context.method.descriptor context.isStatic body.ops
  have hlen := Frame.length_compact_le (context.initialFrame : AnalysisFrame).locals
  have hmax := h.maxLocals_le
  unfold maxFrameSize at hmax
  rw [← h.maxLocals_eq, ← context.length_initialFrame] at hlocals
  refine ⟨fun t ht => ?_, ?_, Nat.pow_pos (by decide)⟩
  · rcases List.mem_append.mp ht with ht | ht
    · obtain ⟨slot, hslot⟩ := List.mem_iff_getElem?.mp ht
      have hstored := holds.locals slot
      unfold Frame.slotAt at hstored
      rwa [hslot] at hstored
    · cases ht
  · change (Frame.compact _).length < _
    omega

/-- The frames of a collapsed body can be stored. -/
theorem frame_storable (hstrict : context.strict = true) (hw : code.IsWritable context)
    (hshort : ∀ k < body.ops.length, layout.offset k < 2 ^ 16) {frame : AnalysisFrame} {k : Nat}
    (hk : body.frames[k]? = some frame) : frame.Storable layout := by
  have hlocals := h.maxLocals_le
  have hstack := h.maxStack_le
  unfold maxFrameSize at hlocals hstack
  rcases h.frame_cases hstrict hk with ⟨i, f, hf, rfl⟩ | rfl
  · have hdepth := h.depth_of_frameAt hw hf
    have hsite := h.site_of_frameAt hf
    have hcount := h.locals_of_frameAt hstrict hf
    have hheight := h.stack_of_frameAt hf
    -- one type: arrays have few enough dimensions, and creation sites have offsets
    have stored : ∀ t : AnalysisType, DepthAtMost maxDimensions t →
        VerificationType.SiteIn (fun k => ∃ g, s.frameAt k = some g) t →
          (t.mapSite (MethodBody.collapsedAt s.frames)).Storable layout := by
      intro t htype hsites
      cases t with
      | object type =>
        exact ⟨fun type heq => (by cases heq; exact RefType.isWritable_of_depth htype),
        fun site heq => (by cases heq)⟩
      | uninitialized site =>
        refine ⟨fun type heq => (by cases heq), fun site' heq => ?_⟩
        cases heq
        obtain ⟨g, hg⟩ := hsites site rfl
        exact hshort _ (h.collapsedAt_lt hstrict hg)
      | _ => exact ⟨fun type heq => (by cases heq), fun site heq => (by cases heq)⟩
    refine ⟨fun t ht => ?_, ?_, ?_⟩
    · rcases List.mem_append.mp ht with ht | ht
      · obtain ⟨u, hu, rfl⟩ := List.mem_map.mp ht
        obtain ⟨slot, hslot⟩ := List.mem_iff_getElem?.mp hu
        have htype := hdepth.locals slot
        have hsites := hsite.locals slot
        unfold Frame.slotAt at htype hsites
        rw [hslot] at htype hsites
        exact stored u htype hsites
      · obtain ⟨u, hu, rfl⟩ := List.mem_map.mp ht
        exact stored u (hdepth.stack u hu) (hsite.stack u hu)
    · rw [Frame.toRecord_mapSites]
      change ((Frame.compact f.locals).map _).length < _
      rw [List.length_map]
      omega
    · change (f.stack.map _).length < _
      rw [List.length_map]
      omega
  · refine ⟨fun t ht => ?_, Nat.pow_pos (by decide), by decide⟩
    rw [List.mem_singleton.mp ht]
    exact ⟨fun type heq => (by cases heq; trivial), fun site heq => (by cases heq)⟩

/-- The frames of a collapsed body are whole. -/
theorem frame_whole (hstrict : context.strict = true) {frame : AnalysisFrame} {k : Nat}
    (hk : body.frames[k]? = some frame) : Frame.Whole frame.locals := by
  rcases h.frame_cases hstrict hk with ⟨i, f, hf, rfl⟩ | rfl
  · exact Frame.whole_map rfl (VerificationType.isWide_mapSite _) (Analysis.whole_of_frameAt h.analysis hf)
  · trivial

end Analyzed

/-! ## What is read back -/

/-- Other tables than stack maps add no frames. -/
theorem resolveFrames_other {r : Pool} {initial : AnalysisFrame} {entry : Attribute UInt16} {name : String}
    (hname : r.text entry.name = .ok name) (hne : name ≠ StackMapEntry.tableName) :
    CodeAttribute.resolveFrames r initial entry = .ok [] := by
  unfold CodeAttribute.resolveFrames
  exact Outcome.except_bind.mpr ⟨name, hname, if_neg hne⟩

theorem resolveFrames_others {r : Pool} {initial : AnalysisFrame} {tables : List (Attribute UInt16)}
    (h : ∀ entry ∈ tables, CodeAttribute.resolveFrames r initial entry = .ok []) :
    ∃ frames, tables.mapM (CodeAttribute.resolveFrames r initial) = .ok frames ∧ frames.flatten = [] := by
  refine ⟨tables.map fun _ => [], Outcome.except_mapM.mpr ?_, ?_⟩
  · exact List.forall₂_map_right_iff.mpr (List.forall₂_same.mpr h)
  · exact List.flatten_eq_nil_iff.mpr fun frames hframes => by
      obtain ⟨entry, -, rfl⟩ := List.mem_map.mp hframes
      rfl

/-- The body that is read back from laid-out strict code. -/
def readBack (body : MethodBody) (layout : Layout) : ResolvedBody :=
  ⟨layout.placedOps body.ops,
    (recorded body layout).map fun entry => (layout.offset entry.2, entry.1.mapSites layout.offset),
    body.handlers.map (Handler.move layout.offset)⟩

variable {p q : Pool} {attr : CodeAttribute} {items : List LayoutItem}

/-- Offsets in assembled code have 16 bits. -/
theorem Assembled.offset_short (h : Assembled code context p q attr body maxStack maxLocals items) {r : Pool}
    (hencoding : Layout.Encoding r body.ops items) {k : Nat} (hk : k ≤ body.ops.length) :
    (Layout.ofItems items).offset k < 2 ^ 16 := by
  have hlen := h.length_le
  have hend : (Layout.ofItems items).offset k ≤ (Layout.ofItems items).code.length := by
    rw [← Layout.offset_length, ← hencoding.length_eq]
    rcases Nat.lt_or_eq_of_le hk with hlt | rfl
    · exact Nat.le_of_lt (hencoding.offset_lt hlt (Nat.le_of_eq hencoding.length_eq))
    · exact Nat.le_refl _
  unfold CodeAttribute.maxCodeLength at hlen
  omega

/-- An instruction takes a byte at least. -/
theorem Assembled.length_ops_lt (h : Assembled code context p q attr body maxStack maxLocals items) {r : Pool}
    (hencoding : Layout.Encoding r body.ops items) : body.ops.length < 2 ^ 16 := by
  have hoffset : ∀ k ≤ body.ops.length, k ≤ (Layout.ofItems items).offset k := by
    intro k hk
    induction k with
    | zero => exact Nat.zero_le _
    | succ k ih =>
      have hlt := hencoding.offset_lt (show k < k + 1 by omega) (hencoding.length_eq ▸ hk)
      have hle := ih (Nat.le_of_succ_le hk)
      omega
  have hle := hoffset _ (Nat.le_refl _)
  have hlt := h.offset_short hencoding (Nat.le_refl _)
  omega

/-- Assembled strict code is read back. -/
theorem Assembled.readBack_ok (h : Assembled code context p q attr body maxStack maxLocals items)
    (hp : p.WellFormed) (hstrict : context.strict = true) (hw : code.IsWritable context)
    (hanalyzed : Analyzed code context ops handlers s body maxStack maxLocals) :
    Interning.Result p q (∀ r, q.Grows r → Layout.Encoding r body.ops items ∧
      attr.resolve r context.initialFrame = .ok (readBack body (Layout.ofItems items))) := by
  obtain ⟨p1, p2, p3, p4, stackMaps, lineTables, variableTables, hitems, hhandlers, hmaps, hlines, hvariables,
      hattributes⟩ :=
    h.steps
  -- each step stores into what the steps before it left; results stay as the pool grows
  have r1 := Interning.layoutItems_ok hp (hanalyzed.ops_writable hstrict hw) hitems
  have hencoding := r1.post p1 (Pool.Grows.refl p1)
  have hshort : ∀ k ≤ body.ops.length, (Layout.ofItems items).offset k < 2 ^ 16 :=
    fun k hk => h.offset_short hencoding hk
  have hframes : body.frames.length = body.ops.length := by
    rw [hanalyzed.body_eq, if_pos hstrict]
    exact MethodBody.length_collapse
  have r2 := Interning.handlers_ok r1.wellFormed (fun handler hmem => by
    obtain ⟨hstart, hstop, htarget⟩ := hanalyzed.handlers_inside hstrict handler hmem
    exact ⟨hshort _ hstart, hshort _ hstop, hshort _ (Nat.le_of_lt htarget)⟩) hhandlers
  -- the frames have offsets that fit, in the order of the offsets
  have hstorable : ∀ x ∈ recorded body (Layout.ofItems items),
      x.1.Storable (Layout.ofItems items) ∧ (Layout.ofItems items).offset x.2 < 2 ^ 16 := by
    intro x hx
    have hget := List.mem_zipIdx_iff_getElem?.mp (List.mem_filter.mp hx).1
    have hlt := (List.getElem?_eq_some_iff.mp hget).1
    refine ⟨hanalyzed.frame_storable hstrict hw (fun k hk => hshort k (Nat.le_of_lt hk)) hget, hshort _ ?_⟩
    omega
  have hincreasing := @recorded_increasing body (Layout.ofItems items) fun j k hjk hk =>
    hencoding.offset_lt hjk (by rw [← hencoding.length_eq]; omega)
  have hcount : (recorded body (Layout.ofItems items)).length < 2 ^ 16 := by
    have hle := length_recorded_le body (Layout.ofItems items)
    have hlt := h.length_ops_lt hencoding
    omega
  have r3 := stackMapTable_ok r2.wellFormed hstrict
    (hanalyzed.initial_storable hw) context.siteless_initialFrame hstorable hincreasing hcount hmaps
  have r4 := lineTable_ok r3.wellFormed hlines
  have r5 := variableTables_ok r4.wellFormed hvariables
  have g45 := r4.grows.trans r5.grows
  have g35 := r3.grows.trans g45
  have g25 := r2.grows.trans g35
  refine ⟨r5.wellFormed, r1.grows.trans g25, fun r hr => ?_⟩
  have hencoding' := r1.post r (g25.trans hr)
  refine ⟨hencoding', ?_⟩
  -- reading: first the code, then the attributes, of which only one has frames
  have hcode : Code.decode attr.code r = .ok ((Layout.ofItems items).placedOps body.ops) := by
    rw [h.code_eq]
    have hlen := h.length_le
    unfold CodeAttribute.maxCodeLength at hlen
    exact hencoding'.decode (by omega) (fun _ => hanalyzed.ops_writable hstrict hw _)
      (hanalyzed.targets_inside hstrict) fun k condition target hk _ =>
      hanalyzed.conditional_not_last hstrict hk
  obtain ⟨frames, hread, hflatten⟩ := r3.post r (g45.trans hr)
  obtain ⟨none1, hread1, hflatten1⟩ := resolveFrames_others fun entry hentry =>
    @resolveFrames_other r context.initialFrame entry _ ((r5.grows.trans hr).text (r4.post entry hentry))
      (by decide)
  obtain ⟨none2, hread2, hflatten2⟩ := resolveFrames_others fun entry hentry => by
    rcases r5.post entry hentry with hname | hname
    · exact @resolveFrames_other r context.initialFrame entry _ (hr.text hname) (by decide)
    · exact @resolveFrames_other r context.initialFrame entry _ (hr.text hname) (by decide)
  have hall : attr.attributes.mapM (CodeAttribute.resolveFrames r context.initialFrame) =
      .ok (frames ++ none1 ++ none2) := by
    rw [hattributes]
    refine Outcome.except_mapM.mpr ?_
    exact List.rel_append (List.rel_append (Outcome.except_mapM.mp hread) (Outcome.except_mapM.mp hread1))
      (Outcome.except_mapM.mp hread2)
  -- wide types lose their second halves in a table and get them back when it is read
  have hwhole : (frames ++ none1 ++ none2).flatten = (readBack body (Layout.ofItems items)).frames := by
    rw [List.flatten_append, List.flatten_append, hflatten, hflatten1, hflatten2, List.append_nil,
      List.append_nil]
    refine List.map_congr_left fun x hx => ?_
    have hget := List.mem_zipIdx_iff_getElem?.mp (List.mem_filter.mp hx).1
    rw [← Frame.toRecord_mapSites, Frame.toFrame_toRecord
      (Frame.whole_map rfl (VerificationType.isWide_mapSite _) (hanalyzed.frame_whole hstrict hget))]
  unfold CodeAttribute.resolve
  refine Outcome.except_bind.mpr ⟨_, hcode,
    Outcome.except_bind.mpr ⟨_, hall, Outcome.except_bind.mpr ⟨_, r2.post r (g35.trans hr), ?_⟩⟩⟩
  rw [hwhole]
  rfl

/-! ## The check -/

namespace Analyzed

variable (h : Analyzed code context ops handlers s body maxStack maxLocals)

include h

theorem place_lt (hstrict : context.strict = true)
    {r : Pool} (hencoding : Layout.Encoding r body.ops items) {i j : Nat} {f g : AnalysisFrame} (hij : i < j)
    (hf : s.frameAt i = some f) (hg : s.frameAt j = some g) : Laid.place items s i < Laid.place items s j := by
  refine hencoding.offset_lt (MethodBody.collapsedAt_lt hij hf hg) ?_
  rw [← hencoding.length_eq]
  exact Nat.le_of_lt (h.collapsedAt_lt hstrict hg)

theorem place_inj (hstrict : context.strict = true)
    {r : Pool} (hencoding : Layout.Encoding r body.ops items) {i j : Nat} {f g : AnalysisFrame}
    (hf : s.frameAt i = some f) (hg : s.frameAt j = some g)
    (heq : Laid.place items s i = Laid.place items s j) : i = j := by
  rcases Nat.lt_trichotomy i j with hlt | rfl | hlt
  · have := h.place_lt hstrict hencoding hlt hf hg
    omega
  · rfl
  · have := h.place_lt hstrict hencoding hlt hg hf
    omega

/-- Assembled code lies as the check needs it. -/
theorem laid (hr : context.hierarchy.Rooted) (hstrict : context.strict = true)
    (hfixpoint : Analysis.Fixpoint context ops handlers code.frameHints s) {r : Pool}
    (hencoding : Layout.Encoding r body.ops items)
    (hjumps : ∀ i, Reachable ops handlers i → code.frameHints i ≠ none → JumpTarget ops handlers i) :
    Laid context ops handlers code.frameHints s body r items
    (s.suggestedAt code.frameHints (Laid.place items s))
      (readBack body (Layout.ofItems items)) where
  rooted := hr
  strict_eq := hstrict
  fixpoint := hfixpoint
  sites := h.site_of_frameAt
  hinted := fun {i f} hf hhint => by
    cases hjumps i (Analysis.reachable_of_frameAt h.analysis hf) hhint with
    -- hints are at targets of what is reached
    | @branch index _ op hreach hop htarget =>
      obtain ⟨g, hg⟩ := h.covers.frameAt_of_reachable hreach
      exact .inl ⟨index, op, g, hop, hg, htarget⟩
    | @handler index handler hreach _ hmem hcovers =>
      obtain ⟨g, hg⟩ := h.covers.frameAt_of_reachable hreach
      exact .inr ⟨handler, hmem, index, g, hcovers, hg, rfl⟩
  collapsed_eq := by rw [h.body_eq, if_pos hstrict]
  encoding := hencoding
  suggested_eq := fun hf => Analysis.suggestedAt_place
    (fun j g hg heq => h.place_inj hstrict hencoding hg hf heq) hf
  ops_eq := rfl
  frames_eq := rfl
  handlers_eq := rfl

/-- Reachable instructions stand at their places. -/
theorem places (hstrict : context.strict = true)
    {r : Pool} (hencoding : Layout.Encoding r body.ops items) :
    (readBack body (Layout.ofItems items)).Places ops handlers (Laid.place items s) where
  increasing := fun {i j} hi hj hij => by
    obtain ⟨f, hf⟩ := h.covers.frameAt_of_reachable hi
    obtain ⟨g, hg⟩ := h.covers.frameAt_of_reachable hj
    exact h.place_lt hstrict hencoding hij hf hg
  instruction := fun {i op} hi hop => by
    obtain ⟨f, hf⟩ := h.covers.frameAt_of_reachable hi
    have hstays := h.op_stays hstrict hop hf
    -- what an instruction was written as stands in the code that is read back
    have hmem : ∀ entry ∈ (op.mapTargets (MethodBody.collapsedAt s.frames)).placed (Layout.ofItems items)
        (MethodBody.collapsedAt s.frames i), entry ∈ (readBack body (Layout.ofItems items)).ops :=
        fun entry hentry =>
      List.mem_flatMap.mpr ⟨(_, _), List.mem_zipIdx_iff_getElem?.mpr hstays, hentry⟩
    have hmap : (op.mapTargets (MethodBody.collapsedAt s.frames)).mapTargets (Layout.ofItems items).offset =
        op.mapTargets (Laid.place items s) := by
      cases op with
      | plain instruction => rfl
      | branch b => cases b <;> simp only [CodeOp.mapTargets, Branch.mapTargets, List.map_map] <;> rfl
    -- only conditional branches may have been written as two instructions
    by_cases hcond : ∃ condition target, op = .branch (.conditional condition target)
    · obtain ⟨condition, target, rfl⟩ := hcond
      by_cases hwidened : MethodBody.collapsedAt s.frames i ∈ (Layout.ofItems items).widened
      · rw [show (CodeOp.branch (.conditional condition target)).mapTargets (MethodBody.collapsedAt s.frames) =
          .branch (.conditional condition (MethodBody.collapsedAt s.frames target)) from rfl] at hmem
        unfold CodeOp.placed at hmem
        dsimp only at hmem
        rw [if_pos hwidened] at hmem
        exact .inr ⟨condition, target, rfl, hmem _ List.mem_cons_self,
          hmem _ (List.mem_cons_of_mem _ List.mem_cons_self)⟩
      · rw [show (CodeOp.branch (.conditional condition target)).mapTargets (MethodBody.collapsedAt s.frames) =
          .branch (.conditional condition (MethodBody.collapsedAt s.frames target)) from rfl] at hmem
        unfold CodeOp.placed at hmem
        dsimp only at hmem
        rw [if_neg hwidened] at hmem
        exact .inl (hmem _ List.mem_cons_self)
    · refine .inl (hmem _ ?_)
      rw [← hmap]
      cases op with
      | plain instruction => exact List.mem_cons_self
      | branch b =>
        cases b with
        | conditional condition target => exact absurd ⟨condition, target, rfl⟩ hcond
        | _ => exact List.mem_cons_self

end Analyzed

/-- Strict code that is assembled passes the check of the type-checking verifier, if the frames that the method
came with stand where control flow jumps to. -/
theorem assemble_passes (hp : p.WellFormed) (hr : context.hierarchy.Rooted) (hstrict : context.strict = true)
    (hw : code.IsWritable context)
    (hjumps : ∀ ops handlers, code.resolve = .ok (ops, handlers) →
      ∀ i, Reachable ops handlers i → code.frameHints i ≠ none → JumpTarget ops handlers i)
    (h : code.assemble context p = .ok attr q) :
    ∃ ops handlers place suggested body, code.resolve = .ok (ops, handlers) ∧
      attr.resolve q context.initialFrame = .ok body ∧ body.Places ops handlers place ∧
        code.Suggests ops handlers place suggested ∧ TypeCheck.Passes context suggested body := by
  obtain ⟨collapsed, maxStack, maxLocals, items, hassembled⟩ := assemble_ok h
  obtain ⟨ops, handlers, s, hanalyzed⟩ := analyzed_ok hassembled.analyzed_eq
  have hfixpoint := Analysis.fixpoint_analyze hr hanalyzed.analysis
  have hread := hassembled.readBack_ok hp hstrict hw hanalyzed
  obtain ⟨hencoding, hresolve⟩ := hread.post q (Pool.Grows.refl q)
  have hlaid := hanalyzed.laid hr hstrict hfixpoint hencoding (hjumps ops handlers hanalyzed.resolved)
  refine ⟨ops, handlers, Laid.place items s, s.suggestedAt code.frameHints (Laid.place items s), _,
    hanalyzed.resolved, hresolve, hanalyzed.places hstrict hencoding, ⟨fun hi => ?_, fun hsuggested => ?_⟩,
    hlaid.passes⟩
  · obtain ⟨f, hf⟩ := hanalyzed.covers.frameAt_of_reachable hi
    exact hlaid.suggested_eq hf
  · obtain ⟨i, f, hf, hplace⟩ := Analysis.suggestedAt_some hsuggested
    exact ⟨i, Analysis.reachable_of_frameAt hanalyzed.analysis hf, hplace⟩

/-! ## A loop with a frame -/

/-- The array types that the loop below takes. -/
def loopTypes : List RefType :=
  [.array 0 (.base .int), .array 0 (.base .long)]

/-- A loop that overwrites its first argument with its second, with a frame at one of its instructions. Only the
jump behind its end, which is unreachable, leads to its second instruction. -/
def framedLoop (framed : Nat) : MethodCode :=
  ⟨#[.plain (.simple .constInt0), .branch (.conditional (.zero .eq) ⟨5⟩), .plain (.load .ref 1),
      .plain (.store .ref 0), .branch (.goto ⟨0⟩), .branch .returnVoid, .branch (.goto ⟨1⟩)],
    ((Std.HashMap.emptyWithCapacity.insert ⟨0⟩ 0).insert ⟨1⟩ 1).insert ⟨5⟩ 5, #[], #[], #[],
    Std.HashMap.emptyWithCapacity.insert framed ⟨loopTypes.map .object, [.integer]⟩⟩

/-- A static method that takes an `int[]` and a `long[]`. -/
def loopContext : MethodContext :=
  ⟨⟨⟨"C", Eq.refl true⟩, ⟨"m", Eq.refl true⟩, ⟨loopTypes.map .ref, none⟩⟩, true, true, .empty⟩

/-- The loop with positions for labels. -/
def loopOps : List (CodeOp Nat) :=
  [.plain (.simple .constInt0), .branch (.conditional (.zero .eq) 5), .plain (.load .ref 1),
    .plain (.store .ref 0), .branch (.goto 0), .branch .returnVoid, .branch (.goto 1)]

/-- The frames of the loop; `first` is what is known of the first local where the loop starts. -/
def loopFrames (first : RefType) : Array (Option AnalysisFrame) :=
  let ints : AnalysisType := .object (.array 0 (.base .int))
  let longs : AnalysisType := .object (.array 0 (.base .long))
  #[some ⟨[.object first, longs], []⟩, some ⟨[ints, longs], [.integer]⟩, some ⟨[ints, longs], []⟩,
    some ⟨[ints, longs], [longs]⟩, some ⟨[longs, longs], []⟩, some ⟨[ints, longs], []⟩, none]

theorem resolve_framedLoop (framed : Nat) : (framedLoop framed).resolve = .ok (loopOps, []) := by
  have hposition : ∀ label : Label, label = ⟨0⟩ ∨ label = ⟨1⟩ ∨ label = ⟨5⟩ →
      (framedLoop framed).position label = .ok label.number := by
    intro label h
    have hget : (framedLoop framed).labels[label]? = some label.number := by
      unfold framedLoop
      rw [Std.HashMap.getElem?_insert, Std.HashMap.getElem?_insert, Std.HashMap.getElem?_insert]
      rcases h with rfl | rfl | rfl <;> rfl
    unfold position
    rw [hget]
  have hops : (framedLoop framed).ops.toList.mapM (·.convertTargets (framedLoop framed).position) =
      .ok loopOps := by
    refine Outcome.except_mapM.mpr (.cons rfl
      (.cons ?_ (.cons rfl (.cons rfl (.cons ?_ (.cons rfl (.cons ?_ .nil)))))))
    · exact Outcome.except_bind.mpr ⟨_, Outcome.except_bind.mpr ⟨5, hposition ⟨5⟩ (.inr (.inr rfl)), rfl⟩, rfl⟩
    · exact Outcome.except_bind.mpr ⟨_, Outcome.except_bind.mpr ⟨0, hposition ⟨0⟩ (.inl rfl), rfl⟩, rfl⟩
    · exact Outcome.except_bind.mpr ⟨_, Outcome.except_bind.mpr ⟨1, hposition ⟨1⟩ (.inr (.inl rfl)), rfl⟩, rfl⟩
  exact Outcome.except_bind.mpr ⟨loopOps, hops, rfl⟩

theorem frameHints_framedLoop (framed index : Nat) : (framedLoop framed).frameHints index =
    if framed = index then some ⟨loopTypes.map .object, [.integer]⟩ else none := by
  unfold frameHints framedLoop
  rw [Std.HashMap.getElem?_insert, Std.HashMap.getElem?_emptyWithCapacity]
  by_cases heq : framed = index
  · rw [if_pos heq, if_pos (beq_iff_eq.mpr heq)]
  · rw [if_neg heq, if_neg (fun h => heq (beq_iff_eq.mp h))]

theorem isWritable_framedLoop (framed : Nat) : (framedLoop framed).IsWritable loopContext where
  ops := by
    intro op hop
    have hmem := Array.mem_toList_iff.mpr hop
    unfold framedLoop at hmem
    simp only [List.mem_cons, List.not_mem_nil, or_false] at hmem
    rcases hmem with rfl | rfl | rfl | rfl | rfl | rfl | rfl <;> exact ⟨trivial, Nat.zero_le _⟩
  parameters := by
    intro type htype
    obtain ⟨t, ht, rfl⟩ := List.mem_map.mp htype
    have hcases : t = .array 0 (.base .int) ∨ t = .array 0 (.base .long) := by
      simpa only [loopTypes, List.mem_cons, List.not_mem_nil, or_false] using ht
    rcases hcases with rfl | rfl
    · exact (by decide : 0 + 1 ≤ maxDimensions)
    · exact (by decide : 0 + 1 ≤ maxDimensions)
  hints := by
    intro index hint h
    rw [frameHints_framedLoop] at h
    split_ifs at h
    cases h
    decide

/-- The loop without its unreachable end. -/
def loopBody (first : RefType) : MethodBody :=
  MethodBody.collapse loopOps (loopFrames first) []

/-- The loop before it is laid out. -/
def loopItems : List LayoutItem :=
  [.encoded [0x03], .branch (.conditional (.zero .eq) 5), .encoded [0x2b], .encoded [0x4b], .branch (.goto 0),
    .branch .returnVoid, .branch .athrow]

theorem analyzed_framedLoop {framed : Nat} {first : RefType}
    (h : analyze loopContext loopOps [] (framedLoop framed).frameHints = .ok ⟨loopFrames first, 1, []⟩) :
    Analyzed (framedLoop framed) loopContext loopOps [] ⟨loopFrames first, 1, []⟩ (loopBody first) 1 2 where
  resolved := resolve_framedLoop framed
  analysis := h
  body_eq := rfl
  maxStack_eq := by split_ifs <;> rfl
  maxLocals_eq := rfl
  maxStack_le := by decide
  maxLocals_le := by decide

theorem layout_loop (first : RefType) (p : Pool) :
    (loopBody first).ops.mapM CodeOp.layoutItem p = .ok loopItems p := rfl

theorem code_loop : (Layout.ofItems loopItems).code.length = 11 := by decide

theorem assemble_framedLoop {framed : Nat} {first : RefType}
    (h : analyze loopContext loopOps [] (framedLoop framed).frameHints = .ok ⟨loopFrames first, 1, []⟩) :
    ∃ attr q, (framedLoop framed).assemble loopContext .empty = .ok attr q := by
  have hframes : ∀ frame ∈ (loopBody first).frames,
      frame.toRecord.locals.length + frame.toRecord.stack.length ≤ 3 := by
    intro frame hframe
    rcases List.mem_cons.mp hframe with rfl | hframe
    · exact (by decide : 2 ≤ 3)
    · exact (by decide : ∀ frame ∈ (loopBody (.object .object)).frames.tail,
        frame.toRecord.locals.length + frame.toRecord.stack.length ≤ 3) frame hframe
  have hcount : (loopBody first).frames.length = 7 := rfl
  have hneeds := needs_assemble (analyzed_framedLoop h).analyzed_eq (layout_loop first)
    (by rw [code_loop]; decide) rfl (fun line hline => absurd hline (Array.not_mem_empty line)) rfl fun _ =>
    needs_stackMap (by decide) hframes
  rw [hcount] at hneeds
  obtain ⟨attr, q, hattr, -⟩ := hneeds .empty (by decide)
  exact ⟨attr, q, hattr⟩

theorem analyze_framedLoop (framed : Nat) (first : RefType)
    (h : framed = 0 ∧ first = .array 0 (.base .int) ∨ framed = 1 ∧ first = .object .object) :
    analyze loopContext loopOps [] (framedLoop framed).frameHints = .ok ⟨loopFrames first, 1, []⟩ := by
  rw [show (framedLoop framed).frameHints = _ from funext (frameHints_framedLoop framed)]
  rcases h with ⟨rfl, rfl⟩ | ⟨rfl, rfl⟩ <;> rfl

/-- A frame where the loop starts is where control flow jumps to, and the loop passes. -/
theorem assemble_passes_loop : ∃ attr q, (framedLoop 0).assemble loopContext .empty = .ok attr q ∧
    ∃ ops handlers place suggested body, (framedLoop 0).resolve = .ok (ops, handlers) ∧
      attr.resolve q loopContext.initialFrame = .ok body ∧ body.Places ops handlers place ∧
        (framedLoop 0).Suggests ops handlers place suggested ∧ TypeCheck.Passes loopContext suggested body := by
  obtain ⟨attr, q, h⟩ := assemble_framedLoop (analyze_framedLoop 0 _ (.inl ⟨rfl, rfl⟩))
  refine ⟨attr, q, h, assemble_passes Pool.wellFormed_empty ?_ rfl (isWritable_framedLoop 0) ?_ h⟩
  · exact Hierarchy.rooted_empty
  · intro ops handlers hresolve i hreach hhint
    rw [resolve_framedLoop] at hresolve
    cases hresolve
    rw [frameHints_framedLoop] at hhint
    split_ifs at hhint with heq
    · subst heq
      have h1 : Reachable loopOps [] 1 := .next .start rfl rfl
      have h4 : Reachable loopOps [] 4 := .next (.next (.next h1 rfl rfl) rfl rfl) rfl rfl
      exact .branch h4 rfl (List.mem_singleton_self 0)
    · exact absurd rfl hhint

/-- The loop as it is read back, when its first local is only known to be an object. -/
theorem readBack_loop : readBack (loopBody (.object .object)) (Layout.ofItems loopItems) =
    ⟨[(0, .plain (.simple .constInt0)), (1, .branch (.conditional (.zero .eq) 9)), (4, .plain (.load .ref 1)),
        (5, .plain (.store .ref 0)), (6, .branch (.goto 0)), (9, .branch .returnVoid), (10, .branch .athrow)],
      [(0, ⟨[.object (.object .object), .object (.array 0 (.base .long))], []⟩),
        (9, ⟨loopTypes.map .object, []⟩), (10, ⟨[], [.object (.object .throwable)]⟩)], []⟩ := by
  unfold readBack recorded MethodBody.joinPoints
  simp only [Std.HashSet.contains_ofList]
  rfl

/-- A frame at an instruction that only unreachable code jumps to stands in no table, though the types after it
are taken from it: the loop is assembled, and it does not pass. -/
theorem unreached_frame_fails : Pool.empty.WellFormed ∧ loopContext.hierarchy.Rooted ∧
    loopContext.strict = true ∧ (framedLoop 1).IsWritable loopContext ∧ (framedLoop 1).resolve = .ok
    (loopOps, []) ∧
      (∀ i, (framedLoop 1).frameHints i ≠ none → ∃ op ∈ loopOps, i ∈ op.targets) ∧
        ∃ attr q body, (framedLoop 1).assemble loopContext .empty = .ok attr q ∧
          attr.resolve q loopContext.initialFrame = .ok body ∧
            ∀ suggested : Nat → Option (Frame RefType Label), suggested 9 = none →
              ¬ TypeCheck.Passes loopContext suggested body := by
  refine ⟨Pool.wellFormed_empty, Hierarchy.rooted_empty, rfl, isWritable_framedLoop 1,
    resolve_framedLoop 1, ?_, ?_⟩
  · intro i hi
    rw [frameHints_framedLoop] at hi
    split_ifs at hi with heq
    · subst heq
      exact ⟨.branch (.goto 1), by decide, List.mem_singleton_self 1⟩
    · exact absurd rfl hi
  have hanalysis := analyze_framedLoop 1 _ (.inr ⟨rfl, rfl⟩)
  have hanalyzed := analyzed_framedLoop hanalysis
  obtain ⟨attr, q, h⟩ := assemble_framedLoop hanalysis
  obtain ⟨body, maxStack, maxLocals, items, hassembled⟩ := assemble_ok h
  have hbody := hassembled.analyzed_eq
  rw [hanalyzed.analyzed_eq] at hbody
  cases hbody
  have hitems : items = loopItems := by
    obtain ⟨p1, p2, p3, p4, stackMaps, lineTables, variableTables, hitems, -⟩ := hassembled.steps
    rw [layout_loop] at hitems
    cases hitems
    rfl
  subst hitems
  have hread := hassembled.readBack_ok Pool.wellFormed_empty rfl (isWritable_framedLoop 1) hanalyzed
  obtain ⟨-, hresolve⟩ := hread.post q (Pool.Grows.refl q)
  rw [readBack_loop] at hresolve
  refine ⟨attr, q, _, h, hresolve, fun suggested hnone hpasses => ?_⟩
  -- the array on entry, then the jump, which nothing has a frame for
  cases hpasses.checks with
  | step henters0 _ hleaves0 hrest0 =>
    cases henters0 with
    | through hlookup _ => cases hlookup
    | recorded hlookup _ =>
      cases hlookup
      cases hleaves0 with
      | plain htransfer0 =>
        cases htransfer0
        cases hrest0 with
        | step henters1 _ hleaves1 _ =>
          cases henters1 with
          | recorded hlookup _ => cases hlookup
          | through _ harrives =>
            cases harrives
            cases hleaves1 with
            | branch htransfer1 haccepts =>
              cases htransfer1
              obtain ⟨frame, hframe, hassignable⟩ := haccepts 9 (List.mem_singleton_self 9)
              cases hframe
              -- the jump brings the array of the entry to a frame with the array of the hint
              have hfirst := hassignable.locals 0
              rw [hnone] at hfirst
              cases hfirst with
              | below hbelow => exact Hierarchy.not_below_array hbelow
              | hinted _ hhint => cases hhint

end MethodCode

end ClassWeave
