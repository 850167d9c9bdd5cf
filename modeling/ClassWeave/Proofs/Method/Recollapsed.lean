import ClassWeave.Proofs.Analysis.Moved
import ClassWeave.Proofs.Method.Limits
import ClassWeave.Proofs.Method.Trimmed
import ClassWeave.Proofs.Method.Whole

/-!
# Collapsed code that is collapsed again

The analysis of collapsed code goes the way that the analysis of the code went (`FramesOf.codeMoved`), and what
it does not get to are single `athrow`s, which stay. So collapsing once more leaves everything where it is
(`FramesOf.leftAs`).
-/

namespace ClassWeave

open Analysis (CodeMoved Reachable StateMoved)
open MethodBody (Framed Inserted Sparse collapse collapsedAt keptOf)

variable {ops : List (CodeOp Nat)} {handlers : List (Handler Nat BinaryName)}
  {frames : Array (Option AnalysisFrame)}

/-! ## Code that was analyzed -/

namespace FramesOf

/-- What control flow gets to moves when the code is collapsed. -/
theorem codeMoved (h : FramesOf ops handlers frames) : CodeMoved (collapsedAt frames) ops
    (collapse ops frames handlers).ops handlers (collapse ops frames handlers).handlers where
  inside := fun hi => h.inside _ hi
  start := by
    rw [MethodBody.collapsedAt_eq_sub (Nat.zero_le _)]
    exact Nat.zero_sub _
  inj := fun i j hi hj heq => by
    obtain ⟨f, hf⟩ := (h.framed i).mpr hi
    obtain ⟨g, hg⟩ := (h.framed j).mpr hj
    exact MethodBody.collapsedAt_inj hf hg heq
  op := fun {i _} hi hop => by
    obtain ⟨f, hf⟩ := (h.framed i).mpr hi
    exact (MethodBody.collapse_reachable hop hf).1
  next := fun {i} hi => by
    obtain ⟨f, hf⟩ := (h.framed i).mpr hi
    exact MethodBody.collapsedAt_succ hf
  covering := fun {i} hi => MethodBody.handlers_collapse ((h.framed i).mpr hi)

/-- In trimmed code every instruction stays: what cannot be reached has something before it that can. -/
theorem sparse (h : FramesOf ops handlers frames) (ht : Trimmed ops handlers)
    (hcovered : ∀ handler ∈ handlers, ∀ i, handler.covers i = true → Reachable ops handlers i) :
    Sparse ops frames handlers where
  kept := fun i hi => by
    have hlength : (frames.toList.map Option.isSome).length = frames.size := by
      rw [List.length_map, Array.length_toList]
    by_cases hf : Framed frames i
    · obtain ⟨f, hf⟩ := hf
      exact MethodBody.keptOf_of_reachable hf
    · cases i with
      | zero => exact MethodBody.kept_zero rfl (hlength ▸ hi)
      | succ i =>
        -- of two that cannot be reached in a row the second would have been dropped
        have hbefore : Reachable ops handlers i := by
          by_contra hdead
          exact hf ((h.framed (i + 1)).mpr (ht.single (h.size ▸ hi) hdead))
        obtain ⟨g, hg⟩ := (h.framed i).mpr hbefore
        exact MethodBody.kept_succ (MethodBody.reachable_eq hg).1 (hlength ▸ hi)
  dead := fun i hi hf => ht.dead hi fun hreach => hf ((h.framed i).mpr hreach)
  covered := fun handler hmem i hle hlt => (h.framed i).mpr (hcovered handler hmem i (by
    unfold Handler.covers
    rw [decide_eq_true hle, decide_eq_true hlt]
    rfl))

/-- Handlers of collapsed code cover only what can be reached. -/
theorem reachable_of_covers (h : FramesOf ops handlers frames) {handler : Handler Nat BinaryName}
    (hmem : handler ∈ (collapse ops frames handlers).handlers) {p : Nat} (hcovers : handler.covers p = true) :
    Reachable (collapse ops frames handlers).ops (collapse ops frames handlers).handlers p := by
  obtain ⟨_, -, hpart⟩ := MethodBody.collapse_handler hmem
  obtain ⟨i, f, -, hf, heq⟩ := hpart.covered p hcovers
  exact (MethodBody.reachable_collapse h.framed h.inside).mpr ⟨i, (h.framed i).mp ⟨f, hf⟩, heq⟩

end FramesOf

/-! ## Code that was collapsed -/

/-- Code in which nothing is left to collapse: what control flow does not get to are single `athrow`s, and each
handler covers something, and only what control flow gets to. -/
structure Collapsed (ops : List (CodeOp Nat)) (handlers : List (Handler Nat BinaryName)) : Prop extends
    Trimmed ops handlers where
  targets : ∀ op ∈ ops, ∀ t ∈ op.targets, t ≤ ops.length
  inside : ∀ handler ∈ handlers, handler.Inside ops.length
  used : ∀ handler ∈ handlers, handler.start < handler.stop
  covered : ∀ handler ∈ handlers, ∀ i, handler.covers i = true → Reachable ops handlers i

theorem FramesOf.collapsed (h : FramesOf ops handlers frames)
    (htargets : ∀ op ∈ (collapse ops frames handlers).ops, ∀ t ∈ op.targets,
      t ≤ (collapse ops frames handlers).ops.length)
    (hinside : ∀ handler ∈ (collapse ops frames handlers).handlers,
      handler.Inside (collapse ops frames handlers).ops.length) :
    Collapsed (collapse ops frames handlers).ops (collapse ops frames handlers).handlers where
  toTrimmed := h.trimmed_collapse
  targets := htargets
  inside := hinside
  used := fun handler hmem => by
    obtain ⟨_, -, hpart⟩ := MethodBody.collapse_handler hmem
    exact hpart.start_lt
  covered := fun _ hmem _ hcovers => h.reachable_of_covers hmem hcovers

/-- A body with all of some code where it was. Each instruction has the frame that was found, or the frame that
goes with an `athrow` that was put there. -/
structure MethodBody.Left (ops : List (CodeOp Nat)) (frames : Array (Option AnalysisFrame))
    (handlers : List (Handler Nat BinaryName)) (body : MethodBody) : Prop where
  ops_eq : body.ops = ops
  handlers_eq : body.handlers = handlers
  position_eq : ∀ i ≤ ops.length, MethodBody.position body.positions i = i
  length_frames : body.frames.length = ops.length
  framed : ∀ {k : Nat} {f : AnalysisFrame}, (frames[k]?).join = some f → body.frames[k]? = some f
  dead : ∀ {k}, k < ops.length → ¬ Framed frames k → body.frames[k]? = some MethodBody.dead.2

/-- Collapsing leaves code that was collapsed. -/
theorem Collapsed.left {υ : Type} {context : MethodContext} {hints : FrameHints υ} {s : Analysis}
    (h : Collapsed ops handlers) (hs : analyze context ops handlers hints = .ok s) :
    (collapse ops s.frames handlers).Left ops s.frames handlers := by
  have hframes := FramesOf.of_analyze hs
  have hsparse := hframes.sparse h.toTrimmed h.covered
  -- every instruction stays, so nothing moves
  have hwhole := MethodBody.whole_collapse_of_sparse hframes.size hsparse h.targets h.inside
  have hused : ∀ {hs : List (Handler Nat BinaryName)}, (∀ handler ∈ hs, handler.start < handler.stop) →
      hs.filter Handler.isUsed = hs := fun husedof =>
    List.filter_eq_self.mpr fun handler hmem => decide_eq_true (husedof handler hmem)
  refine ⟨hwhole.ops_eq, ?_, hwhole.position_eq, ?_, fun {k f} hf => ?_, fun {k} hk hdead => ?_⟩
  · have hsame := hwhole.used
    rwa [hused h.used, hused fun handler hmem => h.used handler (hwhole.handlers_sub.subset hmem)] at hsame
  · rw [MethodBody.length_collapse, hwhole.ops_eq]
  · have hreach := (hframes.framed k).mp ⟨f, hf⟩
    have hk := hframes.inside k hreach
    have hframe := (@MethodBody.collapse_reachable _ _ handlers _ _ _ (List.getElem?_eq_getElem hk) hf).2
    rw [show collapsedAt s.frames k = k from hwhole.position_eq k (Nat.le_of_lt hk)] at hframe
    have hfixed : f.mapSites (collapsedAt s.frames) = f :=
      (Frame.mapSites_congr (fun site hsite => hwhole.position_eq site
        (Nat.le_of_lt (hframes.inside site hsite.1))) (Analysis.creates_of_site hs hf)).trans f.mapSites_id
    exact hframe.trans (congrArg some hfixed)
  · have hframe := (@MethodBody.collapse_dead _ _ handlers hframes.size k hk hdead
      (hsparse.kept k (hframes.size.symm ▸ hk))).2
    rwa [show collapsedAt s.frames k = k from hwhole.position_eq k (Nat.le_of_lt hk)] at hframe

/-! ## Bodies that are left as they are -/

/-- The second body is the first one, and nothing in it has moved. -/
structure MethodBody.LeftAs (body body' : MethodBody) : Prop where
  ops_eq : body'.ops = body.ops
  frames_eq : body'.frames = body.frames
  handlers_eq : body'.handlers = body.handlers
  position_eq : ∀ i ≤ body.ops.length, MethodBody.position body'.positions i = i

/-- Collapsing code that was collapsed changes nothing. -/
theorem FramesOf.leftAs {υ : Type} {context : MethodContext} {hints : FrameHints υ} {s s' : Analysis}
    (h : FramesOf ops handlers s.frames) (hs : StateMoved (collapsedAt s.frames) ops
      (collapse ops s.frames handlers).ops handlers s' s)
    (hs' : analyze context (collapse ops s.frames handlers).ops (collapse ops s.frames handlers).handlers hints =
      .ok s')
    (hcollapsed : Collapsed (collapse ops s.frames handlers).ops (collapse ops s.frames handlers).handlers) :
    (collapse ops s.frames handlers).LeftAs (collapse (collapse ops s.frames handlers).ops s'.frames
      (collapse ops s.frames handlers).handlers) := by
  have hleft := hcollapsed.left hs'
  refine ⟨hleft.ops_eq, List.ext_getElem? fun k => ?_, hleft.handlers_eq, hleft.position_eq⟩
  by_cases hk : k < (collapse ops s.frames handlers).ops.length
  · by_cases hreach : Framed s'.frames k
    · -- the frame has moved along
      obtain ⟨f', hf'⟩ := hreach
      obtain ⟨i, hi, rfl⟩ := hs.others hf'
      obtain ⟨f, hf⟩ := (h.framed i).mpr hi
      have hmoved := hs.frames hi
      rw [show s.frameAt i = some f from hf] at hmoved
      obtain rfl : f' = f.mapSites (collapsedAt s.frames) := Option.some.inj (hf'.symm.trans hmoved)
      have hop := List.getElem?_eq_getElem (h.inside i hi)
      exact (hleft.framed hf').trans (@MethodBody.collapse_reachable _ _ handlers _ _ _ hop hf).2.symm
    · -- what cannot be reached is an `athrow` that collapsing put there, with the frame it puts there again
      rcases MethodBody.collapse_cases (List.getElem?_eq_getElem hk) with
        ⟨i, op, f, -, hf, rfl, -⟩ | ⟨-, hframe⟩
      · refine absurd ?_ hreach
        have hmoved := hs.frames ((h.framed i).mp ⟨f, hf⟩)
        rw [show s.frameAt i = some f from hf] at hmoved
        exact ⟨_, hmoved⟩
      · exact (hleft.dead hk hreach).trans hframe.symm
  · rw [List.getElem?_eq_none, List.getElem?_eq_none]
    · rw [MethodBody.length_collapse]
      exact Nat.le_of_not_lt hk
    · rw [hleft.length_frames]
      exact Nat.le_of_not_lt hk

/-! ## Bodies that are analyzed again -/

namespace MethodCode

variable {code code' : MethodCode} {context : MethodContext} {s s' : Analysis} {body : MethodBody}
  {maxStack maxLocals : Nat}

/-- Nothing is left to collapse in an analyzed body of strict code. -/
theorem Analyzed.collapsed (h : Analyzed code context ops handlers s body maxStack maxLocals)
    (hstrict : context.strict = true) : Collapsed body.ops body.handlers := by
  have htargets := h.targets_inside hstrict
  have hinside := h.handlers_inside hstrict
  obtain rfl : body = collapse ops s.frames handlers := by rw [h.body_eq, if_pos hstrict]
  exact h.framesOf.collapsed (fun op hop t ht => Nat.le_of_lt (htargets op hop t ht)) fun handler hmem =>
    ⟨(hinside handler hmem).1, (hinside handler hmem).2.1, Nat.le_of_lt (hinside handler hmem).2.2⟩

/-- Collapsed code has something that cannot be reached exactly if the code had. -/
theorem Analyzed.any_isNone_again (h : Analyzed code context ops handlers s body maxStack maxLocals)
    (hstrict : context.strict = true) {υ : Type} {hints : FrameHints υ}
    (hs : analyze context body.ops body.handlers hints = .ok s') :
    s'.frames.any Option.isNone = s.frames.any Option.isNone := by
  obtain rfl : body = collapse ops s.frames handlers := by rw [h.body_eq, if_pos hstrict]
  have hagain := FramesOf.of_analyze hs
  rw [Bool.eq_iff_iff, ← h.exists_inserted_iff hstrict, MethodBody.any_isNone_iff]
  constructor
  · rintro ⟨k, hk, hdead⟩
    have hunreached := fun hreach => hdead ((hagain.framed k).mpr hreach)
    exact ⟨k, h.framesOf.trimmed_collapse.dead (hagain.size ▸ hk) hunreached, hunreached⟩
  · rintro ⟨k, hop, hdead⟩
    exact ⟨k, hagain.size ▸ (List.getElem?_eq_some_iff.mp hop).1,
      fun hframed => hdead ((hagain.framed k).mp hframed)⟩

/-- Strict code that says what an analyzed body says is analyzed to that body again, if it suggests where
instructions have moved what may be suggested for them. -/
theorem Analyzed.again_strict (h : Analyzed code context ops handlers s body maxStack maxLocals)
    (hstrict : context.strict = true) (hr : context.hierarchy.Rooted)
    (hresolve : code'.resolve = .ok (body.ops, body.handlers)) {υ : Type} {hints : FrameHints υ}
    (hhints : analyze context ops handlers hints = .ok s)
    (halike : ∀ i, Reachable ops handlers i →
      Frame.SuggestAlike (code'.frameHints (collapsedAt s.frames i)) (hints i)) :
    ∃ body', code'.analyzed context = .ok (body', maxStack, maxLocals) ∧ body.LeftAs body' := by
  have hbody : body = collapse ops s.frames handlers := by rw [h.body_eq, if_pos hstrict]
  have hmoved : CodeMoved (collapsedAt s.frames) ops body.ops handlers body.handlers := by
    rw [hbody]
    exact h.framesOf.codeMoved
  -- the analysis goes the way it went, and then collapsing leaves everything
  obtain ⟨s', hs', hstate⟩ := Analysis.analyze_moved hr hmoved hstrict halike hhints
  have hcollapsed := h.collapsed hstrict
  have hany := h.any_isNone_again hstrict hs'
  subst hbody
  have hleft := h.framesOf.leftAs hstate hs' hcollapsed
  have hagain : Analyzed code' context (collapse ops s.frames handlers).ops
      (collapse ops s.frames handlers).handlers s'
      (collapse (collapse ops s.frames handlers).ops s'.frames (collapse ops s.frames handlers).handlers)
      maxStack maxLocals := {
    resolved := hresolve
    analysis := hs'
    body_eq := by rw [if_pos hstrict]
    maxStack_eq := by rw [h.maxStack_eq, hany, hstate.maxStack]
    maxLocals_eq := by rw [h.maxLocals_eq, hleft.ops_eq]
    maxStack_le := h.maxStack_le
    maxLocals_le := h.maxLocals_le }
  exact ⟨_, hagain.analyzed_eq, hleft⟩

/-- So is code that needs no frames, which is left as it is. -/
theorem Analyzed.again_lenient (h : Analyzed code context ops handlers s body maxStack maxLocals)
    (hstrict : context.strict = false) (hr : context.hierarchy.Rooted)
    (hresolve : code'.resolve = .ok (body.ops, body.handlers)) {υ : Type} {hints : FrameHints υ}
    (hhints : analyze context ops handlers hints = .ok s)
    (halike : ∀ i, Frame.SuggestAlike (code'.frameHints i) (hints i)) :
    ∃ body', code'.analyzed context = .ok (body', maxStack, maxLocals) ∧ body.LeftAs body' := by
  have hbody : body = MethodBody.unchanged ops handlers := by rw [h.body_eq, if_neg (by simp [hstrict])]
  subst hbody
  have hleft : (MethodBody.unchanged ops handlers).LeftAs (MethodBody.unchanged ops handlers) :=
    ⟨rfl, rfl, rfl, (MethodBody.whole_unchanged ops handlers).position_eq⟩
  have hagain : Analyzed code' context ops handlers s
      (MethodBody.unchanged ops handlers) maxStack maxLocals := {
    resolved := hresolve
    analysis := Analysis.analyze_congr hr halike hhints
    body_eq := h.body_eq
    maxStack_eq := h.maxStack_eq
    maxLocals_eq := h.maxLocals_eq
    maxStack_le := h.maxStack_le
    maxLocals_le := h.maxLocals_le }
  exact ⟨_, hagain.analyzed_eq, hleft⟩

end MethodCode

end ClassWeave
