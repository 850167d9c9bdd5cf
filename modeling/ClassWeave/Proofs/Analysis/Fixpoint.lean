import ClassWeave.Proofs.Analysis.Covered
import ClassWeave.Proofs.Analysis.Sound

/-!
# The frames of a finished analysis

A finished analysis has a frame for every instruction that is reachable, and all of its frames fit together: each
instruction succeeds on its frame, and what comes out flows into the frames at the other ends of its edges
(`Analysis.Fixpoint`).
-/

namespace ClassWeave

namespace Analysis

variable {υ : Type} {context : MethodContext} {code : List (CodeOp Nat)}
  {handlers : List (Handler Nat BinaryName)} {hints : FrameHints υ} {s : Analysis}

/-- A frame flows into the one that was found for an instruction. -/
def Enters (context : MethodContext) (hints : FrameHints υ) (s : Analysis) (index : Nat)
    (frame : AnalysisFrame) : Prop :=
  ∃ found, s.frameAt index = some found ∧ frame.FlowsTo context.hierarchy context.strict (hints index) found

/-- The frames fit together along all edges. -/
structure Fixpoint (context : MethodContext) (code : List (CodeOp Nat))
    (handlers : List (Handler Nat BinaryName)) (hints : FrameHints υ) (s : Analysis) : Prop where
  covers : Covers code handlers s
  entry : s.Enters context hints 0 context.initialFrame
  leads : ∀ {index op frame}, code[index]? = some op → s.frameAt index = some frame →
    ∃ successors, op.successors context index frame = .ok successors ∧
      ∀ edge ∈ successors, edge.1 < code.length ∧ s.Enters context hints edge.1 edge.2
  thrown : ∀ {index op frame handler}, code[index]? = some op → s.frameAt index = some frame →
    handler ∈ handlers → handler.covers index = true → s.Enters context hints handler.target
      ⟨frame.locals, [.object (.object (handler.catches.getD .throwable))]⟩

/-- At the end every instruction with a frame is settled, and the frame on entry has turned into the first
frame. -/
theorem settled_analyze {accepts : Nat → AnalysisFrame → AnalysisFrame → Prop}
    (ha : Accepting accepts context hints) (h : analyze context code handlers hints = .ok s) :
    (∃ found, s.frameAt 0 = some found ∧ accepts 0 context.initialFrame found) ∧
      ∀ {index op frame}, code[index]? = some op → s.frameAt index = some frame →
        ∃ successors, Settled accepts context code.toArray handlers s index op frame successors := by
  have hdone := worklist_analyze h
  unfold analyze at h
  split_ifs at h with hempty
  have hraises := raises_run ha h
  have hsound := (sound_start code.length).run ha h
  have hpos : 0 < code.length := by
    cases code with
    | nil => exact absurd rfl hempty
    | cons => exact Nat.succ_pos _
  refine ⟨hraises.frames (frameAt_start_zero hpos), fun {index op frame} hop hframe => ?_⟩
  refine hsound index (by rw [hdone]; exact List.not_mem_nil) op frame ?_ hframe
  rw [List.getElem?_toArray]
  exact hop

/-- A finished analysis is a fixpoint. -/
theorem fixpoint_analyze (hr : context.hierarchy.Rooted) (h : analyze context code handlers hints = .ok s) :
    Fixpoint context code handlers hints s := by
  obtain ⟨hentry, hsettled⟩ := settled_analyze (accepting_flowsTo hr hints) h
  refine ⟨covers_analyze h, hentry, ?_, ?_⟩
  · intro index op frame hop hframe
    obtain ⟨successors, hset⟩ := hsettled hop hframe
    refine ⟨successors, hset.successors_eq,
      fun edge hedge => ⟨?_, hset.accepted edge (List.mem_append_right _ hedge)⟩⟩
    have := hset.inside edge hedge
    rwa [List.size_toArray] at this
  · intro index op frame handler hop hframe hmem hcovers
    obtain ⟨successors, hset⟩ := hsettled hop hframe
    exact hset.accepted _ (List.mem_append_left _
      (CodeOp.handlerEdges_of_covers op hmem hcovers frame successors))

namespace Fixpoint

variable (hs : Fixpoint context code handlers hints s)

include hs

/-- An instruction that is no branch. -/
theorem plain {i : Nat} {instruction : Instruction} {f : AnalysisFrame}
    (hop : code[i]? = some (.plain instruction)) (hf : s.frameAt i = some f) :
    ∃ g, instruction.transfer context.method.owner context.strict i f = .ok g ∧
      s.Enters context hints (i + 1) g := by
  obtain ⟨successors, hsucc, hedges⟩ := hs.leads hop hf
  obtain ⟨g, hg, hsucc⟩ := Outcome.except_bind.mp hsucc
  cases hsucc
  exact ⟨g, hg, (hedges _ (List.mem_singleton_self _)).2⟩

/-- A branch that is no call of a subroutine. -/
theorem branch {i : Nat} {b : Branch Nat} {f : AnalysisFrame} (hb : ∀ target, b ≠ .jump .jsr target)
    (hop : code[i]? = some (.branch b)) (hf : s.frameAt i = some f) : ∃ g, b.transfer context.strict f = .ok g ∧
      (∀ target ∈ b.targets, s.Enters context hints target g) ∧
        (b.fallsThrough = true → s.Enters context hints (i + 1) g) := by
  obtain ⟨successors, hsucc, hedges⟩ := hs.leads hop hf
  rw [CodeOp.successors_branch context i f hb] at hsucc
  obtain ⟨g, hg, hsucc⟩ := Outcome.except_bind.mp hsucc
  cases hsucc
  refine ⟨g, hg, fun target htarget => ?_, fun hfalls => ?_⟩
  · exact (hedges (target, g) (List.mem_append_left _ (List.mem_map.mpr ⟨target, htarget, rfl⟩))).2
  · rw [if_pos hfalls] at hedges
    exact (hedges (i + 1, g) (List.mem_append_right _ (List.mem_singleton_self _))).2

/-- Strict code calls no subroutines. -/
theorem branch_strict (hstrict : context.strict = true) {i : Nat} {b : Branch Nat} {f : AnalysisFrame}
    (hop : code[i]? = some (.branch b)) (hf : s.frameAt i = some f) :
    b.isSubroutine = false ∧ ∃ g, b.transfer context.strict f = .ok g ∧
      (∀ target ∈ b.targets, s.Enters context hints target g) ∧
        (b.fallsThrough = true → s.Enters context hints (i + 1) g) := by
  have hsub : b.isSubroutine = false := by
    obtain ⟨successors, hsucc, -⟩ := hs.leads hop hf
    have htransfer : ∃ g, b.transfer context.strict f = .ok g := by
      obtain ⟨g, hg, -⟩ := Outcome.except_bind.mp hsucc
      exact ⟨g, hg⟩
    obtain ⟨g, hg⟩ := htransfer
    unfold Branch.transfer at hg
    rw [hstrict] at hg
    cases hb : b.isSubroutine with
    | false => rfl
    | true => rw [hb] at hg; cases hg
  refine ⟨hsub, hs.branch ?_ hop hf⟩
  rintro target rfl
  cases hsub

end Fixpoint

end Analysis

end ClassWeave
