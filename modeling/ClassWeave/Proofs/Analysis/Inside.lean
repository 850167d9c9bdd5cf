import ClassWeave.Proofs.Analysis.Covered
import ClassWeave.Proofs.Analysis.Termination

/-!
# The analysis stays inside the code

A label can stand at the end of the code, and so can the start of a handler. The tables of the analysis have an
entry for each instruction and none for the end. What is to be visited always is an instruction
(`Analysis.Inside`, kept by every visit); and a run looks for a frame outside the tables only where code that is
reachable is covered by a handler that starts at the end.
-/

namespace ClassWeave

namespace Analysis

variable {υ : Type} {context : MethodContext} {code : List (CodeOp Nat)}
  {handlers : List (Handler Nat BinaryName)} {hints : FrameHints υ} {s s' : Analysis}

/-! ## States of a run -/

/-- The states that the loop of the analysis comes by, with no limit set. -/
inductive Reaches (visit : Nat → Analysis → Except AnalysisFault Analysis) (first : Analysis) : Analysis → Prop
  | first : Reaches visit first first
  | visited {frames : Array (Option AnalysisFrame)} {maxStack index : Nat} {rest : List Nat} {s : Analysis} :
    Reaches visit first ⟨frames, maxStack, index :: rest⟩ → visit index ⟨frames, maxStack, rest⟩ = .ok s →
      Reaches visit first s

/-- The table has an entry for each instruction, instructions are what is to be visited, and those with a frame are
reachable. -/
structure Inside (code : List (CodeOp Nat)) (handlers : List (Handler Nat BinaryName)) (s : Analysis) :
    Prop where
  size : s.frames.size = code.length
  queued : ∀ i ∈ s.worklist, i < code.length
  reachable : ∀ {i f}, s.frameAt i = some f → Reachable code handlers i

theorem inside_start (hne : code ≠ []) : Inside code handlers (start context code.length) where
  size := by
    unfold start
    rw [Array.size_setIfInBounds, Array.size_replicate]
  queued := fun i hi => by
    rw [List.mem_singleton.mp hi]
    exact List.length_pos_iff.mpr hne
  reachable := fun hf => by
    rw [(frameAt_start hf).1]
    exact .start

/-- An edge queues nothing but its target, for which there is an entry. -/
theorem Flowed.queued {edge : FlowEdge} {merged : AnalysisFrame} (hf : Flowed context hints edge s s' merged)
    {count : Nat} (hs : s.frames.size = count ∧ ∀ i ∈ s.worklist, i < count) :
    s'.frames.size = count ∧ ∀ i ∈ s'.worklist, i < count := by
  refine ⟨hf.size.trans hs.1, fun i hi => ?_⟩
  rw [hf.worklist] at hi
  split_ifs at hi
  · exact hs.2 i hi
  · rcases List.mem_cons.mp hi with rfl | hi
    · exact hs.1 ▸ hf.inside
    · exact hs.2 i hi

/-- The step lemma: a visit stays inside the code. -/
theorem Inside.visit {frames : Array (Option AnalysisFrame)} {maxStack index : Nat} {rest : List Nat}
    (hs : Inside code handlers ⟨frames, maxStack, index :: rest⟩)
    (h : Analysis.visit context code.toArray handlers hints index ⟨frames, maxStack, rest⟩ = .ok s') :
    Inside code handlers s' := by
  have hrest : ∀ i ∈ rest, i < code.length := fun i hi => hs.queued i (List.mem_cons_of_mem _ hi)
  have hqueued : s'.frames.size = code.length ∧ ∀ i ∈ s'.worklist, i < code.length := by
    rcases visit_ok h with ⟨rfl, -⟩ | ⟨op, frame, successors, hv⟩
    · exact ⟨hs.size, hrest⟩
    · refine foldlM_flow_induction (P := fun s => s.frames.size = code.length ∧ ∀ i ∈ s.worklist,
        i < code.length) (fun hs hf => hf.queued hs) ?_ hv.flows
      exact ⟨hs.size, hrest⟩
  refine ⟨hqueued.1, hqueued.2, fun {i f} hf => ?_⟩
  have hreach : ∀ {i f}, Analysis.frameAt ⟨frames, maxStack, rest⟩ i = some f → Reachable code handlers i :=
    fun hf => hs.reachable hf
  exact reachable_frameInvariant.visit hreach h hf

/-- The run lemma: every state that the loop comes by is inside the code. -/
theorem Reaches.inside {first : Analysis}
    (h : Reaches (Analysis.visit context code.toArray handlers hints) first s)
    (hfirst : Inside code handlers first) : Inside code handlers s := by
  induction h with
  | first => exact hfirst
  | visited _ hvisit ih => exact ih.visit hvisit

/-! ## Verdicts -/

/-- What an analysis can come to: frames, an instruction that is refused, or a handler at the end of the code
that is asked to take what reachable code throws. -/
inductive Verdict (code : List (CodeOp Nat)) (handlers : List (Handler Nat BinaryName)) :
    Except AnalysisFault Analysis → Prop
  | frames (s : Analysis) : Inside code handlers s → s.worklist = [] → Verdict code handlers (.ok s)
  | rejected {index : Nat} (reason : VerifyFault) : index < code.length →
    Verdict code handlers (.error (.rejected index reason))
  | stray {index : Nat} {handler : Handler Nat BinaryName} : Reachable code handlers index →
    index < code.length → handler ∈ handlers → handler.covers index = true → handler.target = code.length →
      Verdict code handlers (.error (.strayHandler code.length))

/-- The run lemma: whatever a run comes to from inside the code is a verdict. -/
theorem verdict_run (hhandlers : ∀ handler ∈ handlers, handler.target ≤ code.length) :
    ∀ {visits : Nat} {s : Analysis}, Inside code handlers s → Verdict code handlers
    (run (Analysis.visit context code.toArray handlers hints) visits s)
  | 0, ⟨_, _, []⟩, hs => .frames _ hs rfl
  | 0, ⟨_, _, index :: _⟩, hs => .rejected _ (hs.queued index List.mem_cons_self)
  | _ + 1, ⟨_, _, []⟩, hs => .frames _ hs rfl
  | visits + 1, ⟨frames, maxStack, index :: rest⟩, hs => by
    unfold run
    dsimp only
    cases h1 : Analysis.visit context code.toArray handlers hints index ⟨frames, maxStack, rest⟩ with
    | ok s1 => exact verdict_run hhandlers (hs.visit h1)
    | error fault =>
      have hsize : (Analysis.mk frames maxStack rest).frames.size = code.toArray.size := hs.size
      cases visit_error hsize h1 with
      | rejected reason hlt => exact .rejected reason hlt
      | @stray handler frame hframe hmem hcovers hle =>
        have htarget : handler.target = code.length := Nat.le_antisymm (hhandlers handler hmem) hle
        have hlt : index < frames.size := frameAt_lt hframe
        rw [htarget]
        exact .stray (hs.reachable hframe) (Nat.lt_of_lt_of_eq hlt hs.size) hmem hcovers htarget

/-- Where handlers start inside the code or at its end, every state that the loop of the analysis comes by has
one entry for each instruction, and only instructions to visit. The analysis comes to frames, or refuses an
instruction, unless reachable code is covered by a handler that starts at the end. It comes to that by itself,
as long as the root class has no superclass. -/
theorem analyze_stays_inside (context : MethodContext) (code : List (CodeOp Nat)) (hne : code ≠ [])
    (handlers : List (Handler Nat BinaryName)) (hhandlers : ∀ handler ∈ handlers, handler.target ≤ code.length)
    (hints : FrameHints υ) :
    (∀ s, Reaches (Analysis.visit context code.toArray handlers hints) (start context code.length) s →
      Inside code handlers s) ∧
    Verdict code handlers (analyze context code handlers hints) ∧
    (context.hierarchy.Rooted → ∃ visits, Ends (Analysis.visit context code.toArray handlers hints) visits
      (start context code.length) (analyze context code handlers hints)) := by
  have hstart : Inside code handlers (start context code.length) := inside_start hne
  have hanalyze : analyze context code handlers hints = run (Analysis.visit context code.toArray handlers hints)
      (visitBound context code hints) (start context code.length) := by
    unfold analyze
    rw [if_neg (by simpa using hne)]
  rw [hanalyze]
  refine ⟨fun s hs => hs.inside hstart, verdict_run hhandlers hstart, fun hr => ?_⟩
  obtain ⟨visits, -, hends⟩ := ends_run (limits hr code hints) handlers (bounded_start code hints)
    (potential_start hr code hints)
  exact ⟨visits, hends⟩

/-- A static method without arguments, in a hierarchy that knows no class. -/
def bareContext : MethodContext :=
  ⟨⟨⟨"C", Eq.refl true⟩, ⟨"m", Eq.refl true⟩, ⟨[], none⟩⟩, true, true, .empty⟩

/-- A jump over an instruction that nothing leads to. -/
def skippingCode : List (CodeOp Nat) :=
  [.branch (.goto 2), .plain (.simple .nop), .branch .returnVoid]

/-- A handler at the end does no harm where it only covers code that is not reachable. -/
theorem analyze_stays_inside_skipping : skippingCode ≠ [] ∧
    (∀ handler ∈ [(⟨1, 2, 3, none⟩ : Handler Nat BinaryName)], handler.target ≤ skippingCode.length) ∧
    (∀ s, Reaches (Analysis.visit bareContext skippingCode.toArray [⟨1, 2, 3, none⟩]
        fun _ => (none : Option (Frame RefType Label))) (start bareContext skippingCode.length) s →
      Inside skippingCode [⟨1, 2, 3, none⟩] s) ∧
    Verdict skippingCode [⟨1, 2, 3, none⟩]
      (analyze bareContext skippingCode [⟨1, 2, 3, none⟩] fun _ => (none : Option (Frame RefType Label))) ∧
    (bareContext.hierarchy.Rooted → ∃ visits,
        Ends (Analysis.visit bareContext skippingCode.toArray [⟨1, 2, 3, none⟩]
        fun _ => (none : Option (Frame RefType Label))) visits (start bareContext skippingCode.length)
      (analyze bareContext skippingCode [⟨1, 2, 3, none⟩] fun _ => (none : Option (Frame RefType Label)))) := by
  have hne : skippingCode ≠ [] := List.cons_ne_nil _ _
  have hhandlers : ∀ handler ∈ [(⟨1, 2, 3, none⟩ : Handler Nat BinaryName)],
      handler.target ≤ skippingCode.length := by
    intro handler hmem
    rw [List.mem_singleton.mp hmem]
    decide
  exact ⟨hne, hhandlers, analyze_stays_inside bareContext skippingCode hne _ hhandlers _⟩

/-- Where such a handler covers an instruction that is reachable, its frame is looked for behind the tables. -/
theorem handler_at_end_strays :
    (∀ handler ∈ [(⟨0, 1, 2, none⟩ : Handler Nat BinaryName)],
      handler.start ≤ 2 ∧ handler.stop ≤ 2 ∧ handler.target ≤ 2) ∧
    analyze bareContext [.plain (.simple .nop), .branch .returnVoid] [⟨0, 1, 2, none⟩]
      (fun _ => (none : Option (Frame RefType Label))) = .error (.strayHandler 2) := by
  refine ⟨fun handler hmem => ?_, rfl⟩
  rw [List.mem_singleton.mp hmem]
  decide

end Analysis

end ClassWeave
