import ClassWeave.Proofs.Analysis.Invariants
import ClassWeave.Proofs.Frame.Relocation

/-!
# Creation sites

An object that is not initialized is known by the instruction that created it, so its type says which object it
is only if no two objects of one instruction are around at once. The sites in the frames of a finished analysis
are reachable instructions that create objects (`Analysis.creates_of_site`), and the frame of such an
instruction has no object of its own (`Analysis.Unambiguous`): before the analysis gets to an instruction no
frame has its objects, and once it has a frame, merges only take sites away.
-/

namespace ClassWeave

open VerificationType (SiteIn)

/-! ## Sites of single frames -/

/-- The elements of an array are initialized. -/
theorem elementType_ne {strict : Bool} {array : AnalysisType} {site : Nat} :
    elementType strict array ≠ .ok (.uninitialized site) := by
  intro h
  unfold elementType at h
  dsimp only at h
  split at h
  · cases h
  · split at h
    · cases h
    · split_ifs at h
      cases h
  · split_ifs at h
    cases h

/-- The frame on entry names no creation site. -/
theorem MethodContext.siteless_initialFrame (context : MethodContext) :
    (context.initialFrame : AnalysisFrame).Holds fun t => ∀ site, t ≠ .uninitialized site :=
  Analysis.holds_initialFrame (fun _ heq => by
    cases heq) (fun _ heq => by
      cases heq) (fun _ heq => by cases heq) fun type _ => VerificationType.ofFieldType_ne type

section

variable {sites : Nat → Prop} {owner : BinaryName} {strict : Bool} {index : Nat} {instruction : Instruction}

/-- An instruction only adds its own site, and only if it creates an object. -/
theorem Instruction.siteInvariant (hcreated : ∀ type, instruction = .newObject type → sites index) :
    TypeInvariant owner strict index instruction (SiteIn sites) where
  top := fun site heq => by cases heq
  element := fun {t e} _ he site heq => by
    subst heq
    exact absurd he elementType_ne
  constructed := fun _ _ site heq => by cases heq
  introduced := fun t ht site heq => absurd heq (introduced_ne t ht site)
  created := fun {type} hnew site heq => by
    cases heq
    exact hcreated type hnew

namespace Frame

variable {υ : Type} {h : Hierarchy} {hint : Option (Frame RefType υ)}

theorem siteMergeInvariant : MergeInvariant h hint (SiteIn sites) where
  top := fun site heq => by cases heq
  join := fun _ _ site heq => by cases heq
  localHint := fun _ site heq => by cases heq
  stackHint := fun _ site heq => by cases heq

/-- Objects that are not initialized only merge with themselves. -/
theorem site_of_merge? {suggestion : Option RefType} {left right : AnalysisType} {site : Nat}
    (hm : VerificationType.merge? h suggestion left right = some (.uninitialized site)) :
    left = .uninitialized site := by
  unfold VerificationType.merge? at hm
  split_ifs at hm with heq
  · exact Option.some.inj hm
  · split at hm <;> cases hm

/-- A merge has only the sites of the frame that was there. -/
theorem Holds.merge_current {current incoming merged : AnalysisFrame} (hc : current.Holds (SiteIn sites))
    (hm : current.merge h strict hint incoming = .ok merged) : merged.Holds (SiteIn sites) := by
  have hmerges := merges_of_ok hm
  refine ⟨fun slot site hsite => ?_, fun t ht site hsite => ?_⟩
  · rcases hmerges.locals slot with heq | heq
    · rw [heq] at hsite
      cases hsite
    · rw [heq] at hsite
      cases htype : VerificationType.merge? h (hintAt (localHints hint) slot) (slotAt current.locals slot)
          (slotAt incoming.locals slot) with
      | none => rw [htype] at hsite; cases hsite
      | some type =>
        rw [htype] at hsite
        change type = _ at hsite
        rw [hsite] at htype
        exact hc.locals slot site (site_of_merge? htype)
  · -- an entry of the stack comes from the entries in its place
    obtain ⟨place, hplace⟩ := List.mem_iff_getElem?.mp (List.mem_reverse.mpr ht)
    obtain ⟨l, r, hl, -, htype | ⟨-, htop⟩⟩ := hmerges.stack hplace
    · rw [hsite] at htype
      exact hc.stack l (List.mem_reverse.mp (List.mem_of_getElem? hl)) site (site_of_merge? htype)
    · rw [hsite] at htop
      cases htop

/-- What holds of all types holds of those that a frame lists. -/
theorem Holds.of_mem {Q : AnalysisType → Prop} {frame : AnalysisFrame} (hf : frame.Holds Q) {t : AnalysisType}
    (ht : t ∈ frame.locals ++ frame.stack) : Q t := by
  rcases List.mem_append.mp ht with ht | ht
  · obtain ⟨slot, hslot⟩ := List.mem_iff_getElem?.mp ht
    have hlocal := hf.locals slot
    unfold slotAt at hlocal
    rwa [hslot] at hlocal
  · exact hf.stack t ht

end Frame

end

namespace Analysis

variable {υ : Type} {context : MethodContext} {code : List (CodeOp Nat)}
  {handlers : List (Handler Nat BinaryName)} {hints : FrameHints υ} {s s' : Analysis}

/-! ## Sites are instructions that create objects -/

/-- Control flow can get to an instruction that creates an object. -/
def Creates (code : List (CodeOp Nat)) (handlers : List (Handler Nat BinaryName)) (index : Nat) : Prop :=
  Reachable code handlers index ∧ ∃ type, code[index]? = some (.plain (.newObject type))

theorem creates_of_site (h : analyze context code handlers hints = .ok s) {i : Nat} {f : AnalysisFrame}
    (hf : s.frameAt i = some f) : f.Holds (SiteIn (Creates code handlers)) := by
  have hinvariant : AnalysisInvariant context code handlers hints (SiteIn (Creates code handlers)) := {
    top := fun site heq => by cases heq
    entry := holds_initialFrame (fun site heq => by cases heq) (fun site heq => by cases heq)
      (fun site heq => by
        cases heq) fun type _ site heq => absurd heq (VerificationType.ofFieldType_ne type site)
    instructions := fun hreach hop => Instruction.siteInvariant fun type hnew => ⟨hreach, type, hnew ▸ hop⟩
    caught := fun _ site heq => by cases heq
    merges := fun _ => Frame.siteMergeInvariant }
  exact hinvariant.analyze h hf

/-! ## No frame has an object of its own instruction -/

/-- An instruction that has no frame yet is the site of no object, and one that has a frame does not have its
own objects in it. -/
structure Unambiguous (s : Analysis) : Prop where
  fresh : ∀ {k i f}, s.frameAt k = none → s.frameAt i = some f → f.Holds (SiteIn (· ≠ k))
  own : ∀ {k f}, s.frameAt k = some f → f.Holds (SiteIn (· ≠ k))

/-- The edges of an instruction bring no objects but those of its frame and its own. -/
theorem edges_siteIn {sites : Nat → Prop} {index : Nat} {op : CodeOp Nat} {frame : AnalysisFrame}
    {successors : List FlowEdge} (hindex : sites index) (hframe : frame.Holds (SiteIn sites))
    (h : op.successors context index frame = .ok successors) :
    ∀ edge ∈ op.handlerEdges handlers index frame successors ++ successors, edge.2.Holds (SiteIn sites) := by
  have htop : SiteIn sites (.top : AnalysisType) := fun site heq => by cases heq
  have hleads : ∀ edge ∈ successors, edge.2.Holds (SiteIn sites) := by
    intro edge hedge
    cases CodeOp.leads_of_mem_successors h edge hedge with
    | next hnext => exact hframe.transfer (Instruction.siteInvariant fun _ _ => hindex) hnext
    | jump hb _ => exact hframe.branch hb
    | fallThrough hb _ => exact hframe.branch hb
    | subroutine hb => exact (hframe.branch hb).push htop
  intro edge hedge
  rcases List.mem_append.mp hedge with hedge | hedge
  · -- a handler finds the exception on the stack, which was not created here
    obtain ⟨handler, -, -, -, hstack, hlocals⟩ := CodeOp.mem_handlerEdges hedge
    refine ⟨?_, fun t ht site heq => ?_⟩
    · rcases hlocals with hsame | ⟨e, he, hsame⟩
      · rw [hsame]
        exact hframe.locals
      · rw [hsame]
        exact (hleads e he).locals
    · rw [hstack, List.mem_singleton] at ht
      rw [ht] at heq
      cases heq
  · exact hleads edge hedge

/-- An edge that brings no objects of instructions without a frame leaves sites unambiguous. -/
theorem Unambiguous.flow (hs : Unambiguous s) {edge : FlowEdge} {merged : AnalysisFrame}
    (hedge : ∀ k, s.frameAt k = none → edge.2.Holds (SiteIn (· ≠ k)))
    (hf : Flowed context hints edge s s' merged) : Unambiguous s' := by
  -- what is merged has no site but those of both frames, and the target keeps its own frame free of it
  have hmerged : ∀ {k}, (s.frameAt k = none ∨ k = edge.1) → merged.Holds (SiteIn (· ≠ k)) := by
    intro k hk
    cases hf.outcome with
    | first hnone =>
      refine (hedge k ?_).normalize fun site heq => by cases heq
      rcases hk with hk | rfl
      · exact hk
      · exact hnone
    | again hsome hm =>
      refine Frame.Holds.merge_current ?_ hm
      rcases hk with hk | rfl
      · exact hs.fresh hk hsome
      · exact hs.own hsome
  refine ⟨fun {k i f} hk hi => ?_, fun {k f} hk => ?_⟩
  · have hne : k ≠ edge.1 := by
      rintro rfl
      rw [hf.frameAt_target] at hk
      cases hk
    rw [hf.frameAt_of_ne hne] at hk
    by_cases heq : i = edge.1
    · rw [heq, hf.frameAt_target] at hi
      cases hi
      exact hmerged (.inl hk)
    · rw [hf.frameAt_of_ne heq] at hi
      exact hs.fresh hk hi
  · by_cases heq : k = edge.1
    · rw [heq, hf.frameAt_target] at hk
      cases hk
      exact hmerged (.inr heq)
    · rw [hf.frameAt_of_ne heq] at hk
      exact hs.own hk

/-- Edges in a row leave sites unambiguous. -/
theorem Unambiguous.foldlM : ∀ {edges : List FlowEdge} {s s' : Analysis}, Unambiguous s →
    (∀ edge ∈ edges, ∀ k, s.frameAt k = none → edge.2.Holds (SiteIn (· ≠ k))) →
      edges.foldlM (Analysis.flow context hints) s = .ok s' → Unambiguous s'
  | [], s, s', hs, _, h => by
    cases h
    exact hs
  | edge :: edges, s, s', hs, hedges, h => by
    rw [List.foldlM_cons] at h
    obtain ⟨s1, h1, h⟩ := Outcome.except_bind.mp h
    obtain ⟨merged, hf⟩ := flow_ok h1
    refine (hs.flow (hedges edge List.mem_cons_self) hf).foldlM (fun e he k hk => ?_) h
    -- what has no frame now had none before
    refine hedges e (List.mem_cons_of_mem _ he) k ?_
    by_cases heq : k = edge.1
    · rw [heq, hf.frameAt_target] at hk
      cases hk
    · rwa [hf.frameAt_of_ne heq] at hk

/-- The step lemma: a visit leaves sites unambiguous. -/
theorem Unambiguous.visit (hs : Unambiguous s) {code : Array (CodeOp Nat)} {index : Nat}
    (h : Analysis.visit context code handlers hints index s = .ok s') : Unambiguous s' := by
  rcases visit_ok h with ⟨rfl, -⟩ | ⟨op, frame, successors, hv⟩
  · exact hs
  · have hcounted : Unambiguous { s with maxStack := widest (max s.maxStack frame.stackWidth) successors } :=
      ⟨hs.fresh, hs.own⟩
    refine hcounted.foldlM (fun edge hedge k hk => ?_) hv.flows
    -- the visited instruction has a frame, so that it is not the site in question
    have hne : index ≠ k := by
      rintro rfl
      have hframe := hv.frame_eq
      change s.frameAt index = none at hk
      rw [hk] at hframe
      cases hframe
    refine edges_siteIn ?_ (hs.fresh hk hv.frame_eq) hv.successors_eq edge hedge
    exact hne

/-- The run lemma: sites are unambiguous at the end. -/
theorem unambiguous_analyze (h : analyze context code handlers hints = .ok s) : Unambiguous s := by
  unfold analyze at h
  split_ifs at h
  refine @run_induction Unambiguous _ ?_ _ _ _ ?_ h
  · intro frames maxStack index rest s' hs h'
    exact Unambiguous.visit (s := ⟨frames, maxStack, rest⟩) ⟨hs.fresh, hs.own⟩ h'
  · have hstart : ∀ {i f k}, (start context code.length).frameAt i = some f → f.Holds (SiteIn (· ≠ k)) := by
      intro i f k hf
      obtain ⟨-, rfl⟩ := frameAt_start hf
      have hsiteless := context.siteless_initialFrame
      exact ⟨fun slot site heq => absurd heq (hsiteless.locals slot site),
        fun t ht site heq => absurd heq (hsiteless.stack t ht site)⟩
    exact ⟨fun _ => hstart, hstart⟩

end Analysis

end ClassWeave
