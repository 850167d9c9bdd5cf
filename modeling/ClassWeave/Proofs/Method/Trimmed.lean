import ClassWeave.Proofs.Method.Paths
import ClassWeave.Proofs.Method.Rewritten

/-!
# Collapsed code that is read again

Code that was collapsed, laid out and read again is known by what it looks like: what control flow does not get
to are single `athrow`s (`Trimmed`), and what nothing referred to, nothing refers to now (`Unnamed`). What
it is read as is said by the layout (`Program.CollapsedAs`).
-/

namespace ClassWeave

open Analysis (Reachable)
open Layout (Encoding RespelledAt ofItems place place_inj place_succ respelled)
open MethodBody (Framed DeadRun collapse collapsedAt)

variable {ops : List (CodeOp Nat)} {handlers : List (Handler Nat BinaryName)}
  {frames : Array (Option AnalysisFrame)} {pool : Pool} {items : List LayoutItem}

/-- The frames of code that was analyzed are at the instructions that control flow gets to. -/
structure FramesOf (ops : List (CodeOp Nat)) (handlers : List (Handler Nat BinaryName))
    (frames : Array (Option AnalysisFrame)) : Prop where
  size : frames.size = ops.length
  framed : ∀ i, Framed frames i ↔ Reachable ops handlers i
  inside : ∀ i, Reachable ops handlers i → i < ops.length

theorem FramesOf.of_analyze {υ : Type} {context : MethodContext} {hints : FrameHints υ} {s : Analysis}
    (h : analyze context ops handlers hints = .ok s) : FramesOf ops handlers s.frames where
  size := (Analysis.covers_analyze h).size
  framed := fun _ => ⟨fun ⟨_, hf⟩ => Analysis.reachable_of_frameAt h hf, fun hi =>
    (Analysis.covers_analyze h).frameAt_of_reachable hi⟩
  inside := fun i hi => by
    obtain ⟨f, hf⟩ := (Analysis.covers_analyze h).frameAt_of_reachable hi
    exact (Analysis.covers_analyze h).size ▸ Analysis.frameAt_lt hf

theorem MethodCode.Analyzed.framesOf {code : MethodCode} {context : MethodContext} {s : Analysis}
    {body : MethodBody} {maxStack maxLocals : Nat}
    (h : Analyzed code context ops handlers s body maxStack maxLocals) : FramesOf ops handlers s.frames :=
  .of_analyze h.analysis

/-! ## Code that is read again -/

namespace Layout.Encoding

variable (h : Encoding pool ops items)

include h

/-- Control flow gets to the place of what it got to. -/
theorem reachable_place {k : Nat} (hk : Reachable ops handlers k) :
    Reachable (respelled (ofItems items).widened ops)
      (handlers.map (Handler.move (place (ofItems items).widened))) (place (ofItems items).widened k) := by
  induction hk with
  | start => exact .start
  | @next k op _ hop hfalls ih =>
    by_cases hwide : k ∈ (ofItems items).widened
    · -- a wide branch is negated, so what comes next is the target of that
      obtain ⟨condition, target, rfl⟩ := h.exists_conditional hop hwide
      rw [place_succ, if_pos hwide]
      exact ih.target (h.getElem?_wide hop hwide).1 (List.mem_singleton_self _)
    · rw [place_succ, if_neg hwide]
      exact ih.next (h.getElem?_narrow hop hwide) (by rwa [CodeOp.fallsThrough_mapTargets])
  | @target k t op _ hop ht ih =>
    by_cases hwide : k ∈ (ofItems items).widened
    · obtain ⟨condition, target, rfl⟩ := h.exists_conditional hop hwide
      obtain rfl := List.mem_singleton.mp ht
      obtain ⟨hbranch, hjump⟩ := h.getElem?_wide hop hwide
      exact (ih.next hbranch rfl).target hjump (List.mem_singleton_self _)
    · refine ih.target (h.getElem?_narrow hop hwide) ?_
      rw [CodeOp.targets_mapTargets]
      exact List.mem_map_of_mem ht
  | @thrown k handler _ hlt hmem hcovers ih =>
    refine ih.thrown ?_ (List.mem_map_of_mem hmem) ?_
    · rw [h.length_respelled]
      exact Layout.place_lt hlt
    · unfold Handler.covers at hcovers ⊢
      rw [Bool.and_eq_true, decide_eq_true_eq, decide_eq_true_eq] at hcovers ⊢
      exact ⟨Layout.place_le hcovers.1, Layout.place_lt hcovers.2⟩

/-- So it does to the jump of a wide branch. -/
theorem reachable_wide {k : Nat} (hwide : k ∈ (ofItems items).widened) (hk : Reachable ops handlers k)
    {condition : Condition} {target : Nat} (hop : ops[k]? = some (.branch (.conditional condition target))) :
    Reachable (respelled (ofItems items).widened ops)
      (handlers.map (Handler.move (place (ofItems items).widened))) (place (ofItems items).widened k + 1) :=
  (h.reachable_place hk).next (h.getElem?_wide hop hwide).1 rfl

end Layout.Encoding

/-! ## What cannot be reached -/

/-- What control flow does not get to are single `athrow`s. -/
structure Trimmed (ops : List (CodeOp Nat)) (handlers : List (Handler Nat BinaryName)) : Prop where
  dead : ∀ {i}, i < ops.length → ¬ Reachable ops handlers i → ops[i]? = some (.branch .athrow)
  single : ∀ {i}, i + 1 < ops.length → ¬ Reachable ops handlers i → Reachable ops handlers (i + 1)

theorem FramesOf.trimmed_collapse (h : FramesOf ops handlers frames) :
    Trimmed (collapse ops frames handlers).ops (collapse ops frames handlers).handlers where
  dead := fun {p} hp hdead => by
    have hop := List.getElem?_eq_getElem hp
    rcases MethodBody.collapse_cases hop with ⟨i, op, f, -, hf, rfl, -⟩ | ⟨heq, -⟩
    · refine absurd ?_ hdead
      exact (MethodBody.reachable_collapse h.framed h.inside).mpr ⟨i, (h.framed i).mp ⟨f, hf⟩, rfl⟩
    · rw [hop, heq]
  single := fun {p} hp hdead => by
    have hop := List.getElem?_eq_getElem (Nat.lt_of_succ_lt hp)
    refine (MethodBody.reachable_collapse h.framed h.inside).mpr ?_
    rcases MethodBody.collapse_places h.size hop with ⟨i, hi, rfl⟩ | ⟨start, stop, hrun, rfl⟩
    · refine absurd ?_ hdead
      exact (MethodBody.reachable_collapse h.framed h.inside).mpr ⟨i, (h.framed i).mp hi, rfl⟩
    · have hstop := (MethodBody.collapsedAt_deadRun hrun).2
      refine ⟨stop, (h.framed stop).mp (hrun.after ?_), hstop.symm⟩
      refine Nat.lt_of_le_of_ne hrun.stop_le fun hlast => ?_
      rw [hlast, h.size, @MethodBody.collapsedAt_end _ _ handlers h.size] at hstop
      omega

/-- Code that is trimmed still is when it is read again. -/
theorem Trimmed.respelled (h : Trimmed ops handlers) (he : Encoding pool ops items) :
    Trimmed (respelled (ofItems items).widened ops)
      (handlers.map (Handler.move (place (ofItems items).widened))) where
  dead := fun {p} hp hdead => by
    have hop' := List.getElem?_eq_getElem hp
    -- what was two instructions before is reached as one: none of the two is dead
    cases he.respelledAt hop' with
    | narrow k op hop hnarrow hplace heq =>
      have hk : ¬ Reachable ops handlers k := fun hk => hdead (hplace ▸ he.reachable_place hk)
      cases hop.symm.trans (h.dead (List.getElem?_eq_some_iff.mp hop).1 hk)
      rw [hop', heq]
      rfl
    | negated k condition target hop hwide hplace heq =>
      have hk : ¬ Reachable ops handlers k := fun hk => hdead (hplace ▸ he.reachable_place hk)
      cases hop.symm.trans (h.dead (List.getElem?_eq_some_iff.mp hop).1 hk)
    | jump k condition target hop hwide hplace heq =>
      have hk : ¬ Reachable ops handlers k := fun hk => hdead (hplace ▸ he.reachable_wide hwide hk hop)
      cases hop.symm.trans (h.dead (List.getElem?_eq_some_iff.mp hop).1 hk)
  single := fun {p} hp hdead => by
    have hop' := List.getElem?_eq_getElem (Nat.lt_of_succ_lt hp)
    rw [he.length_respelled] at hp
    cases he.respelledAt hop' with
    | narrow k op hop hnarrow hplace heq =>
      have hk : ¬ Reachable ops handlers k := fun hk => hdead (hplace ▸ he.reachable_place hk)
      have hsucc : place (ofItems items).widened (k + 1) = p + 1 := by
        rw [place_succ, if_neg hnarrow, hplace]
      rw [← hsucc] at hp ⊢
      refine he.reachable_place (h.single ?_ hk)
      by_contra hge
      exact absurd hp (Nat.not_lt_of_le (Layout.place_le (Nat.le_of_not_lt hge)))
    | negated k condition target hop hwide hplace heq =>
      have hk : ¬ Reachable ops handlers k := fun hk => hdead (hplace ▸ he.reachable_place hk)
      cases hop.symm.trans (h.dead (List.getElem?_eq_some_iff.mp hop).1 hk)
    | jump k condition target hop hwide hplace heq =>
      have hk : ¬ Reachable ops handlers k := fun hk => hdead (hplace ▸ he.reachable_wide hwide hk hop)
      cases hop.symm.trans (h.dead (List.getElem?_eq_some_iff.mp hop).1 hk)

/-! ## Positions that nothing refers to -/

/-- Neither a branch nor a handler refers to a position. -/
structure Unnamed (ops : List (CodeOp Nat)) (handlers : List (Handler Nat BinaryName)) (k : Nat) : Prop where
  targets : ∀ op ∈ ops, k ∉ op.targets
  handlers : ∀ handler ∈ handlers, handler.start ≠ k ∧ handler.stop ≠ k ∧ handler.target ≠ k

/-- Nothing comes to refer to an instruction in collapsed code, if the one before it can be reached as well. -/
theorem FramesOf.unnamed_collapse (h : FramesOf ops handlers frames) {k : Nat}
    (hk : Unnamed ops handlers (k + 1)) (hbefore : Framed frames k) (hframed : Framed frames (k + 1)) :
    Unnamed (collapse ops frames handlers).ops (collapse ops frames handlers).handlers
      (collapsedAt frames (k + 1)) where
  targets := by
    obtain ⟨g, hg⟩ := hframed
    intro op' hop' ht
    obtain ⟨p, hp⟩ := List.mem_iff_getElem?.mp hop'
    rcases MethodBody.collapse_cases hp with ⟨i, op, f, hop, hf, -, rfl⟩ | ⟨rfl, -⟩
    · rw [CodeOp.targets_mapTargets] at ht
      obtain ⟨t, ht, heq⟩ := List.mem_map.mp ht
      obtain ⟨g', hg'⟩ := (h.framed t).mpr (((h.framed i).mp ⟨f, hf⟩).target hop ht)
      obtain rfl := MethodBody.collapsedAt_inj hg' hg heq
      exact hk.targets op (List.mem_of_getElem? hop) ht
    -- the `athrow` for a run names nothing
    · cases ht
  handlers := by
    obtain ⟨g, hg⟩ := hframed
    intro handler' hmem'
    obtain ⟨handler, hmem, start, stop, hstart, hstop, htarget, hlt, hrun, hfirst, hlast⟩ :=
      MethodBody.collapse_handler_ends hmem'
    -- a range of the body comes of a run of reachable code that a handler covers
    obtain ⟨hcovers, f, hf⟩ := hrun start (Nat.le_refl _) hlt
    obtain ⟨hfree, hfree', hfree''⟩ := hk.handlers handler hmem
    refine ⟨fun heq => ?_, fun heq => ?_, fun heq => ?_⟩
    · obtain rfl := MethodBody.collapsedAt_inj hf hg (hstart.symm.trans heq)
      exact hfirst.elim (fun hsame => hfree hsame.symm) fun hgap => hgap hbefore
    · -- the run ends behind an instruction, which is then the one before
      obtain ⟨f', hf'⟩ := (hrun (stop - 1) (by omega) (by omega)).2
      obtain ⟨g', hg'⟩ := hbefore
      have hsucc := MethodBody.collapsedAt_succ hf'
      have hsucc' := MethodBody.collapsedAt_succ hg'
      rw [show stop - 1 + 1 = stop by omega] at hsucc
      have hprevious := MethodBody.collapsedAt_inj hf' hg' (by omega)
      obtain rfl : stop = k + 1 := by omega
      exact hlast.elim (fun hsame => hfree' hsame.symm) fun hgap => hgap ⟨g, hg⟩
    · have hlt : start < ops.length := by
        rw [← h.size]
        exact (MethodBody.reachable_eq hf).2.2
      obtain ⟨g', hg'⟩ := (h.framed handler.target).mpr (((h.framed start).mp ⟨f, hf⟩).thrown hlt hmem hcovers)
      exact hfree'' (MethodBody.collapsedAt_inj hg' hg (htarget.symm.trans heq))

/-- Nothing comes to refer to a place, unless it is what a wide branch skips to. -/
theorem Unnamed.respelled {k : Nat} (hk : Unnamed ops handlers (k + 1)) (he : Encoding pool ops items)
    (hnarrow : k ∉ (ofItems items).widened) : Unnamed (respelled (ofItems items).widened ops)
      (handlers.map (Handler.move (place (ofItems items).widened))) (place (ofItems items).widened (k + 1)) where
  targets := by
    intro op' hop' ht
    obtain ⟨p, hp⟩ := List.mem_iff_getElem?.mp hop'
    obtain ⟨j, hj, hcases⟩ := (he.respelledAt hp).target ht
    obtain rfl := place_inj hj
    rcases hcases with ⟨op, hop, hmem⟩ | ⟨k', hwide, heq⟩
    · exact hk.targets op hop hmem
    · exact hnarrow (Nat.succ.inj heq ▸ hwide)
  handlers := by
    rw [List.forall_mem_map]
    intro handler hmem
    obtain ⟨hstart, hstop, htarget⟩ := hk.handlers handler hmem
    exact ⟨fun heq => hstart (place_inj heq), fun heq => hstop (place_inj heq),
      fun heq => htarget (place_inj heq)⟩

/-- Nothing refers to the jump of a wide branch. -/
theorem Layout.Encoding.unnamed_wide (he : Encoding pool ops items) {k : Nat}
    (hwide : k ∈ (ofItems items).widened) : Unnamed (respelled (ofItems items).widened ops)
      (handlers.map (Handler.move (place (ofItems items).widened))) (place (ofItems items).widened k + 1) where
  targets := by
    intro op' hop' ht
    obtain ⟨p, hp⟩ := List.mem_iff_getElem?.mp hop'
    obtain ⟨j, hj, -⟩ := (he.respelledAt hp).target ht
    exact Layout.place_ne_wide hwide hj.symm
  handlers := by
    rw [List.forall_mem_map]
    intro handler _
    exact ⟨Layout.place_ne_wide hwide, Layout.place_ne_wide hwide, Layout.place_ne_wide hwide⟩

/-! ## Programs -/

namespace Program

variable {source found : Program}

/-- A program whose instructions are read again where the code of another one was collapsed and laid out. -/
structure LaidOutAs (pool : Pool) (source found : Program) (frames : Array (Option AnalysisFrame))
    (items : List LayoutItem) : Prop where
  framesOf : FramesOf source.ops source.handlers frames
  encoding : Encoding pool (collapse source.ops frames source.handlers).ops items
  far : ∀ k ∈ (ofItems items).widened, Layout.WasFar .signed16 items k
  ops : found.ops = Layout.respelled (ofItems items).widened (collapse source.ops frames source.handlers).ops

/-- A program that is read again where another one was collapsed and laid out. -/
structure CollapsedAs (pool : Pool) (source found : Program) (frames : Array (Option AnalysisFrame))
    (items : List LayoutItem) : Prop extends LaidOutAs pool source found frames items where
  handlers : found.handlers =
    (collapse source.ops frames source.handlers).handlers.map (Handler.move (place (ofItems items).widened))
  lines : found.lines = source.lines.map fun line =>
    (line.1, place (ofItems items).widened (collapsedAt frames line.2))

/-- The handlers can be counted when the code is collapsed. -/
def CountsHandlers (program : Program) : Prop :=
  ∀ frames, FramesOf program.ops program.handlers frames →
    (collapse program.ops frames program.handlers).handlers.length < 2 ^ 16

/-- An instruction that is not a branch was one before the code was collapsed and laid out. -/
theorem LaidOutAs.exists_plain (h : LaidOutAs pool source found frames items) {p : Nat}
    {instruction : Instruction} (hop : found.ops[p]? = some (.plain instruction)) : ∃ a f,
      source.ops[a]? = some (.plain instruction) ∧ (frames[a]?).join = some f ∧
        p = place (ofItems items).widened (collapsedAt frames a) ∧
          p + 1 = place (ofItems items).widened (collapsedAt frames (a + 1)) ∧
            (collapse source.ops frames source.handlers).ops[collapsedAt frames a]? =
              some (.plain instruction) := by
  rw [h.ops] at hop
  cases h.encoding.respelledAt hop with
  | narrow k op hop hnarrow hplace heq =>
    obtain rfl := CodeOp.mapTargets_eq_plain heq.symm
    rcases MethodBody.collapse_cases hop with ⟨a, op, f, hsource, hf, rfl, heq⟩ | ⟨hathrow, -⟩
    · obtain rfl := CodeOp.mapTargets_eq_plain heq.symm
      refine ⟨a, f, hsource, hf, hplace, ?_, hop⟩
      rw [MethodBody.collapsedAt_succ hf, place_succ, if_neg hnarrow, hplace]
    · cases hathrow
  | negated _ _ _ _ _ _ heq => cases heq
  | jump _ _ _ _ _ _ heq => cases heq

/-- A branch on zero was one as well, or the negation of a wide branch. -/
theorem LaidOutAs.exists_test (h : LaidOutAs pool source found frames items) {p target : Nat}
    (hop : found.ops[p]? = some (.branch (.conditional (.zero .eq) target))) :
    (∃ b t f, source.ops[b]? = some (.branch (.conditional (.zero .eq) t)) ∧ (frames[b]?).join = some f ∧
        p = place (ofItems items).widened (collapsedAt frames b) ∧
          collapsedAt frames b ∉ (ofItems items).widened ∧
            target = place (ofItems items).widened (collapsedAt frames t)) ∨
      ∃ k next, k ∈ (ofItems items).widened ∧ p = place (ofItems items).widened k ∧ target = p + 2 ∧
        found.ops[p + 1]? = some (.branch (.goto next)) := by
  rw [h.ops] at hop
  cases h.encoding.respelledAt hop with
  -- a test that was not widened is one of the source
  | narrow k op hop hnarrow hplace heq =>
    refine .inl ?_
    rcases MethodBody.collapse_cases hop with ⟨b, old, f, hold, hf, rfl, rfl⟩ | ⟨rfl, -⟩
    · rw [CodeOp.mapTargets_mapTargets] at heq
      obtain ⟨t, rfl, rfl⟩ := CodeOp.mapTargets_eq_conditional heq.symm
      exact ⟨b, t, f, hold, hf, hplace, hnarrow, rfl⟩
    · cases heq
  -- a widened branch is read as a test that skips the jump behind it
  | negated k condition next hop hwide hplace heq =>
    refine .inr ⟨k, place (ofItems items).widened next, hwide, hplace, ?_, ?_⟩
    · rw [(Branch.conditional.inj (CodeOp.branch.inj heq)).2, place_succ, if_pos hwide, hplace]
    · rw [h.ops, hplace]
      exact (h.encoding.getElem?_wide hop hwide).2
  | jump _ _ _ _ _ _ heq => cases heq

end Program

end ClassWeave
