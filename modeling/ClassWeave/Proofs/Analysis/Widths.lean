import ClassWeave.Proofs.Analysis.Least

/-!
# The sizes of frames

The words that the analysis counts are enough for every stack that it finds (`Analysis.exists_edges_le`), but it
counts along the way, and a frame may still change then. In strict code a change leaves the outline of a stack
as it is (`Frame.outline`): it is one class that takes the place of another. So the words counted are those of a
stack at the end, before an instruction or after it (`Analysis.measures_maxStack`), and what is stored in local
variables on the way is no wider than what is stored at the end (`Analysis.length_locals_le`).
-/

namespace ClassWeave

open ClassWeave.Frame (slotAt)
open Hierarchy (ordered_empty)
open VerificationType (Below BelowTop FlowsTo)

/-! ## Outlines -/

namespace VerificationType

variable {h h' : Hierarchy} {lossy : Bool} {hint : Option RefType} {s t : AnalysisType}

/-- What is left of a type when classes do not count: `null`, which is below them all, for each of them. -/
def outline : AnalysisType → AnalysisType
  | .object _ => .null
  | type => type

theorem outline_below (h : Hierarchy) (t : AnalysisType) : Below h t.outline t := by
  cases t with
  | object type => exact below_null h type
  | _ => exact .refl h _

theorem Below.outline (hh : h.Ordered) (hst : Below h s t) : Below h s.outline t.outline := by
  rcases hst.cases hh with rfl | ⟨rfl, b, rfl⟩ | ⟨a, b, rfl, rfl, -⟩ <;> exact .refl h _

theorem BelowTop.outline (hh : h.Ordered) (hst : BelowTop h s t) : BelowTop h s.outline t.outline := by
  rcases hst with rfl | hst
  · exact .inl rfl
  · exact .inr (hst.outline hh)

theorem outline_outline (t : AnalysisType) : t.outline.outline = t.outline := by
  cases t <;> rfl

/-- Merges keep the outline of a type, unless it becomes unusable. -/
theorem FlowsTo.outline_below (h' : Hierarchy) (hst : FlowsTo h lossy hint s t) :
    lossy = true ∧ t = .top ∨ Below h' s.outline t := by
  cases hst with
  | refl => exact .inr (VerificationType.outline_below h' s)
  | top _ hlossy => exact .inl ⟨hlossy, rfl⟩
  | null b => exact .inr (below_null h' b)
  | below _ _ => exact .inr (below_null h' _)
  | hinted _ _ => exact .inr (below_null h' _)

end VerificationType

namespace Frame

variable {h h' : Hierarchy} {υ : Type} {hint : Option (Frame RefType υ)} {f g k : AnalysisFrame}

theorem Below.stackWidth (hh : h.Ordered) (hfg : f.Below h g) : f.stackWidth = g.stackWidth :=
  Related.stackWidth (fun hst => hst.isWide hh) hfg

/-- The outlines of the types of a frame. -/
def outline (frame : AnalysisFrame) : AnalysisFrame :=
  ⟨frame.locals.map (·.outline), frame.stack.map (·.outline)⟩

theorem slotAt_outline (f : AnalysisFrame) (slot : Nat) :
    slotAt f.outline.locals slot = (slotAt f.locals slot).outline :=
  slotAt_map rfl _ _

theorem outline_below (h : Hierarchy) (f : AnalysisFrame) : f.outline.Below h f := by
  refine ⟨fun slot => ?_, List.forall₂_map_left_iff.mpr (List.forall₂_same.mpr fun t _ => t.outline_below h)⟩
  rw [slotAt_outline]
  exact .inr (VerificationType.outline_below h _)

theorem Below.outline (hh : h.Ordered) (hfg : f.Below h g) : f.outline.Below h g.outline := by
  refine ⟨fun slot => ?_, ?_⟩
  · rw [slotAt_outline, slotAt_outline]
    exact (hfg.locals slot).outline hh
  · exact List.forall₂_map_left_iff.mpr
      (List.forall₂_map_right_iff.mpr (hfg.stack.imp fun _ _ hst => hst.outline hh))

theorem outline_outline (f : AnalysisFrame) : f.outline.outline = f.outline := by
  unfold outline
  simp only [List.map_map, Function.comp_def, VerificationType.outline_outline]

/-- Frames with one outline have values of the same width on top. -/
theorem Below.exists_top (hh : h.Ordered) (hfg : f.outline.Below h g) {type : AnalysisType}
    {rest : List AnalysisType} (hstack : f.stack = type :: rest) : ∃ type' rest', g.stack = type' :: rest' ∧
    type.isWide = type'.isWide := by
  have hrelated : List.Forall₂ (VerificationType.Below h) (f.stack.map (·.outline)) g.stack := hfg.stack
  rw [hstack, List.map_cons] at hrelated
  obtain ⟨type', rest', htype, -, hg⟩ := List.forall₂_cons_left_iff.mp hrelated
  exact ⟨type', rest', hg, ((type.outline_below h).isWide hh).symm.trans (htype.isWide hh)⟩

/-- What a frame becomes in strict code is above its outline, whatever classes there are. -/
theorem FlowsTo.outline_below (h' : Hierarchy) (hfg : f.FlowsTo h true hint g) : f.outline.Below h' g := by
  refine related_iff_places.mpr ⟨fun slot => ?_, ?_, fun {place s t} hs ht => ?_⟩
  · rw [slotAt_outline]
    exact ((hfg.locals slot).outline_below h').imp And.right id
  · exact (List.length_map _).trans hfg.height
  · change (f.stack.map _).reverse[place]? = some s at hs
    rw [← List.map_reverse, List.getElem?_map] at hs
    obtain ⟨u, hu, rfl⟩ := Option.map_eq_some_iff.mp hs
    rcases (hfg.stack place u t hu ht).outline_below h' with ⟨hlossy, -⟩ | hbelow
    · cases hlossy
    · exact hbelow

end Frame

namespace Analysis

variable {υ : Type} {context : MethodContext} {code : List (CodeOp Nat)}
  {handlers : List (Handler Nat BinaryName)} {hints : FrameHints υ} {s : Analysis}

/-- Stacks keep their heights. -/
theorem accepting_height (context : MethodContext) (hints : FrameHints υ) :
    Accepting (fun _ f g => f.stack.length = g.stack.length) context hints where
  refl := fun _ _ => rfl
  trans := Eq.trans
  normalize := fun _ _ => rfl
  merge := fun hm => ⟨(Frame.flowsTo_merge hm).1.height, (Frame.flowsTo_merge hm).2.height⟩

/-- In strict code frames keep their outlines. -/
theorem accepting_outline (hstrict : context.strict = true) (hints : FrameHints υ) :
    Accepting (fun _ f g => f.outline.Below .empty g) context hints where
  refl := fun _ f => f.outline_below .empty
  trans := fun {_ f _ _} hfg hgk => by
    have houtline := hfg.outline ordered_empty
    rw [f.outline_outline] at houtline
    exact houtline.trans ordered_empty hgk
  normalize := fun _ f => (Frame.flowsTo_normalize context.hierarchy true (none : Option (Frame RefType υ))
    f).outline_below _
  merge := fun hm => by
    rw [hstrict] at hm
    exact ⟨(Frame.flowsTo_merge hm).1.outline_below _, (Frame.flowsTo_merge hm).2.outline_below _⟩

end Analysis

/-! ## Edges -/

namespace CodeOp

variable {context : MethodContext} {handlers : List (Handler Nat BinaryName)} {index : Nat}
  {f g : AnalysisFrame} {op : CodeOp Nat} {edges edges' : List FlowEdge}

/-- What an instruction does is the same whatever classes there are, so edges are as far below as frames,
without any. -/
theorem edges_below_empty (hstrict : context.strict = true) (hfg : f.Below .empty g)
    (h : op.successors context index g = .ok edges) :
    ∃ edges', op.successors context index f = .ok edges' ∧
      List.Forall₂ (fun e e' => e.1 = e'.1 ∧ e.2.Below .empty e'.2) edges' edges ∧
        List.Forall₂ (fun e e' => e.1 = e'.1 ∧ e.2.Below .empty e'.2)
          (op.handlerEdges handlers index f edges' ++ edges')
          (op.handlerEdges handlers index g edges ++ edges) :=
  @all_edges_below { context with hierarchy := .empty } handlers index f g op edges ordered_empty hstrict hfg h

/-- Frames with one outline leave stacks with as many words. -/
theorem successors_stackWidth (hstrict : context.strict = true) (hfg : f.outline.Below .empty g)
    (hf : op.successors context index f = .ok edges) (hg : op.successors context index g = .ok edges') :
    List.Forall₂ (fun e e' => e.1 = e'.1 ∧ e.2.stackWidth = e'.2.stackWidth) edges edges' := by
  obtain ⟨outlines, houtlines, hleft, -⟩ := @edges_below_empty context [] _ _ _ _ _ hstrict
    (f.outline_below .empty) hf
  obtain ⟨outlines', houtlines', hright, -⟩ := @edges_below_empty context [] _ _ _ _ _ hstrict hfg hg
  rw [houtlines] at houtlines'
  cases houtlines'
  refine (Lists.forall₂_comp hleft.flip hright).imp ?_
  rintro e e' ⟨o, ⟨htarget, hbelow⟩, htarget', hbelow'⟩
  exact ⟨htarget.symm.trans htarget', (hbelow.stackWidth ordered_empty).symm.trans
    (hbelow'.stackWidth ordered_empty)⟩

end CodeOp

namespace Analysis

variable {υ : Type} {context : MethodContext} {code : List (CodeOp Nat)}
  {handlers : List (Handler Nat BinaryName)} {hints : FrameHints υ} {s : Analysis}

/-! ## Stacks -/

/-- The words counted are enough for the stacks before and after every instruction, and for what handlers find. -/
theorem exists_edges_le (h : analyze context code handlers hints = .ok s) {i : Nat} {op : CodeOp Nat}
    {f : AnalysisFrame} (hop : code[i]? = some op) (hf : s.frameAt i = some f) : f.stackWidth ≤ s.maxStack ∧
      ∃ edges, op.successors context i f = .ok edges ∧
        ∀ edge ∈ op.handlerEdges handlers i f edges ++ edges, edge.2.stackWidth ≤ s.maxStack := by
  obtain ⟨edges, hset⟩ := (settled_analyze (accepting_height context hints) h).2 hop hf
  refine ⟨hset.before, edges, hset.successors_eq, fun edge hedge => ?_⟩
  rcases List.mem_append.mp hedge with hhandler | hleads
  · -- the handler itself has a frame, whose stack is no lower than that of what arrives
    obtain ⟨handler, -, -, -, hstack, -⟩ := CodeOp.mem_handlerEdges hhandler
    obtain ⟨g, hg, hheight⟩ := hset.accepted edge hedge
    have hcaught : edge.2.stackWidth = 1 := by
      unfold Frame.stackWidth
      rw [hstack]
      rfl
    have hlow := g.length_stack_le
    have hcounted := (covers_analyze h).stackWidth hg
    rw [← hheight, hstack, List.length_singleton] at hlow
    omega
  · exact hset.after edge hleads

/-- Words on a stack at the end of an analysis, before an instruction or along an edge to one that follows. -/
inductive Measures (context : MethodContext) (code : List (CodeOp Nat)) (s : Analysis) : Nat → Prop
  | before {i : Nat} {f : AnalysisFrame} : s.frameAt i = some f → Measures context code s f.stackWidth
  | after {i : Nat} {op : CodeOp Nat} {f : AnalysisFrame} {edges : List FlowEdge} {edge : FlowEdge} :
    code[i]? = some op → s.frameAt i = some f → op.successors context i f = .ok edges → edge ∈ edges →
      Measures context code s edge.2.stackWidth

/-- The step lemma: a visit on the way to the end only counts what is measured there as well. -/
theorem Visited.measures (hstrict : context.strict = true) {final s' : Analysis}
    (hfinal : analyze context code handlers hints = .ok final) {index : Nat} {op : CodeOp Nat}
    {frame : AnalysisFrame} {successors : List FlowEdge} (hs : Measures context code final s.maxStack)
    (hv : Visited context code.toArray handlers hints index op frame successors s s')
    (hraises : Raises (fun _ f g => f.outline.Below .empty g) s final) :
    Measures context code final s'.maxStack := by
  have hop := hv.op_eq
  rw [List.getElem?_toArray] at hop
  obtain ⟨g, hg, houtline⟩ := hraises.frames hv.frame_eq
  obtain ⟨-, edges, hedges, -⟩ := exists_edges_le hfinal hop hg
  have hbefore : Measures context code final frame.stackWidth := by
    rw [← (frame.outline_below .empty).stackWidth ordered_empty, houtline.stackWidth ordered_empty]
    exact .before hg
  have hafter : ∀ edge ∈ successors, Measures context code final edge.2.stackWidth := by
    intro edge hedge
    have hwidths := CodeOp.successors_stackWidth hstrict houtline hv.successors_eq hedges
    obtain ⟨e, he, -, hwidth⟩ := Lists.exists_mem_of_forall₂ hwidths hedge
    rw [hwidth]
    exact .after hop hg hedges he
  rw [(spreads_foldlM hv.flows).maxStack]
  -- the maximum is one of those that it is taken of
  rcases widest_cases successors (max s.maxStack frame.stackWidth) with heq | ⟨edge, hedge, heq⟩
  · dsimp only
    rw [heq]
    rcases max_cases s.maxStack frame.stackWidth with ⟨hmax, -⟩ | ⟨hmax, -⟩
    · rw [hmax]
      exact hs
    · rw [hmax]
      exact hbefore
  · dsimp only
    rw [heq]
    exact hafter edge hedge

/-- In strict code the words counted are those on some stack at the end. -/
theorem measures_maxStack (hstrict : context.strict = true) (h : analyze context code handlers hints = .ok s) :
    Measures context code s s.maxStack := by
  have hrun := h
  unfold analyze at hrun
  split_ifs at hrun
  refine run_toward (P := fun state => Measures context code s state.maxStack) (accepting_outline hstrict hints)
    (fun hs => hs) (fun hs hv hraises _ => hv.measures hstrict h hs hraises) ?_ hrun
  -- nothing is counted at the start, and the stack is empty on entry
  obtain ⟨found, hfound, hentry⟩ := (settled_analyze (accepting_outline hstrict hints) h).1
  have hempty : found.stackWidth = 0 := by
    rw [← hentry.stackWidth ordered_empty]
    rfl
  have hmeasures : Measures context code s found.stackWidth := .before hfound
  rw [hempty] at hmeasures
  exact hmeasures

/-! ## Local variables -/

/-- What is stored takes no more than `count` slots: no instruction that is reached names others, and wide
values are only stored as such. -/
structure Narrow (code : List (CodeOp Nat)) (s : Analysis) (count : Nat) : Prop where
  named : ∀ {i op f}, code[i]? = some op → s.frameAt i = some f → op.slotsNamed ≤ count
  stored : ∀ {i slot f type rest}, code[i]? = some (.plain (.store .ref slot)) → s.frameAt i = some f →
    f.stack = type :: rest → type.isWide = false

/-- No instruction stores beyond the slots, as what it takes is as wide as in the end. -/
theorem Narrow.edges_le {count : Nat} {index : Nat} {op : CodeOp Nat} {frame final : AnalysisFrame}
    {edges : List FlowEdge} (hnarrow : Narrow code s count) (hop : code[index]? = some op)
    (hfinal : s.frameAt index = some final) (houtline : frame.outline.Below .empty final)
    (hframe : frame.locals.length ≤ count) (hedges : op.successors context index frame = .ok edges) :
    ∀ edge ∈ op.handlerEdges handlers index frame edges ++ edges, edge.2.locals.length ≤ count := by
  refine CodeOp.edges_locals (P := fun locals => locals.length ≤ count) hframe ?_ hedges
  intro instruction after hinstr hafter
  cases Frame.transfer_locals hafter with
  | same heq => rwa [heq]
  | stored kind slot type hstore hwidth htop heq =>
    rw [heq, Frame.length_store]
    subst hinstr hstore
    have hnamed : slot.toNat + kind.width ≤ count := hnarrow.named hop hfinal
    -- what is stored is as wide as its kind says; for references the final frame says so
    have hkind : type.width = kind.width := by
      by_cases href : kind = .ref
      · subst href
        obtain ⟨rest, hstack⟩ := htop rfl
        obtain ⟨type', rest', hfinal', hwide⟩ := houtline.exists_top ordered_empty hstack
        rw [Frame.width_eq, hwide, hnarrow.stored hop hfinal hfinal']
        rfl
      · exact hwidth href
    omega
  | constructed site type _ _ heq =>
    rw [heq, List.length_map]
    exact hframe

/-- The step lemma: a visit on the way to the end keeps all frames within the slots. -/
theorem Visited.length_locals_le (hstrict : context.strict = true) {count : Nat} {final s' : Analysis}
    (hnarrow : Narrow code final count) {index : Nat} {op : CodeOp Nat} {frame : AnalysisFrame}
    {successors : List FlowEdge} (hs : ∀ i f, s.frameAt i = some f → f.locals.length ≤ count)
    (hv : Visited context code.toArray handlers hints index op frame successors s s')
    (hraises : Raises (fun _ f g => f.outline.Below .empty g) s final)
    (hraises' : Raises (fun _ f g => f.outline.Below .empty g) s' final) :
    ∀ i f, s'.frameAt i = some f → f.locals.length ≤ count := by
  have hop := hv.op_eq
  rw [List.getElem?_toArray] at hop
  obtain ⟨g, hg, houtline⟩ := hraises.frames hv.frame_eq
  have hedges : ∀ edge ∈ op.handlerEdges handlers index frame successors ++ successors,
      edge.2.locals.length ≤ count :=
    hnarrow.edges_le hop hg houtline (hs _ _ hv.frame_eq) hv.successors_eq
  refine foldlM_flow_toward (P := fun state => ∀ i f, state.frameAt i = some f → f.locals.length ≤ count)
    (accepting_outline hstrict hints)
    (fun {edge _ _ merged} hedge hP hflow _ i f hf => ?_) ?start hv.flows hraises'
  case start => exact hs
  by_cases heq : i = edge.1
  · subst heq
    rw [hflow.frameAt_target] at hf
    cases hf
    cases hflow.outcome with
    | first _ => exact Nat.le_trans (length_normalize_le _) (hedges edge hedge)
    | again hold hm => exact Nat.le_trans (length_merge_le hm) (hP _ _ hold)
  · rw [hflow.frameAt_of_ne heq] at hf
    exact hP i f hf

/-- Where no `astore` takes a wide value, the frames found in strict code stay within the slots that it names. -/
theorem length_locals_le (hstrict : context.strict = true) (h : analyze context code handlers hints = .ok s)
    {count : Nat} (hentry : (context.initialFrame : AnalysisFrame).locals.length ≤ count)
    (hnarrow : Narrow code s count) {i : Nat} {f : AnalysisFrame} (hf : s.frameAt i = some f) :
    f.locals.length ≤ count := by
  have hrun := h
  unfold analyze at hrun
  split_ifs at hrun
  refine run_toward (P := fun state => ∀ i f, state.frameAt i = some f → f.locals.length ≤ count)
    (accepting_outline hstrict hints) (fun hs => hs)
    (fun hs hv hraises hraises' => hv.length_locals_le hstrict hnarrow hs hraises hraises')
    (fun i f hf => ?_) hrun i f hf
  obtain ⟨rfl, rfl⟩ := frameAt_start hf
  exact hentry

end Analysis

end ClassWeave
