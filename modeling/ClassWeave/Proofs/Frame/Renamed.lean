import ClassWeave.Proofs.Frame.Below
import ClassWeave.Proofs.Frame.Relocation

/-!
# Frames with renamed creation sites

Where code has moved and nothing else has changed, frames are the same but for creation sites, which have moved
along (`VerificationType.Renamed`). Instructions respect this exactly (`renamedRelation`), and so do normal form
and merges: of renamed frames they make the frame that they made before, renamed.
-/

namespace ClassWeave

open ClassWeave.Frame (slotAt hintAt localHints stackHints)
open VerificationType (SiteIn)

/-! ## Types -/

namespace VerificationType

variable {h : Hierarchy} {hint : Option RefType} {move : Nat → Nat} {sites : Nat → Prop} {s t : AnalysisType}

/-- The first type is the second one with its creation site, one of `sites`, renamed. -/
structure Renamed (move : Nat → Nat) (sites : Nat → Prop) (s t : AnalysisType) : Prop where
  eq : s = t.mapSite move
  site : SiteIn sites t

/-- A type that names no site is its own new name. -/
theorem Renamed.of_ne (move : Nat → Nat) (sites : Nat → Prop) (hne : ∀ site, t ≠ .uninitialized site) :
    Renamed move sites t t :=
  ⟨(mapSite_of_ne hne).symm, fun site heq => absurd heq (hne site)⟩

theorem Renamed.top (move : Nat → Nat) (sites : Nat → Prop) : Renamed move sites .top .top :=
  .of_ne move sites fun _ heq => by cases heq

theorem Renamed.object (move : Nat → Nat) (sites : Nat → Prop) (type : RefType) :
    Renamed move sites (.object type) (.object type) :=
  .of_ne move sites fun _ heq => by cases heq

/-- A constructor call replaces the object that it did, and no other one. -/
theorem Renamed.constructed (hinj : ∀ i j, sites i → sites j → move i = move j → i = j) {type : RefType}
    (ht : SiteIn sites t) {v w : AnalysisType} (hvw : Renamed move sites v w) :
    Renamed move sites (constructedFrom (t.mapSite move) type v) (constructedFrom t type w) := by
  unfold constructedFrom
  by_cases hw : w = t
  · rw [if_pos hw, if_pos (by rw [hvw.eq, hw])]
    exact .object move sites type
  · rw [if_neg hw, if_neg fun heq => hw (mapSite_inj hinj hvw.site ht (hvw.eq.symm.trans heq))]
    exact hvw

/-- Types merge the same under their new names. -/
theorem merge?_mapSite (hinj : ∀ i j, sites i → sites j → move i = move j → i = j) (hs : SiteIn sites s)
    (ht : SiteIn sites t) :
    merge? h hint (s.mapSite move) (t.mapSite move) = (merge? h hint s t).map (·.mapSite move) := by
  unfold merge?
  by_cases heq : s = t
  · rw [if_pos heq, if_pos (congrArg _ heq)]
    rfl
  · rw [if_neg heq, if_neg fun h => heq (mapSite_inj hinj hs ht h)]
    cases s <;> cases t <;> rfl

theorem Below.mapSite (hh : h.Ordered) (hst : Below h s t) (move : Nat → Nat) :
    Below h (s.mapSite move) (t.mapSite move) := by
  rcases hst.cases hh with rfl | ⟨rfl, b, rfl⟩ | ⟨a, b, rfl, rfl, -⟩
  · exact .refl h _
  · exact hst
  · exact hst

theorem BelowTop.mapSite (hh : h.Ordered) (hst : BelowTop h s t) (move : Nat → Nat) :
    BelowTop h (s.mapSite move) (t.mapSite move) := by
  rcases hst with rfl | hst
  · exact .inl rfl
  · exact .inr (hst.mapSite hh move)

end VerificationType

open VerificationType (Renamed)

/-! ## Instructions -/

/-- Instructions of strict code respect renamed types. -/
theorem renamedRelation {owner : BinaryName} {index : Nat} {instruction : Instruction} {move : Nat → Nat}
    {sites : Nat → Prop} (hinj : ∀ i j, sites i → sites j → move i = move j → i = j)
    (hcreated : ∀ {type}, instruction = .newObject type → sites index) :
    TransferRelation owner true (move index) index instruction (Renamed move sites) (Renamed move sites) where
  toLocals := id
  wide := fun {s t} hst => by rw [hst.eq, VerificationType.isWide_mapSite]
  cut := fun {s t} hst => by
    unfold Frame.cut
    rw [hst.eq, VerificationType.isWide_mapSite]
    split_ifs
    · exact .top move sites
    · exact ⟨rfl, hst.site⟩
  top := .top move sites
  load := fun {s t} hst hne =>
    ⟨fun _ heq => hne rfl (VerificationType.mapSite_eq_top (hst.eq.symm.trans heq)), hst⟩
  element := fun {s t e} hst he => by
    rw [hst.eq]
    cases t with
    | null =>
      cases he
      exact ⟨_, rfl, .of_ne move sites fun _ heq => by cases heq⟩
    | object a =>
      obtain ⟨d, -, rfl⟩ := elementType_object he
      exact ⟨_, he, .object move sites d⟩
    | _ => cases he
  -- a constructor names the object by its site, which no other site is moved to
  constructed := fun {mode method s t type} _ hst htype => by
    rw [hst.eq, VerificationType.constructedType_mapSite]
    exact ⟨htype, fun huv => huv.constructed hinj hst.site, fun huv => huv.constructed hinj hst.site⟩
  introduced := fun t ht => .of_ne move sites (Instruction.introduced_ne t ht)
  created := fun {type} hinstr => ⟨rfl, fun site heq => by
    cases heq
    exact hcreated hinstr⟩

/-! ## Normal form -/

namespace Frame

variable {h : Hierarchy} {move : Nat → Nat} {sites : Nat → Prop} {f f' g : AnalysisFrame}

/-- The first frame is the second one with its creation sites renamed, as far as slots can tell. -/
abbrev Renamed (move : Nat → Nat) (sites : Nat → Prop) (f' f : AnalysisFrame) : Prop :=
  f'.Related (VerificationType.Renamed move sites) (VerificationType.Renamed move sites) f

theorem Renamed.refl (move : Nat → Nat) (hf : f.Holds (SiteIn sites)) :
    Renamed move sites (f.mapSites move) f where
  locals := fun slot => ⟨slotAt_mapSites move f slot, hf.locals slot⟩
  stack := List.forall₂_map_left_iff.mpr (List.forall₂_same.mpr fun t ht => ⟨rfl, hf.stack t ht⟩)

theorem Renamed.stack_eq (h : Renamed move sites f' f) : f'.stack = f.stack.map (·.mapSite move) := by
  have hstack := h.stack
  generalize f'.stack = types', f.stack = types at hstack
  induction hstack with
  | nil => rfl
  | cons hst _ ih => rw [hst.eq, ih, List.map_cons]

theorem Renamed.holds (h : Renamed move sites f' f) : f.Holds (SiteIn sites) where
  locals := fun slot => (h.locals slot).site
  stack := fun _ ht => by
    obtain ⟨_, -, hst⟩ := Lists.exists_mem_of_forall₂ h.stack.flip ht
    exact hst.site

theorem Renamed.stackWidth (h : Renamed move sites f' f) : f'.stackWidth = f.stackWidth :=
  Related.stackWidth (fun hst => by rw [hst.eq, VerificationType.isWide_mapSite]) h

/-- What is below a frame is below it under other names. -/
theorem Renamed.below (hh : h.Ordered) (hf : Renamed move sites f' f) (hfg : f.Below h g) :
    f'.Below h (g.mapSites move) where
  locals := fun slot => by
    rw [(hf.locals slot).eq, slotAt_mapSites]
    exact (hfg.locals slot).mapSite hh move
  stack := by
    rw [hf.stack_eq]
    exact List.forall₂_map_left_iff.mpr (List.forall₂_map_right_iff.mpr
      (hfg.stack.imp fun _ _ hst => hst.mapSite hh move))

theorem whole_mapSites {locals : List AnalysisType} (h : Whole locals) : Whole (locals.map (·.mapSite move)) :=
  whole_map rfl (VerificationType.isWide_mapSite move) h

theorem trimLocals_mapSite (move : Nat → Nat) : ∀ locals : List AnalysisType,
    trimLocals (locals.map (·.mapSite move)) = (trimLocals locals).map (·.mapSite move)
  | [] => rfl
  | type :: rest => by
    have htop : type.mapSite move = .top ↔ type = .top :=
      ⟨VerificationType.mapSite_eq_top, fun heq => by rw [heq]; rfl⟩
    rw [List.map_cons]
    unfold trimLocals
    rw [trimLocals_mapSite move rest]
    cases trimLocals rest with
    | cons next trimmed => rfl
    | nil =>
      rw [List.map_nil, VerificationType.isWide_mapSite]
      simp only [htop]
      split_ifs
      · rfl
      · rw [List.map_cons, List.map_take]
      · rfl

/-- Whole locals that are renamed slot by slot have the same normal form, renamed. -/
theorem isNormal_mapSites (move : Nat → Nat) (hf : f.IsNormal) : (f.mapSites move).IsNormal :=
  ⟨whole_mapSites hf.1, (trimLocals_mapSite move f.locals).trans (congrArg _ hf.2)⟩

theorem trimLocals_renamed {locals' locals : List AnalysisType} (hwhole' : Whole locals') (hwhole : Whole locals)
    (h : ∀ slot, slotAt locals' slot = (slotAt locals slot).mapSite move) :
    trimLocals locals' = (trimLocals locals).map (·.mapSite move) := by
  rw [← trimLocals_mapSite]
  refine trimLocals_congr hwhole' (whole_mapSites hwhole) fun slot => ?_
  rw [h slot, slotAt_map rfl]

/-- A renamed frame has the normal form that the frame had, renamed. -/
theorem Renamed.normalize (h : Renamed move sites f' f) (hwhole' : Whole f'.locals) (hwhole : Whole f.locals) :
    f'.normalize = f.normalize.mapSites move := by
  unfold Frame.normalize mapSites
  rw [dropHalves_of_whole hwhole', dropHalves_of_whole hwhole, h.stack_eq]
  dsimp only
  rw [trimLocals_renamed hwhole' hwhole fun slot => (h.locals slot).eq]

/-! ## Merges -/

variable {υ υ' : Type} {h : Hierarchy}

/-- Two frames suggest the same classes. -/
structure SuggestAlike (hint' : Option (Frame RefType υ')) (hint : Option (Frame RefType υ)) : Prop where
  locals : localHints hint' = localHints hint
  stack : stackHints hint' = stackHints hint

/-- Only the classes matter that are suggested. -/
theorem SuggestAlike.merge_eq {hint' : Option (Frame RefType υ')} {hint : Option (Frame RefType υ)}
    (hhint : SuggestAlike hint' hint) (strict : Bool) :
    Frame.merge h strict hint' = Frame.merge h strict hint := by
  funext current incoming
  have hlocals : ((hint'.map fun frame => refTypes frame.locals)).getD [] =
      ((hint.map fun frame => refTypes frame.locals)).getD [] := hhint.locals
  have hstack : ((hint'.map fun frame => refTypes frame.stack.reverse)).getD [] =
      ((hint.map fun frame => refTypes frame.stack.reverse)).getD [] := hhint.stack
  unfold Frame.merge
  rw [hlocals, hstack]

theorem mergeStack_mapSite (hinj : ∀ i j, sites i → sites j → move i = move j → i = j) :
    ∀ {hints : List (Option RefType)} {lefts rights types : List AnalysisType},
      (∀ t ∈ lefts, SiteIn sites t) → (∀ t ∈ rights, SiteIn sites t) →
        mergeStack h true hints lefts rights = .ok types →
          mergeStack h true hints (lefts.map (·.mapSite move)) (rights.map (·.mapSite move)) =
            .ok (types.map (·.mapSite move))
  | hints, left :: lefts, right :: rights, types, hlefts, hrights, hm => by
    -- nothing becomes unusable in strict code
    obtain ⟨type, rest, rfl, hrest, htype | ⟨hlenient, -⟩⟩ := mergeStack_cons hm
    · have ih := mergeStack_mapSite hinj (fun t ht => hlefts t (List.mem_cons_of_mem _ ht))
        (fun t ht => hrights t (List.mem_cons_of_mem _ ht)) hrest
      rw [List.map_cons, List.map_cons]
      unfold mergeStack
      rw [VerificationType.merge?_mapSite hinj (hlefts left List.mem_cons_self)
        (hrights right List.mem_cons_self), htype]
      exact Outcome.except_bind.mpr ⟨_, rfl, Outcome.except_bind.mpr ⟨_, ih, rfl⟩⟩
    · cases hlenient
  | _, [], _, types, _, _, hm => by
    cases hm
    rfl
  | _, _ :: _, [], types, _, _, hm => by
    cases hm
    rfl

/-- Renamed frames merge to what the frames merged to, renamed. -/
theorem Renamed.merge (hinj : ∀ i j, sites i → sites j → move i = move j → i = j)
    {hint' : Option (Frame RefType υ')} {hint : Option (Frame RefType υ)} (hhint : SuggestAlike hint' hint)
    {current incoming incoming' merged : AnalysisFrame} (hcurrent : current.Holds (SiteIn sites))
    (hwhole : Whole current.locals) (hincoming : Renamed move sites incoming' incoming)
    (hwhole' : Whole incoming'.locals) (hwhole'' : Whole incoming.locals)
    (hm : Frame.merge h true hint current incoming = .ok merged) :
    Frame.merge h true hint' (current.mapSites move) incoming' = .ok (merged.mapSites move) := by
  obtain ⟨hheight, stack, hstack, rfl⟩ := merge_eq_ok.mp hm
  refine merge_eq_ok.mpr ⟨?_, stack.map (·.mapSite move), ?_, ?_⟩
  · rw [hincoming.stack_eq, mapSites, List.length_map, List.length_map, hheight]
  · rw [hincoming.stack_eq, mapSites, ← List.map_reverse, ← List.map_reverse, hhint.stack]
    exact mergeStack_mapSite hinj (fun t ht => hcurrent.stack t (List.mem_reverse.mp ht))
      (fun t ht => hincoming.holds.stack t (List.mem_reverse.mp ht)) hstack
  · -- the merged locals are compared slot by slot: the lists may end in different places
    have hleft := whole_mergeLocals (h := h) (localHints hint) hwhole hwhole''
    have hmoved : Whole (current.locals.map (·.mapSite move)) := whole_mapSites hwhole
    have hright := whole_mergeLocals (h := h) (localHints hint') hmoved hwhole'
    unfold Frame.normalize mapSites
    dsimp only
    rw [dropHalves_of_whole hleft, dropHalves_of_whole hright, trimLocals_renamed hright hleft, List.map_reverse]
    intro slot
    rw [slotAt_mergeLocals, slotAt_mergeLocals, hhint.locals, slotAt_map rfl, (hincoming.locals slot).eq,
      VerificationType.merge?_mapSite hinj (hcurrent.locals slot) (hincoming.locals slot).site]
    cases VerificationType.merge? h (hintAt (localHints hint) slot) (slotAt current.locals slot)
      (slotAt incoming.locals slot) <;> rfl

end Frame

end ClassWeave
