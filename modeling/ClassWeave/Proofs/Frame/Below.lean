import ClassWeave.Proofs.Frame.Whole
import ClassWeave.Proofs.Hierarchy.Join

/-!
# The order of frames

A type is below another if merging the two gives the other (`VerificationType.Below`), and a frame is below
another if its types are, place by place, where an unusable local is above everything (`Frame.Below`). In
ordered hierarchies this is a partial order. The effects of instructions are monotone in it, their failures
included, and the merge of two frames is the least frame above both; strict merges fail only where there is
none.
-/

namespace ClassWeave

open ClassWeave.Frame (slotAt)

/-! ## Types -/

namespace VerificationType

variable {h : Hierarchy} {r s t : AnalysisType}

/-- Merging the two types gives the second. -/
def Below (h : Hierarchy) (s t : AnalysisType) : Prop :=
  merge? h none s t = some t

theorem Below.refl (h : Hierarchy) (t : AnalysisType) : Below h t t := if_pos rfl

theorem below_null (h : Hierarchy) (type : RefType) : Below h .null (.object type) := rfl

theorem below_object (hh : h.Ordered) {a b : RefType} : Below h (.object a) (.object b) ↔ h.Under a b := by
  rw [h.under_iff_join hh]
  by_cases heq : a = b
  · rw [heq]
    exact iff_of_true (.refl h _) (h.join_self b)
  · unfold Below merge?
    rw [if_neg fun hobject => heq (VerificationType.object.inj hobject)]
    change some (VerificationType.object (h.join a b)) = some (.object b) ↔ _
    rw [Option.some.injEq, VerificationType.object.injEq]

/-- Below a type are the type itself, and below a class or an array also `null` and what is under it. -/
theorem Below.cases (hh : h.Ordered) (hst : Below h s t) :
    s = t ∨ (s = .null ∧ ∃ b, t = .object b) ∨ ∃ a b, s = .object a ∧ t = .object b ∧ h.Under a b := by
  by_cases heq : s = t
  · exact .inl heq
  have hmerge := hst
  unfold Below merge? at hmerge
  rw [if_neg heq] at hmerge
  split at hmerge
  · exact .inr (.inl ⟨rfl, _, rfl⟩)
  · cases hmerge
  · exact .inr (.inr ⟨_, _, rfl, rfl, (below_object hh).mp hst⟩)
  · cases hmerge

theorem Below.trans (hh : h.Ordered) (hrs : Below h r s) (hst : Below h s t) : Below h r t := by
  rcases hst.cases hh with rfl | ⟨rfl, b, rfl⟩ | ⟨a, b, rfl, rfl, hab⟩
  · exact hrs
  · rcases hrs.cases hh with rfl | ⟨-, a, ha⟩ | ⟨-, a, -, ha, -⟩
    · exact hst
    · cases ha
    · cases ha
  · rcases hrs.cases hh with rfl | ⟨rfl, -⟩ | ⟨c, d, rfl, hd, hcd⟩
    · exact hst
    · exact below_null h b
    · cases hd
      exact (below_object hh).mpr (hcd.trans hh hab)

theorem Below.antisymm (hh : h.Ordered) (hst : Below h s t) (hts : Below h t s) : s = t := by
  rcases hst.cases hh with heq | ⟨rfl, b, rfl⟩ | ⟨a, b, rfl, rfl, hab⟩
  · exact heq
  · cases hts
  · rw [hab.antisymm hh ((below_object hh).mp hts)]

theorem eq_top_of_below (hh : h.Ordered) (ht : Below h .top t) : t = .top := by
  rcases ht.cases hh with heq | ⟨heq, -⟩ | ⟨a, b, heq, -⟩
  · exact heq.symm
  · cases heq
  · cases heq

/-- Above a class or an array there is nothing else. -/
theorem exists_object_of_below (hh : h.Ordered) {a : RefType} (ht : Below h (.object a) t) :
    ∃ b, t = .object b := by
  rcases ht.cases hh with heq | ⟨heq, -⟩ | ⟨-, b, -, hb, -⟩
  · exact ⟨a, heq.symm⟩
  · cases heq
  · exact ⟨b, hb⟩

/-- Both types are below their merge. -/
theorem below_merge? (hh : h.Ordered) (hm : merge? h none s t = some r) : Below h s r ∧ Below h t r := by
  have hmerge := hm
  unfold merge? at hmerge
  split_ifs at hmerge with heq
  · cases hmerge
    rw [heq]
    exact ⟨.refl h _, .refl h _⟩
  · split at hmerge
    · cases hmerge
      exact ⟨below_null h _, .refl h _⟩
    · cases hmerge
      exact ⟨.refl h _, below_null h _⟩
    · cases hmerge
      rename_i a b
      obtain ⟨ha, hb⟩ := h.under_join a b
      exact ⟨(below_object hh).mpr ha, (below_object hh).mpr hb⟩
    · cases hmerge

/-- Two types that are below a third have a merge, which is below it as well. -/
theorem merge?_least (hh : h.Ordered) (hrt : Below h r t) (hst : Below h s t) :
    ∃ m, merge? h none r s = some m ∧ Below h m t := by
  by_cases heq : r = s
  · exact ⟨r, if_pos heq, hrt⟩
  rcases hrt.cases hh with rfl | ⟨rfl, b, rfl⟩ | ⟨a, b, rfl, rfl, hab⟩
  · rcases hst.cases hh with rfl | ⟨rfl, b, rfl⟩ | ⟨a, b, rfl, rfl, hab⟩
    · exact absurd rfl heq
    · exact ⟨_, rfl, .refl h _⟩
    · refine ⟨.object (h.join b a), if_neg heq, ?_⟩
      exact (below_object hh).mpr (h.join_least hh (.refl b) hab)
  · rcases hst.cases hh with rfl | ⟨rfl, -⟩ | ⟨a, c, rfl, hc, hac⟩
    · exact ⟨_, rfl, .refl h _⟩
    · exact absurd rfl heq
    · exact ⟨_, rfl, hst⟩
  · rcases hst.cases hh with rfl | ⟨rfl, -⟩ | ⟨c, d, rfl, hd, hcd⟩
    · refine ⟨.object (h.join a b), if_neg heq, ?_⟩
      exact (below_object hh).mpr (h.join_least hh hab (.refl b))
    · exact ⟨_, rfl, hrt⟩
    · cases hd
      refine ⟨.object (h.join a c), if_neg heq, ?_⟩
      exact (below_object hh).mpr (h.join_least hh hab hcd)

/-- Two types that are below a third have a merge whatever is suggested, and it is below the third as well if a
class that is suggested in place of a join is. -/
theorem merge?_below (hh : h.Ordered) (hint : Option RefType) (hrt : Below h r t) (hst : Below h s t) :
    ∃ m, merge? h hint r s = some m ∧
      ((∀ a b, s = .object a → hint = some b → m = .object b → Below h (.object b) t) → Below h m t) := by
  obtain ⟨m, hm, hle⟩ := merge?_least hh hrt hst
  cases hint with
  | none => exact ⟨m, hm, fun _ => hle⟩
  | some b =>
    unfold merge? at hm ⊢
    split_ifs at hm ⊢ with heq
    · exact ⟨m, hm, fun _ => hle⟩
    · split at hm
      · exact ⟨m, hm, fun _ => hle⟩
      · exact ⟨m, hm, fun _ => hle⟩
      · exact ⟨.object b, rfl, fun hhint => hhint _ b rfl rfl rfl⟩
      · cases hm

theorem Below.isWide (hh : h.Ordered) (hst : Below h s t) : s.isWide = t.isWide := by
  rcases hst.cases hh with rfl | ⟨rfl, b, rfl⟩ | ⟨a, b, rfl, rfl, -⟩
  · rfl
  · rfl
  · rfl

/-! ## Types of locals -/

/-- The same in a local variable, where the second type may be unusable whatever the first. -/
def BelowTop (h : Hierarchy) (s t : AnalysisType) : Prop :=
  t = .top ∨ Below h s t

theorem BelowTop.refl (h : Hierarchy) (t : AnalysisType) : BelowTop h t t := .inr (.refl h t)

theorem eq_top_of_belowTop (hh : h.Ordered) (ht : BelowTop h .top t) : t = .top :=
  ht.elim id (eq_top_of_below hh)

theorem BelowTop.trans (hh : h.Ordered) (hrs : BelowTop h r s) (hst : BelowTop h s t) : BelowTop h r t := by
  rcases hst with htop | hst
  · exact .inl htop
  · rcases hrs with rfl | hrs
    · exact .inl (eq_top_of_below hh hst)
    · exact .inr (hrs.trans hh hst)

theorem BelowTop.antisymm (hh : h.Ordered) (hst : BelowTop h s t) (hts : BelowTop h t s) : s = t := by
  rcases hst with rfl | hst
  · rcases hts with rfl | hts
    · rfl
    · exact eq_top_of_below hh hts
  · rcases hts with rfl | hts
    · exact (eq_top_of_below hh hst).symm
    · exact hst.antisymm hh hts

theorem belowTop_merge? (hh : h.Ordered) (s t : AnalysisType) :
    BelowTop h s ((merge? h none s t).getD .top) ∧ BelowTop h t ((merge? h none s t).getD .top) := by
  cases hm : merge? h none s t with
  | none => exact ⟨.inl rfl, .inl rfl⟩
  | some m =>
    obtain ⟨hs, ht⟩ := below_merge? hh hm
    exact ⟨.inr hs, .inr ht⟩

theorem merge?_getD_least (hh : h.Ordered) (hrt : BelowTop h r t) (hst : BelowTop h s t) :
    BelowTop h ((merge? h none r s).getD .top) t := by
  rcases hrt with htop | hrt
  · exact .inl htop
  rcases hst with htop | hst
  · exact .inl htop
  obtain ⟨m, hm, hle⟩ := merge?_least hh hrt hst
  rw [hm]
  exact .inr hle

end VerificationType

open VerificationType (Below BelowTop)

/-! ## Effects are monotone -/

/-- Instructions of strict code respect the order of types. -/
theorem belowRelation {h : Hierarchy} (hh : h.Ordered) (owner : BinaryName) (index : Nat)
    (instruction : Instruction) : TransferRelation owner true index index instruction (BelowTop h)
    (Below h) where
  toLocals := .inr
  wide := fun hst => hst.isWide hh
  cut := fun {s t} hst => by
    rcases hst with rfl | hst
    · exact .inl rfl
    · unfold Frame.cut
      rw [hst.isWide hh]
      split_ifs
      · exact .inl rfl
      · exact .inr hst
  top := .inl rfl
  load := fun hst hne => by
    rcases hst with htop | hst
    · exact absurd htop (hne rfl)
    · refine ⟨fun _ hs => hne rfl ?_, hst⟩
      rw [hs] at hst
      exact VerificationType.eq_top_of_below hh hst
  -- the element of nothing is nothing, and elements of arrays are below as the arrays are
  element := fun {s t e} hst he => by
    rcases hst.cases hh with rfl | ⟨rfl, b, rfl⟩ | ⟨a, b, rfl, rfl, hab⟩
    · exact ⟨e, he, .refl h e⟩
    · have hobject : ∃ type, e = .object type := by
        unfold elementType at he
        dsimp only at he
        split at he
        · cases he
          exact ⟨_, rfl⟩
        · cases he
      obtain ⟨type, rfl⟩ := hobject
      exact ⟨.null, rfl, VerificationType.below_null h type⟩
    · unfold elementType at he
      dsimp only at he
      split at he
      · rename_i element helement
        cases he
        obtain ⟨d, hd, hunder⟩ := hab.element? helement
        refine ⟨.object d, ?_, (VerificationType.below_object hh).mpr hunder⟩
        unfold elementType
        dsimp only
        rw [hd]
      · cases he
  constructed := fun {mode method s t type} _ hst htype => by
    -- only types that are not initialized are replaced, and these are below themselves alone
    have hsite : ∀ b, t ≠ .object b := by
      rintro b rfl
      cases htype
    have heq : s = t := by
      rcases hst.cases hh with heq | ⟨-, b, hb⟩ | ⟨-, b, -, hb, -⟩
      · exact heq
      · exact absurd hb (hsite b)
      · exact absurd hb (hsite b)
    have hnull : t ≠ .null := by
      rintro rfl
      cases htype
    subst heq
    have hreplace : ∀ {u v}, Below h u v → Below h (constructedFrom s type u) (constructedFrom s type v) := by
      intro u v huv
      rcases huv.cases hh with rfl | ⟨rfl, b, rfl⟩ | ⟨a, b, rfl, rfl, -⟩
      · exact .refl h _
      · unfold constructedFrom
        rw [if_neg hnull.symm, if_neg (hsite b).symm]
        exact huv
      · unfold constructedFrom
        rw [if_neg (hsite a).symm, if_neg (hsite b).symm]
        exact huv
    refine ⟨htype, hreplace, fun {u v} huv => ?_⟩
    rcases huv with rfl | huv
    · exact .inl (Frame.constructedFrom_top htype)
    · exact .inr (hreplace huv)
  introduced := fun t _ => .refl h t
  created := fun _ => .refl h _

/-! ## Frames -/

namespace Frame

variable {h : Hierarchy} {f g k : AnalysisFrame}

/-- The types of a frame are below those of another, slot by slot and on stacks of the same height. -/
def Below (h : Hierarchy) (f g : AnalysisFrame) : Prop :=
  f.Related (BelowTop h) (VerificationType.Below h) g

theorem Below.refl (h : Hierarchy) (f : AnalysisFrame) : f.Below h f :=
  ⟨fun _ => .refl h _, List.forall₂_same.mpr fun t _ => .refl h t⟩

theorem Below.trans (hh : h.Ordered) (hfg : f.Below h g) (hgk : g.Below h k) : f.Below h k where
  locals := fun slot => (hfg.locals slot).trans hh (hgk.locals slot)
  stack := by
    have hcomp : ∀ {xs ys zs : List AnalysisType}, List.Forall₂ (VerificationType.Below h) xs ys →
        List.Forall₂ (VerificationType.Below h) ys zs → List.Forall₂ (VerificationType.Below h) xs zs := by
      intro xs ys zs hxy
      induction hxy generalizing zs with
      | nil => exact fun hyz => hyz
      | cons hst _ ih =>
        intro hyz
        cases hyz with
        | cons htu hrest => exact .cons (hst.trans hh htu) (ih hrest)
    exact hcomp hfg.stack hgk.stack

/-! ## Merges are least upper bounds -/

/-- What both stacks are below, their merge exists and is below. -/
theorem mergeStack_least (hh : h.Ordered) {xs ys zs : List AnalysisType}
    (hxs : List.Forall₂ (VerificationType.Below h) xs zs)
    (hys : List.Forall₂ (VerificationType.Below h) ys zs) : ∃ merged, mergeStack h true
    [] xs ys = .ok merged ∧ List.Forall₂ (VerificationType.Below h) merged zs := by
  induction hxs generalizing ys with
  | nil =>
    cases hys with
    | nil => exact ⟨[], rfl, .nil⟩
  | cons hx _ ih =>
    cases hys with
    | cons hy hys =>
      obtain ⟨m, hm, hle⟩ := VerificationType.merge?_least hh hx hy
      obtain ⟨merged, hmerged, hrest⟩ := ih hys
      refine ⟨m :: merged, ?_, .cons hle hrest⟩
      unfold mergeStack
      rw [show ([] : List (Option RefType)).head?.join = none from rfl, hm]
      exact Outcome.except_bind.mpr ⟨m, rfl, Outcome.except_bind.mpr ⟨merged, hmerged, rfl⟩⟩

/-- Both stacks are below their merge. -/
theorem below_mergeStack (hh : h.Ordered) : ∀ {xs ys merged : List AnalysisType}, xs.length = ys.length →
    mergeStack h true [] xs ys = .ok merged →
      List.Forall₂ (VerificationType.Below h) xs merged ∧ List.Forall₂ (VerificationType.Below h) ys merged
  | [], [], _, _, hm => by
    unfold mergeStack at hm
    cases hm
    exact ⟨.nil, .nil⟩
  | x :: xs, y :: ys, merged, hlen, hm => by
    obtain ⟨type, rest, rfl, hrest, hcases⟩ := mergeStack_cons hm
    obtain ⟨hxs, hys⟩ := below_mergeStack hh (Nat.succ.inj hlen) hrest
    rcases hcases with hmerge | ⟨hlenient, -⟩
    · obtain ⟨hx, hy⟩ := VerificationType.below_merge? hh hmerge
      exact ⟨.cons hx hxs, .cons hy hys⟩
    · cases hlenient

/-- Normal form only gives up locals. -/
theorem below_normalize (h : Hierarchy) (f : AnalysisFrame) : f.Below h f.normalize := by
  refine ⟨fun slot => ?_, (Below.refl h f).stack⟩
  change BelowTop h _ (slotAt (trimLocals (dropHalves f.locals)) slot)
  rw [slotAt_trimLocals]
  rcases slotAt_dropHalves f.locals slot with heq | heq
  · rw [heq]
    exact .refl h _
  · exact .inl heq

/-- Normal form leaves whole locals where they are in the order. -/
theorem normalize_below (hf : Whole f.locals) : f.normalize.Below h f ∧ f.Below h f.normalize := by
  refine ⟨⟨fun slot => ?_, (Below.refl h f).stack⟩, below_normalize h f⟩
  rw [slotAt_normalize hf]
  exact .refl h _

variable {υ : Type}

/-- Two frames that are below a third have a merge, which is below it as well. -/
theorem merge_least (hh : h.Ordered) (hf : Whole f.locals) (hg : Whole g.locals) (hfk : f.Below h k)
    (hgk : g.Below h k) : ∃ m, f.merge h true (none : Option (Frame RefType υ)) g = .ok m ∧ m.Below h k := by
  obtain ⟨stack, hstack, hle⟩ := mergeStack_least hh (List.rel_reverse hfk.stack) (List.rel_reverse hgk.stack)
  have hheight : f.stack.length = g.stack.length := by rw [hfk.stack.length_eq, hgk.stack.length_eq]
  refine ⟨_, merge_eq_ok.mpr ⟨hheight, stack, hstack, rfl⟩, ?_⟩
  refine Below.trans hh (normalize_below (whole_mergeLocals _ hf hg)).1 ⟨fun slot => ?_, ?_⟩
  · rw [slotAt_mergeLocals]
    exact VerificationType.merge?_getD_least hh (hfk.locals slot) (hgk.locals slot)
  · have hreverse := List.rel_reverse hle
    rwa [List.reverse_reverse] at hreverse

/-- Both frames are below their merge. -/
theorem below_merge (hh : h.Ordered) (hf : Whole f.locals) (hg : Whole g.locals) {m : AnalysisFrame}
    (hm : f.merge h true (none : Option (Frame RefType υ)) g = .ok m) : f.Below h m ∧ g.Below h m := by
  obtain ⟨hheight, stack, hstack, rfl⟩ := merge_eq_ok.mp hm
  obtain ⟨hfs, hgs⟩ := below_mergeStack hh (by rw [List.length_reverse, List.length_reverse, hheight]) hstack
  have hnormal := (@normalize_below h
    ⟨mergeLocals h (localHints (none : Option (Frame RefType υ))) f.locals g.locals,
    stack.reverse⟩ (whole_mergeLocals _ hf hg)).2
  have hslots : ∀ slot, BelowTop h (slotAt f.locals slot) (slotAt (mergeLocals h [] f.locals g.locals) slot) ∧
      BelowTop h (slotAt g.locals slot) (slotAt (mergeLocals h [] f.locals g.locals) slot) := fun slot => by
    rw [slotAt_mergeLocals]
    exact VerificationType.belowTop_merge? hh _ _
  have hunreverse : ∀ {xs : List AnalysisType}, List.Forall₂ (VerificationType.Below h) xs.reverse stack →
      List.Forall₂ (VerificationType.Below h) xs stack.reverse := fun hxs => by
    have hreverse := List.rel_reverse hxs
    rwa [List.reverse_reverse] at hreverse
  exact ⟨Below.trans hh ⟨fun slot => (hslots slot).1, hunreverse hfs⟩ hnormal,
    Below.trans hh ⟨fun slot => (hslots slot).2, hunreverse hgs⟩ hnormal⟩

/-- A strict merge of frames that are below a third stays below it, whatever is suggested, if what is suggested
and ends up in a place of the merge does. -/
theorem merge_below (hh : h.Ordered) (hf : Whole f.locals) (hg : Whole g.locals) (hfk : f.Below h k)
    (hgk : g.Below h k) {hint : Option (Frame RefType υ)} {m : AnalysisFrame}
    (hm : f.merge h true hint g = .ok m) (hlocals : ∀ {slot a b}, slotAt g.locals slot = .object a →
    hintAt (localHints hint) slot = some b →
      slotAt m.locals slot = .object b → BelowTop h (.object b) (slotAt k.locals slot))
    (hstack : ∀ {place a b t}, g.stack.reverse[place]? = some (.object a) →
      hintAt (stackHints hint) place = some b → m.stack.reverse[place]? = some (.object b) →
      k.stack.reverse[place]? = some t →
        VerificationType.Below h (.object b) t) : m.Below h k := by
  have hmerges := merges_of_ok hm
  obtain ⟨hfk, hheight, hfs⟩ := related_iff_places.mp hfk
  obtain ⟨hgk, -, hgs⟩ := related_iff_places.mp hgk
  refine related_iff_places.mpr ⟨fun slot => ?_, hmerges.height.trans hheight, fun {place s t} hs ht => ?_⟩
  · rcases hfk slot with htop | hleft
    · exact .inl htop
    rcases hgk slot with htop | hright
    · exact .inl htop
    obtain ⟨type, htype, hle⟩ := VerificationType.merge?_below hh (hintAt (localHints hint) slot) hleft hright
    have hslot := slotAt_merge hm hf hg slot
    rw [htype] at hslot
    change slotAt m.locals slot = type at hslot
    -- the slot of the third may be unusable
    by_cases htop : slotAt k.locals slot = .top
    · exact .inl htop
    · refine .inr ?_
      rw [hslot]
      refine hle fun a b hg' hhint hb => ?_
      rw [hb] at hslot
      exact (hlocals hg' hhint hslot).resolve_left htop
  · obtain ⟨l, r, hl, hr, htype | ⟨hlenient, -⟩⟩ := hmerges.stack hs
    · obtain ⟨type, htype', hle⟩ := VerificationType.merge?_below hh (hintAt (stackHints hint) place)
        (hfs hl ht) (hgs hr ht)
      rw [htype] at htype'
      cases htype'
      refine hle fun a b hr' hhint hb => ?_
      rw [hr'] at hr
      rw [hb] at hs
      exact hstack hr hhint hs ht
    · cases hlenient

/-! ## Frames in normal form are equal if each is below the other -/

theorem trimLocals_of_top : ∀ {locals : List AnalysisType}, (∀ slot, slotAt locals slot = .top) →
    trimLocals locals = []
  | [], _ => rfl
  | type :: rest, htop => by
    have hrest := trimLocals_of_top fun slot => htop (slot + 1)
    have htype : type = .top := htop 0
    unfold trimLocals
    rw [show trimLocals rest = [] from hrest, htype]
    rfl

/-- Whole locals that agree slot by slot have the same normal form. -/
theorem trimLocals_congr : ∀ {xs ys : List AnalysisType}, Whole xs → Whole ys →
    (∀ slot, slotAt xs slot = slotAt ys slot) → trimLocals xs = trimLocals ys
  | [], _, _, _, hslots => (trimLocals_of_top fun slot => (hslots slot).symm).symm
  | _ :: _, [], _, _, hslots => trimLocals_of_top hslots
  | x :: xs, y :: ys, hx, hy, hslots => by
    have hhead : x = y := hslots 0
    have htail := trimLocals_congr hx.tail hy.tail fun slot => hslots (slot + 1)
    subst hhead
    unfold trimLocals
    rw [htail]
    split
    · split_ifs with _ hwide
      · rfl
      · obtain ⟨after, rfl⟩ := hx.second hwide
        obtain ⟨after', rfl⟩ := hy.second hwide
        rfl
      · rfl
    · rfl

/-- A frame in normal form. -/
def IsNormal (f : AnalysisFrame) : Prop :=
  Whole f.locals ∧ trimLocals f.locals = f.locals

theorem Below.antisymm (hh : h.Ordered) (hf : f.IsNormal) (hg : g.IsNormal) (hfg : f.Below h g)
    (hgf : g.Below h f) : f = g := by
  have hlocals : f.locals = g.locals := by
    rw [← hf.2, ← hg.2]
    exact trimLocals_congr hf.1 hg.1 fun slot => (hfg.locals slot).antisymm hh (hgf.locals slot)
  have hstack : ∀ {xs ys : List AnalysisType}, List.Forall₂ (VerificationType.Below h) xs ys →
      List.Forall₂ (VerificationType.Below h) ys xs → xs = ys := by
    intro xs ys hxy
    induction hxy with
    | nil => exact fun _ => rfl
    | cons hst _ ih =>
      intro hyx
      cases hyx with
      | cons hts hrest => rw [hst.antisymm hh hts, ih hrest]
  obtain ⟨locals, stack⟩ := f
  obtain ⟨locals', stack'⟩ := g
  cases hlocals
  exact congrArg (Frame.mk locals) (hstack hfg.stack hgf.stack)

end Frame

end ClassWeave
