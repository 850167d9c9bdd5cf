import ClassWeave.Proofs.Event.Labelling
import ClassWeave.Proofs.Method.StackMap

/-!
# Frames with labels

The frames of a stack map table are read with labels in place of the offsets of creation sites. But for the
labels they are the frames of the table (`StackMapEntry.expand`), and the offset of every frame has a label.
-/

namespace ClassWeave

open Outcome (except_bind except_mapM reader_bind reader_pure)

/-! ## Labels for offsets -/

/-- The type with labels for offsets. -/
def VerificationType.Labelled (labels : OffsetLabels) (stored : VerificationType RefType Nat)
    (found : VerificationType RefType Label) : Prop :=
  stored.convert some labels.get? = some found

/-- The frame with labels for offsets. -/
structure FrameRecord.Labelled (labels : OffsetLabels) (stored : FrameRecord RefType Nat)
    (found : FrameRecord RefType Label) : Prop where
  locals : List.Forall₂ (VerificationType.Labelled labels) stored.locals found.locals
  stack : List.Forall₂ (VerificationType.Labelled labels) stored.stack found.stack

/-- The change with labels for offsets. -/
inductive FrameChange.Labelled (labels : OffsetLabels) : FrameChange RefType Nat →
    FrameChange RefType Label → Prop
  | same : Labelled labels .same .same
  | sameStack {stored : VerificationType RefType Nat} {found : VerificationType RefType Label} :
    stored.Labelled labels found → Labelled labels (.sameStack stored) (.sameStack found)
  | chop (count : UInt8) : Labelled labels (.chop count) (.chop count)
  | append {stored : List (VerificationType RefType Nat)} {found : List (VerificationType RefType Label)} :
    List.Forall₂ (VerificationType.Labelled labels) stored found → Labelled labels (.append stored)
    (.append found)
  | full {stored : FrameRecord RefType Nat} {found : FrameRecord RefType Label} :
    stored.Labelled labels found → Labelled labels (.full stored) (.full found)

variable {labels labels' : OffsetLabels}

theorem VerificationType.Labelled.grows {stored : VerificationType RefType Nat}
    {found : VerificationType RefType Label} (h : stored.Labelled labels found)
    (hgrows : labels.Grows labels') : stored.Labelled labels' found := by
  unfold Labelled at h ⊢
  cases stored with
  | uninitialized site =>
    simp only [convert, Option.bind_eq_bind, Option.bind_eq_some_iff] at h ⊢
    obtain ⟨label, hlabel, hfound⟩ := h
    exact ⟨label, hgrows.stays hlabel, hfound⟩
  | _ => exact h

theorem FrameRecord.Labelled.grows {stored : FrameRecord RefType Nat} {found : FrameRecord RefType Label}
    (h : stored.Labelled labels found) (hgrows : labels.Grows labels') : stored.Labelled labels' found :=
  ⟨h.locals.imp fun _ _ ht => ht.grows hgrows, h.stack.imp fun _ _ ht => ht.grows hgrows⟩

/-- What comes out of a change with labels is what comes out of the change, with labels. -/
theorem FrameChange.Labelled.frameAfter {change : FrameChange RefType Nat} {change' : FrameChange RefType Label}
    (h : change.Labelled labels change') {locals : List (VerificationType RefType Nat)}
    {locals' : List (VerificationType RefType Label)}
    (hlocals : List.Forall₂ (VerificationType.Labelled labels) locals locals')
    {record' : FrameRecord RefType Label} (hafter : change'.frameAfter? locals' = some record') :
    ∃ record, change.frameAfter? locals = some record ∧ record.Labelled labels record' := by
  cases h with
  | same =>
    cases hafter
    exact ⟨_, rfl, hlocals, .nil⟩
  | sameStack htype =>
    cases hafter
    exact ⟨_, rfl, hlocals, .cons htype .nil⟩
  | chop count =>
    dsimp only [frameAfter?] at hafter ⊢
    -- as many locals are there on both sides, so as many can be taken away
    rw [hlocals.length_eq]
    split_ifs at hafter ⊢
    cases hafter
    exact ⟨_, rfl, List.forall₂_take _ hlocals, .nil⟩
  | append htypes =>
    cases hafter
    exact ⟨_, rfl, List.rel_append hlocals htypes, .nil⟩
  | full hrecord =>
    cases hafter
    exact ⟨_, rfl, hrecord⟩

/-! ## Reading frames -/

namespace Labelling

open StackMapEntry (siteOffset)

variable {pool : Pool}

theorem type_ok (hs : labels.Sound) {type : StoredType} {found : VerificationType RefType Label}
    (h : resolveType pool type labels = .ok (found, labels')) :
    Result labels labels' (∃ stored, type.convert pool.refType siteOffset = .ok stored ∧
    stored.Labelled labels' found) := by
  cases type with
  | object index =>
    obtain ⟨name, hname, h⟩ := lift_bind.mp h
    obtain ⟨rfl, rfl⟩ := reader_pure.mp h
    exact ⟨hs, .refl _, .object name, except_bind.mpr ⟨name, hname, rfl⟩, rfl⟩
  | uninitialized site =>
    obtain ⟨label, labels1, hlabel, h⟩ := reader_bind.mp h
    obtain ⟨rfl, rfl⟩ := reader_pure.mp h
    refine (labelAt_ok hs hlabel).imp fun hmarks => ⟨.uninitialized site.toNat, rfl, ?_⟩
    have hget : labels'.get? site.toNat = some label := hmarks
    simp [VerificationType.Labelled, VerificationType.convert, hget]
  | top | integer | float | double | long | null | uninitializedThis =>
    obtain ⟨rfl, rfl⟩ := reader_pure.mp h
    exact ⟨hs, .refl _, _, rfl, rfl⟩

/-- Stored types, each read as it is stored but for its label. -/
def TypesRead (pool : Pool) (labels : OffsetLabels) (types : List StoredType)
    (found : List (VerificationType RefType Label)) : Prop :=
  ∃ stored, types.mapM (·.convert pool.refType siteOffset) = .ok stored ∧
    List.Forall₂ (VerificationType.Labelled labels) stored found

theorem TypesRead.grows {types : List StoredType} {found : List (VerificationType RefType Label)}
    (h : TypesRead pool labels types found) (hgrows : labels.Grows labels') :
    TypesRead pool labels' types found := by
  obtain ⟨stored, hstored, hfound⟩ := h
  exact ⟨stored, hstored, hfound.imp fun _ _ ht => ht.grows hgrows⟩

theorem types_ok (hs : labels.Sound) {types : List StoredType} {found : List (VerificationType RefType Label)}
    (h : types.mapM (resolveType pool) labels = .ok (found, labels')) :
    Result labels labels' (TypesRead pool labels' types found) := by
  have hall := @mapM_ok _ _ _ (fun (type : StoredType) found labels =>
    ∃ stored, type.convert pool.refType siteOffset = .ok stored ∧ stored.Labelled labels found)
    (fun _ _ _ _ hgrows ⟨stored, hstored, hfound⟩ => ⟨stored, hstored, hfound.grows hgrows⟩) _ _ _ _ hs
    (fun _ _ _ _ _ hs h => type_ok hs h) h
  refine hall.imp fun hread => ?_
  clear hall h
  induction hread with
  | nil => exact ⟨[], rfl, .nil⟩
  | cons hfirst _ ih =>
    obtain ⟨first, hconvert, hfirst⟩ := hfirst
    obtain ⟨stored, hstored, hrest⟩ := ih
    exact ⟨first :: stored, except_mapM.mpr (.cons hconvert (except_mapM.mp hstored)), .cons hfirst hrest⟩

theorem record_ok (hs : labels.Sound) {record : StoredFrame} {found : FrameRecord RefType Label}
    (h : record.convert (fun index => (liftM (pool.refType index) : Labelling RefType))
    (fun site => labelAt site.toNat) labels =
      .ok (found, labels')) :
    Result labels labels' (∃ stored, record.convert pool.refType siteOffset = .ok stored ∧
        stored.Labelled labels' found) := by
  obtain ⟨locals, labels1, hlocals, h⟩ := reader_bind.mp h
  obtain ⟨stack, labels2, hstack, h⟩ := reader_bind.mp h
  obtain ⟨rfl, rfl⟩ := reader_pure.mp h
  have r1 := types_ok hs hlocals
  have r2 := types_ok r1.sound hstack
  obtain ⟨locals', hlocals', hlabelled⟩ := r1.post.grows r2.grows
  obtain ⟨stack', hstack', hlabelled'⟩ := r2.post
  refine ⟨r2.sound, r1.grows.trans r2.grows, ⟨locals', stack'⟩, ?_, hlabelled, hlabelled'⟩
  exact except_bind.mpr ⟨locals', hlocals', except_bind.mpr ⟨stack', hstack', rfl⟩⟩

theorem change_ok (hs : labels.Sound) {change : FrameChange UInt16 UInt16} {found : FrameChange RefType Label}
    (h : resolveChange pool change labels = .ok (found, labels')) :
    Result labels labels' (∃ stored, change.convert pool.refType siteOffset = .ok stored ∧
    stored.Labelled labels' found) := by
  cases change with
  | same =>
    obtain ⟨rfl, rfl⟩ := reader_pure.mp h
    exact ⟨hs, .refl _, .same, rfl, .same⟩
  | sameStack type =>
    obtain ⟨found, labels1, hfound, h⟩ := reader_bind.mp h
    obtain ⟨rfl, rfl⟩ := reader_pure.mp h
    refine (type_ok hs hfound).imp ?_
    rintro ⟨stored, hstored, hlabelled⟩
    exact ⟨.sameStack stored, except_bind.mpr ⟨stored, hstored, rfl⟩, .sameStack hlabelled⟩
  | chop count =>
    obtain ⟨rfl, rfl⟩ := reader_pure.mp h
    exact ⟨hs, .refl _, .chop count, rfl, .chop count⟩
  | append types =>
    obtain ⟨found, labels1, hfound, h⟩ := reader_bind.mp h
    obtain ⟨rfl, rfl⟩ := reader_pure.mp h
    refine (types_ok hs hfound).imp ?_
    rintro ⟨stored, hstored, hlabelled⟩
    exact ⟨.append stored, except_bind.mpr ⟨stored, hstored, rfl⟩, .append hlabelled⟩
  | full record =>
    obtain ⟨found, labels1, hfound, h⟩ := reader_bind.mp h
    obtain ⟨rfl, rfl⟩ := reader_pure.mp h
    refine (record_ok hs hfound).imp ?_
    rintro ⟨stored, hstored, hlabelled⟩
    exact ⟨.full stored, except_bind.mpr ⟨stored, hstored, rfl⟩, .full hlabelled⟩

/-- A frame of a table with labels, one of them for its own offset. -/
structure FrameRead (labels : OffsetLabels) (stored : Nat × FrameRecord RefType Nat)
    (found : Nat × FrameRecord RefType Label) : Prop where
  offset : found.1 = stored.1
  record : stored.2.Labelled labels found.2
  label : ∃ label, labels.Marks stored.1 label

theorem FrameRead.grows {stored : Nat × FrameRecord RefType Nat} {found : Nat × FrameRecord RefType Label}
    (h : FrameRead labels stored found) (hgrows : labels.Grows labels') : FrameRead labels' stored found := by
  obtain ⟨label, hlabel⟩ := h.label
  exact ⟨h.offset, h.record.grows hgrows, label, hgrows.stays hlabel⟩

/-- The frames that are read are those of the table. -/
theorem frames_ok {entries : List StackMapEntry} {locals : List (VerificationType RefType Nat)}
    {locals' : List (VerificationType RefType Label)} {previous : Option Nat}
    {found : List (Nat × FrameRecord RefType Label)} (hs : labels.Sound)
    (hlocals : List.Forall₂ (VerificationType.Labelled labels) locals locals')
    (h : frames pool locals' previous entries labels = .ok (found, labels')) :
    Result labels labels' (∃ stored, StackMapEntry.expand pool locals previous entries = .ok stored ∧
      List.Forall₂ (FrameRead labels') stored found) := by
  induction entries generalizing locals locals' previous labels found with
  | nil =>
    obtain ⟨rfl, rfl⟩ := reader_pure.mp h
    exact ⟨hs, .refl _, [], rfl, .nil⟩
  | cons entry rest ih =>
    unfold frames at h
    obtain ⟨inside, labels1, hinside, h⟩ := reader_bind.mp h
    cases hinside
    split_ifs at h with hout
    · obtain ⟨_, _, hthrow, -⟩ := reader_bind.mp h
      cases hthrow
    · obtain ⟨change, labels2, hchange, h⟩ := reader_bind.mp h
      have r1 := change_ok hs hchange
      obtain ⟨change', hchange', hlabelled⟩ := r1.post
      cases hafter : change.frameAfter? locals' with
      | none =>
        rw [hafter] at h
        cases h
      | some record =>
        rw [hafter] at h
        obtain ⟨label, labels3, hlabel, h⟩ := reader_bind.mp h
        obtain ⟨others, labels4, hothers, h⟩ := reader_bind.mp h
        obtain ⟨rfl, rfl⟩ := reader_pure.mp h
        -- the next frame changes the locals of this one, with the labels given so far
        have hlocals2 := hlocals.imp fun _ _ ht => ht.grows r1.grows
        obtain ⟨record', hrecord', hread⟩ := hlabelled.frameAfter hlocals2 hafter
        have r2 := labelAt_ok r1.sound hlabel
        have r3 := ih r2.sound (hread.grows r2.grows).locals hothers
        obtain ⟨stored, hstored, hrest⟩ := r3.post
        refine r1.trans (r2.trans ⟨r3.sound, r3.grows, _,
          StackMapEntry.expand_cons rfl hchange' hrecord' hstored, ?_⟩)
        exact .cons ⟨rfl, hread.grows (r2.grows.trans r3.grows), label, r3.grows.stays r2.post⟩ hrest

end Labelling

end ClassWeave
