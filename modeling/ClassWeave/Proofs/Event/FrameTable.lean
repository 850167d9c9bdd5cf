import ClassWeave.Proofs.Event.Frames

/-!
# Tables of frames are read back

Frames at increasing offsets are written one after the other, each as its change from the one before
(`StackMapEntry.ofFrames`), and the changes of the table are applied one after the other to get them back
(`StackMapEntry.unfold`). No legal table of the same frames has a smaller entry at any place: but for the full
form, only one change leads from one frame to another, and no change is larger than the full form.
-/

namespace ClassWeave

variable {κ υ : Type}

/-! ## Nothing is converted -/

section Identity

variable {m : Type → Type} [Monad m] [LawfulMonad m]

theorem VerificationType.convert_pure (t : VerificationType κ υ) : t.convert (m := m) pure pure = pure t := by
  cases t <;> simp [convert]

theorem VerificationType.mapM_convert_pure (types : List (VerificationType κ υ)) :
    types.mapM (m := m) (·.convert pure pure) = pure types := by
  simp only [convert_pure]
  rw [List.mapM_pure, List.map_id']

theorem FrameRecord.convert_pure (record : FrameRecord κ υ) :
    record.convert (m := m) pure pure = pure record := by
  unfold convert
  rw [VerificationType.mapM_convert_pure, VerificationType.mapM_convert_pure, pure_bind, pure_bind]

theorem FrameChange.convert_pure (change : FrameChange κ υ) :
    change.convert (m := m) pure pure = pure change := by
  cases change with
  | same | chop => rfl
  | sameStack type => simp only [convert, VerificationType.convert_pure, pure_bind]
  | append types =>
    dsimp only [convert]
    rw [VerificationType.mapM_convert_pure, pure_bind]
  | full record => simp only [convert, FrameRecord.convert_pure, pure_bind]

end Identity

/-! ## Changes that lead to a frame -/

namespace FrameChange

/-- The change between two frames leads from the one to the other. -/
theorem frameAfter?_between_self [DecidableEq κ] [DecidableEq υ] (previous next : FrameRecord κ υ) :
    (between previous next).frameAfter? previous.locals = some next := by
  have hlocals : Converts (pure : κ → Except Empty κ)
      (pure : υ → Except Empty υ) previous.locals previous.locals :=
    List.forall₂_same.mpr fun t _ => t.convert_pure
  obtain ⟨change, hchange, hafter⟩ := frameAfter?_between hlocals next.convert_pure
  rw [convert_pure] at hchange
  cases hchange
  exact hafter

/-- Only one change other than the full form leads from one frame to another. -/
theorem eq_between_or_full [DecidableEq κ] [DecidableEq υ] {previous next : FrameRecord κ υ}
    {change : FrameChange κ υ} (hfits : change.Fits) (h : change.frameAfter? previous.locals = some next) :
    change = between previous next ∨ change = .full next := by
  cases change with
  | same =>
    cases h
    left
    simp [between]
  | sameStack type =>
    cases h
    left
    simp [between]
  | chop count =>
    obtain ⟨hpos, hle⟩ : 1 ≤ count.toNat ∧ count.toNat ≤ maxLocals := hfits
    dsimp only [frameAfter?] at h
    split_ifs at h with hroom
    cases h
    left
    -- the shorter list is a prefix by as many as are chopped
    have hlen : previous.locals.length - (previous.locals.take (previous.locals.length - count.toNat)).length =
        count.toNat := by
      rw [List.length_take]
      omega
    have hprefix := List.isPrefixOf_iff_prefix.mpr
      (List.take_prefix (previous.locals.length - count.toNat) previous.locals)
    dsimp only [between]
    rw [if_pos hprefix, hlen, if_neg (by omega), if_pos hle, Nat.toUInt8_eq, UInt8.ofNat_toNat]
  | append types =>
    obtain ⟨hpos, hle⟩ : 1 ≤ types.length ∧ types.length ≤ maxLocals := hfits
    cases h
    left
    -- what was appended makes the list longer, so it cannot be a prefix of the old one
    have hlonger : ¬ (previous.locals ++ types).isPrefixOf previous.locals = true := by
      intro hprefix
      have hlen := (List.isPrefixOf_iff_prefix.mp hprefix).length_le
      rw [List.length_append] at hlen
      omega
    have hprefix := List.isPrefixOf_iff_prefix.mpr (List.prefix_append previous.locals types)
    dsimp only [between]
    rw [if_neg hlonger, if_pos hprefix, if_pos (by rw [List.length_append]; omega), List.drop_left]
  | full record =>
    cases h
    exact .inr rfl

end FrameChange

namespace StackMapEntry

/-- No change that leads to a frame takes more bytes than the frame in full. -/
theorem length_encode_le_full {locals : List StoredType} {next : StoredFrame} {delta : UInt16}
    {change : FrameChange UInt16 UInt16} (h : change.frameAfter? locals = some next) :
    (encode ⟨delta, change⟩).length ≤ (encode ⟨delta, .full next⟩).length := by
  have hfull : (encode ⟨delta, .full next⟩).length =
      3 + (2 + (next.locals.flatMap StoredType.encode).length) +
      (2 + (next.stack.flatMap StoredType.encode).length) := by
    simp [encode, Bytes.ofTable]
    omega
  rw [hfull]
  cases change with
  -- an entry without values has three bytes at most
  | same =>
    have := length_encodeDelta_le 0 251 delta
    change (encodeDelta 0 251 delta).length ≤ _
    omega
  | sameStack type =>
    cases h
    have := length_encodeDelta_le 64 247 delta
    change (encodeDelta 64 247 delta ++ StoredType.encode type).length ≤ _
    simp only [List.length_append, List.flatMap_cons, List.flatMap_nil, List.append_nil]
    omega
  | chop count =>
    change 3 ≤ _
    omega
  | append types =>
    cases h
    simp only [encode, List.flatMap_append, List.length_append, List.length_cons, Bytes.length_ofUInt16]
    omega
  | full record =>
    cases h
    exact hfull.le

/-- The change between two frames takes no more bytes than any legal change from the one to the other. -/
theorem length_encode_between_le {previous next : StoredFrame} {delta : UInt16}
    {change : FrameChange UInt16 UInt16} (hfits : change.Fits)
    (h : change.frameAfter? previous.locals = some next) :
    (encode ⟨delta, .between previous next⟩).length ≤ (encode ⟨delta, change⟩).length := by
  rcases FrameChange.eq_between_or_full hfits h with rfl | rfl
  · exact Nat.le_refl _
  · exact length_encode_le_full (FrameChange.frameAfter?_between_self previous next)

/-! ## Tables -/

/-- The distance of an offset from the entry before. -/
def deltaTo (last : Option Nat) (offset : Nat) : UInt16 :=
  match last with
  | none => offset.toUInt16
  | some last => (offset - last - 1).toUInt16

/-- The entries for frames with their offsets, after the frame `previous` at the offset `last`. -/
def ofFrames (previous : StoredFrame) (last : Option Nat) : List (Nat × StoredFrame) → List StackMapEntry
  | [] => []
  | (offset, frame) :: rest =>
    ⟨deltaTo last offset, .between previous frame⟩ :: ofFrames frame (some offset) rest

/-- The frames of a table with their offsets, after a frame with the locals `locals` at the offset `last`. -/
def unfold (locals : List StoredType) (last : Option Nat) : List StackMapEntry → Option
    (List (Nat × StoredFrame))
  | [] => some []
  | entry :: rest => do
    let frame ← entry.change.frameAfter? locals
    let offset := Labelling.entryOffset last entry.delta
    let others ← unfold frame.locals (some offset) rest
    return (offset, frame) :: others

/-- Storing frames is interning them in order, and then taking their changes. -/
theorem storeFrames_eq_ofFrames (layout : Layout) (previous : StoredFrame) (last : Option Nat)
    (frames : List (AnalysisFrame × Nat)) :
    MethodBody.storeFrames layout previous last frames = do
      let stored ← frames.mapM fun entry => do return (layout.offset entry.2, ← entry.1.toStored layout)
      return ofFrames previous last stored := by
  induction frames generalizing previous last with
  | nil => simp [MethodBody.storeFrames, ofFrames]
  | cons entry rest ih =>
    unfold MethodBody.storeFrames
    cases last <;> simp [ih, ofFrames, deltaTo]

theorem unfold_cons {locals : List StoredType} {last : Option Nat} {entry : StackMapEntry}
    {rest : List StackMapEntry} {frames : List (Nat × StoredFrame)} :
    unfold locals last (entry :: rest) = some frames ↔
      ∃ frame others, entry.change.frameAfter? locals = some frame ∧
        unfold frame.locals (some (Labelling.entryOffset last entry.delta)) rest = some others ∧
        frames = (Labelling.entryOffset last entry.delta, frame) :: others := by
  simp only [unfold, Option.bind_eq_bind, Option.bind_eq_some_iff, Option.pure_def, Option.some.injEq]
  constructor
  · rintro ⟨frame, hframe, others, hothers, rfl⟩
    exact ⟨frame, others, hframe, hothers, rfl⟩
  · rintro ⟨frame, others, hframe, hothers, rfl⟩
    exact ⟨frame, hframe, others, hothers, rfl⟩

/-- Offset `offset` can be given by its distance from `last`. -/
def InReach (last : Option Nat) (offset : Nat) : Prop :=
  offset < 2 ^ 16 ∧ ∀ before, last = some before → before < offset

theorem entryOffset_deltaTo {last : Option Nat} {offset : Nat} (h : InReach last offset) :
    Labelling.entryOffset last (deltaTo last offset) = offset := by
  obtain ⟨hshort, hafter⟩ := h
  cases last with
  | none => exact Nat.mod_eq_of_lt hshort
  | some before =>
    have hlt : before < offset := hafter before rfl
    change before + (offset - before - 1).toUInt16.toNat + 1 = offset
    rw [UInt16.toNat_ofNat', Nat.mod_eq_of_lt (by omega)]
    omega

theorem unfold_ofFrames {previous : StoredFrame} {last : Option Nat} {frames : List (Nat × StoredFrame)}
    (hreach : ∀ x ∈ frames, InReach last x.1) (hincreasing : frames.Pairwise fun x y => x.1 < y.1) :
    unfold previous.locals last (ofFrames previous last frames) = some frames := by
  induction frames generalizing previous last with
  | nil => rfl
  | cons x rest ih =>
    obtain ⟨offset, frame⟩ := x
    obtain ⟨hfirst, hrest⟩ := List.pairwise_cons.mp hincreasing
    have hoffset : Labelling.entryOffset last (deltaTo last offset) = offset :=
      entryOffset_deltaTo (hreach _ List.mem_cons_self)
    refine unfold_cons.mpr ⟨frame, rest, FrameChange.frameAfter?_between_self previous frame, ?_, ?_⟩
    · rw [hoffset]
      refine ih (fun y hy => ⟨(hreach y (List.mem_cons_of_mem _ hy)).1, fun before hbefore => ?_⟩) hrest
      cases hbefore
      exact hfirst y hy
    · rw [hoffset]

theorem deltaTo_entryOffset (last : Option Nat) (delta : UInt16) :
    deltaTo last (Labelling.entryOffset last delta) = delta := by
  cases last with
  | none => exact UInt16.ofNat_toNat
  | some before =>
    change (before + delta.toNat + 1 - before - 1).toUInt16 = delta
    rw [show before + delta.toNat + 1 - before - 1 = delta.toNat by omega]
    exact UInt16.ofNat_toNat

/-- An entry for a frame is no larger than the entry in the same place of any legal table of the same frames. -/
theorem ofFrames_smallest {previous : StoredFrame} {last : Option Nat} {others : List StackMapEntry}
    {frames : List (Nat × StoredFrame)} (hfits : ∀ entry ∈ others, entry.change.Fits)
    (h : unfold previous.locals last others = some frames) :
    List.Forall₂ (fun entry other => entry.encode.length ≤ other.encode.length)
    (ofFrames previous last frames) others := by
  induction others generalizing previous last frames with
  | nil =>
    cases h
    exact .nil
  | cons other rest ih =>
    obtain ⟨frame, later, hframe, hlater, rfl⟩ := unfold_cons.mp h
    refine .cons ?_ (ih (fun entry hmem => hfits entry (List.mem_cons_of_mem _ hmem)) hlater)
    rw [deltaTo_entryOffset]
    exact length_encode_between_le (hfits other List.mem_cons_self) hframe

theorem fits_ofFrames {previous : StoredFrame} {last : Option Nat} {frames : List (Nat × StoredFrame)}
    (h : ∀ x ∈ frames, x.2.locals.length < 2 ^ 16 ∧ x.2.stack.length < 2 ^ 16) :
    ∀ entry ∈ ofFrames previous last frames, entry.change.Fits := by
  induction frames generalizing previous last with
  | nil => simp [ofFrames]
  | cons x rest ih =>
    obtain ⟨hlocals, hstack⟩ := h x List.mem_cons_self
    intro entry hentry
    rcases List.mem_cons.mp hentry with rfl | hentry
    · exact FrameChange.fits_between previous hlocals hstack
    · exact ih (fun y hy => h y (List.mem_cons_of_mem _ hy)) entry hentry

theorem length_ofFrames (previous : StoredFrame) (last : Option Nat) (frames : List (Nat × StoredFrame)) :
    (ofFrames previous last frames).length = frames.length := by
  induction frames generalizing previous last with
  | nil => rfl
  | cons x rest ih => exact congrArg Nat.succ (ih _ _)

end StackMapEntry

/-- A list that increases to at most `bound` has at most `bound + 1` members. -/
theorem length_le_of_increasing {α : Type} (f : α → Nat) {bound : Nat} {xs : List α}
    (h : xs.Pairwise fun x y => f x < f y) (hbound : ∀ x ∈ xs, f x ≤ bound) : xs.length ≤ bound + 1 := by
  have hnodup : (xs.map f).Nodup := List.pairwise_map.mpr (h.imp Nat.ne_of_lt)
  have hsub : xs.map f ⊆ List.range (bound + 1) := by
    intro n hn
    obtain ⟨x, hx, rfl⟩ := List.mem_map.mp hn
    exact List.mem_range.mpr (Nat.lt_succ_of_le (hbound x hx))
  have hlen := (hnodup.subperm hsub).length_le
  rwa [List.length_map, List.length_range] at hlen

/-! ## Reading a table -/

/-- The type with the class that the pool has at its index, or with the label that its offset has. -/
def VerificationType.Read (pool : Pool) (labels : OffsetLabels) (type : StoredType)
    (found : VerificationType RefType Label) : Prop :=
  type.convert (fun index => (pool.refType index).toOption) (fun site => labels.get? site.toNat) = some found

/-- The frame with classes for indices and labels for offsets. -/
structure FrameRecord.Read (pool : Pool) (labels : OffsetLabels) (stored : StoredFrame)
    (found : FrameRecord RefType Label) : Prop where
  locals : List.Forall₂ (VerificationType.Read pool labels) stored.locals found.locals
  stack : List.Forall₂ (VerificationType.Read pool labels) stored.stack found.stack

/-- The pool has a class at the index of the type, and the code has a boundary at its offset. -/
structure VerificationType.Readable (pool : Pool) (labels : OffsetLabels) (type : StoredType) : Prop where
  class_found : ∀ index, type = .object index → ∃ found, pool.refType index = .ok found
  site_inside : ∀ site, type = .uninitialized site → labels.boundaries.contains site.toNat = true

variable {pool : Pool} {labels labels' : OffsetLabels}

theorem VerificationType.Read.grows {type : StoredType} {found : VerificationType RefType Label}
    (h : type.Read pool labels found) (hgrows : labels.Grows labels') : type.Read pool labels' found := by
  unfold Read at h ⊢
  cases type with
  | uninitialized site =>
    simp only [convert, Option.bind_eq_bind, Option.bind_eq_some_iff] at h ⊢
    obtain ⟨label, hlabel, hfound⟩ := h
    exact ⟨label, hgrows.stays hlabel, hfound⟩
  | _ => exact h

theorem FrameRecord.Read.grows {stored : StoredFrame} {found : FrameRecord RefType Label}
    (h : stored.Read pool labels found) (hgrows : labels.Grows labels') : stored.Read pool labels' found :=
  ⟨h.locals.imp fun _ _ ht => ht.grows hgrows, h.stack.imp fun _ _ ht => ht.grows hgrows⟩

theorem VerificationType.Readable.grows {type : StoredType} (h : type.Readable pool labels)
    (hgrows : labels.Grows labels') : type.Readable pool labels' :=
  ⟨h.class_found, fun site heq => hgrows.boundaries ▸ h.site_inside site heq⟩

namespace Labelling

open Outcome (reader_bind)

variable {α β : Type}

/-- The action succeeds, and `post` holds of what it gives and of the labels that it leaves behind. -/
def Runs (action : Labelling α) (labels : OffsetLabels) (post : α → OffsetLabels → Prop) : Prop :=
  ∃ a labels', action labels = .ok (a, labels') ∧ Result labels labels' (post a labels')

theorem runs_pure {a : α} {post : α → OffsetLabels → Prop} (hs : labels.Sound) (h : post a labels) :
    Runs (pure a) labels post :=
  ⟨a, labels, rfl, hs, .refl _, h⟩

theorem runs_bind {action : Labelling α} {next : α → Labelling β} {mid : α → OffsetLabels → Prop}
    {post : β → OffsetLabels → Prop} (h : Runs action labels mid)
    (hnext : ∀ a labels', labels'.Sound → labels.Grows labels' → mid a labels' → Runs (next a) labels' post) :
    Runs (action >>= next) labels post := by
  obtain ⟨a, labels1, ha, r1⟩ := h
  obtain ⟨b, labels2, hb, r2⟩ := hnext a labels1 r1.sound r1.grows r1.post
  exact ⟨b, labels2, reader_bind.mpr ⟨a, labels1, ha, hb⟩, r1.trans r2⟩

theorem runs_isBoundary (hs : labels.Sound) {offset : Nat} :
    Runs (isBoundary offset) labels fun inside labels' => labels' = labels ∧
    inside = labels.boundaries.contains offset :=
  ⟨_, labels, rfl, hs, .refl _, rfl, rfl⟩

theorem runs_labelAt (hs : labels.Sound) {offset : Nat} (h : labels.boundaries.contains offset = true) :
    Runs (labelAt offset) labels fun label labels' => labels'.Marks offset label := by
  have hok : ∃ label labels', labelAt offset labels = .ok (label, labels') := by
    unfold labelAt
    dsimp only
    rw [if_pos h]
    split
    · exact ⟨_, _, rfl⟩
    · exact ⟨_, _, rfl⟩
  obtain ⟨label, labels', hok⟩ := hok
  exact ⟨label, labels', hok, labelAt_ok hs hok⟩

theorem runs_type (hs : labels.Sound) {type : StoredType} (h : type.Readable pool labels) :
    Runs (resolveType pool type) labels fun found labels' => type.Read pool labels' found := by
  cases type with
  | object index =>
    obtain ⟨found, hfound⟩ := h.class_found index rfl
    refine ⟨.object found, labels, ?_, hs, .refl _, ?_⟩
    · exact lift_bind.mpr ⟨found, hfound, rfl⟩
    · simp [VerificationType.Read, VerificationType.convert, hfound, Except.toOption]
  | uninitialized site =>
    refine runs_bind (runs_labelAt hs (h.site_inside site rfl)) fun label labels' hs' _ hmarks =>
      runs_pure hs' ?_
    have hget : labels'.get? site.toNat = some label := hmarks
    simp [VerificationType.Read, VerificationType.convert, hget]
  | top | integer | float | double | long | null | uninitializedThis => exact runs_pure hs rfl

theorem runs_types (hs : labels.Sound) {types : List StoredType}
    (h : ∀ type ∈ types, type.Readable pool labels) :
    Runs (types.mapM (resolveType pool)) labels fun found labels' =>
      List.Forall₂ (VerificationType.Read pool labels') types found := by
  induction types generalizing labels with
  | nil => exact runs_pure hs .nil
  | cons type rest ih =>
    rw [List.mapM_cons]
    refine runs_bind (runs_type hs (h type List.mem_cons_self)) fun first labels1 hs1 hg1 hfirst => ?_
    refine runs_bind (ih hs1 fun t ht => (h t (List.mem_cons_of_mem _ ht)).grows hg1)
      fun others labels2 hs2 hg2 hothers => ?_
    exact runs_pure hs2 (.cons (hfirst.grows hg2) hothers)

theorem runs_record (hs : labels.Sound) {record : StoredFrame}
    (h : ∀ type ∈ record.locals ++ record.stack, type.Readable pool labels) :
    Runs (record.convert (fun index => (liftM (pool.refType index) : Labelling RefType)) fun site =>
    labelAt site.toNat) labels
      fun found labels' => record.Read pool labels' found := by
  refine runs_bind (runs_types hs fun t ht => h t (List.mem_append_left _ ht))
    fun locals labels1 hs1 hg1 hlocals => ?_
  refine runs_bind (runs_types hs1 fun t ht => (h t (List.mem_append_right _ ht)).grows hg1)
    fun stack labels2 hs2 hg2 hstack => ?_
  exact runs_pure hs2 ⟨hlocals.imp fun _ _ ht => ht.grows hg2, hstack⟩

/-- A change that leads to a frame is read as one that leads to what this frame is read as. -/
theorem runs_change (hs : labels.Sound) {locals : List StoredType}
    {locals' : List (VerificationType RefType Label)}
    (hlocals : List.Forall₂ (VerificationType.Read pool labels) locals locals')
    {change : FrameChange UInt16 UInt16} {record : StoredFrame}
    (hafter : change.frameAfter? locals = some record)
    (h : ∀ type ∈ record.locals ++ record.stack, type.Readable pool labels) :
    Runs (resolveChange pool change) labels fun change' labels' =>
      ∃ record', change'.frameAfter? locals' = some record' ∧ record.Read pool labels' record' := by
  -- the locals that were there are read alike with more labels
  have hstays : ∀ {labels'}, labels.Grows labels' → List.Forall₂
      (VerificationType.Read pool labels') locals locals' :=
    fun hgrows => hlocals.imp fun _ _ ht => ht.grows hgrows
  cases change with
  | same =>
    cases hafter
    exact runs_pure hs ⟨_, rfl, hlocals, .nil⟩
  | sameStack type =>
    cases hafter
    refine runs_bind (runs_type hs (h type (List.mem_append_right _ List.mem_cons_self)))
      fun found labels' hs' hg hfound => ?_
    exact runs_pure hs' ⟨_, rfl, hstays hg, .cons hfound .nil⟩
  | chop count =>
    dsimp only [FrameChange.frameAfter?] at hafter
    split_ifs at hafter with hroom
    cases hafter
    have htake := List.forall₂_take (locals.length - count.toNat) hlocals
    refine runs_pure hs ⟨⟨locals'.take (locals.length - count.toNat), []⟩, ?_, htake, .nil⟩
    dsimp only [FrameChange.frameAfter?]
    rw [← hlocals.length_eq, if_pos hroom]
  | append types =>
    cases hafter
    refine runs_bind (runs_types hs fun t ht => h t (List.mem_append_left _ (List.mem_append_right _ ht)))
      fun found labels' hs' hg hfound => ?_
    exact runs_pure hs' ⟨_, rfl, List.rel_append (hstays hg) hfound, .nil⟩
  | full record =>
    cases hafter
    exact runs_bind (runs_record hs h) fun found labels' hs' _ hfound => runs_pure hs' ⟨found, rfl, hfound⟩

/-- The frames of a table are read, with classes for indices and labels for offsets. -/
theorem runs_frames (hs : labels.Sound) {locals : List StoredType}
    {locals' : List (VerificationType RefType Label)}
    (hlocals : List.Forall₂ (VerificationType.Read pool labels) locals locals') {last : Option Nat}
    {entries : List StackMapEntry} {stored : List (Nat × StoredFrame)}
    (hunfold : StackMapEntry.unfold locals last entries = some stored)
    (h : ∀ x ∈ stored, labels.boundaries.contains x.1 = true ∧
      ∀ type ∈ x.2.locals ++ x.2.stack, type.Readable pool labels) :
    Runs (frames pool locals' last entries) labels fun found labels' =>
      List.Forall₂ (fun x y => y.1 = x.1 ∧ x.2.Read pool labels' y.2) stored found := by
  induction entries generalizing labels locals locals' last stored with
  | nil =>
    cases hunfold
    exact runs_pure hs .nil
  | cons entry rest ih =>
    obtain ⟨record, others, hafter, hothers, rfl⟩ := StackMapEntry.unfold_cons.mp hunfold
    obtain ⟨hinside, hreadable⟩ := h _ List.mem_cons_self
    unfold frames
    refine runs_bind (runs_isBoundary hs) fun inside labels1 hs1 _ hfound => ?_
    obtain ⟨rfl, rfl⟩ := hfound
    dsimp only at hinside hreadable ⊢
    rw [hinside]
    refine runs_bind (runs_change hs hlocals hafter hreadable) fun change' labels2 hs2 hg2 hchange => ?_
    obtain ⟨record', hafter', hrecord⟩ := hchange
    rw [hafter']
    refine runs_bind (runs_labelAt hs2 (hg2.boundaries ▸ hinside)) fun label labels3 hs3 hg3 _ => ?_
    have hg := hg2.trans hg3
    -- the labels of this entry stay, so what is behind it is still readable
    refine runs_bind (ih hs3 (hrecord.grows hg3).locals hothers fun x hx => ?_)
      fun found labels4 hs4 hg4 hrest => ?_
    · obtain ⟨hx1, hx2⟩ := h x (List.mem_cons_of_mem _ hx)
      exact ⟨hg.boundaries ▸ hx1, fun type ht => (hx2 type ht).grows hg⟩
    · exact runs_pure hs4 (.cons ⟨rfl, hrecord.grows (hg3.trans hg4)⟩ hrest)

end Labelling

/-! ## Tables that are read back -/

namespace StackMapEntry

/-- The table holds the frames: it is what is stored for them, its bytes are read as the table, and the table as
the frames, with classes and labels when the pool and the code have them. No legal table of the same frames has
a smaller entry. -/
structure Holds (start : StoredFrame) (frames : List (Nat × StoredFrame)) (entries : List StackMapEntry) :
    Prop where
  stored : ∀ (layout : Layout) (recorded : List (AnalysisFrame × Nat)) (p q : Pool),
    (recorded.mapM fun entry => do return (layout.offset entry.2, ← entry.1.toStored layout) : Interning _) p =
      .ok frames q → MethodBody.storeFrames layout start none recorded p = .ok entries q
  decoded : decodeTable (Bytes.ofTable encode entries) = .ok entries
  unfolded : unfold start.locals none entries = some frames
  read : ∀ (pool : Pool) (labels : OffsetLabels) (locals : List (VerificationType RefType Label)),
    labels.Sound → List.Forall₂ (VerificationType.Read pool labels) start.locals locals →
    (∀ x ∈ frames, labels.boundaries.contains x.1 = true ∧
      ∀ type ∈ x.2.locals ++ x.2.stack, type.Readable pool labels) →
    ∃ found labels', Labelling.frames pool locals none entries labels = .ok (found, labels') ∧
      List.Forall₂ (fun x y => y.1 = x.1 ∧ x.2.Read pool labels' y.2) frames found
  smallest : ∀ others : List StackMapEntry, (∀ other ∈ others, other.change.Fits) →
    unfold start.locals none others = some frames →
      List.Forall₂ (fun entry other => entry.encode.length ≤ other.encode.length) entries others

/-- The table of frames at increasing offsets holds them. -/
theorem ofFrames_holds (start : StoredFrame) {frames : List (Nat × StoredFrame)}
    (hincreasing : frames.Pairwise fun x y => x.1 < y.1) (hoffsets : ∀ x ∈ frames, x.1 ≤ 65534)
    (hsizes : ∀ x ∈ frames, x.2.locals.length ≤ 65535 ∧ x.2.stack.length ≤ 65535) :
    Holds start frames (ofFrames start none frames) := by
  have hlen : frames.length ≤ 65534 + 1 := length_le_of_increasing Prod.fst hincreasing hoffsets
  have hunfold : unfold start.locals none (ofFrames start none frames) = some frames :=
    unfold_ofFrames (fun x hx => ⟨Nat.lt_of_le_of_lt (hoffsets x hx) (by decide),
      fun _ h => by cases h⟩) hincreasing
  refine ⟨fun layout recorded p q h => ?_, ?_, hunfold, ?_, fun others hfits h => ofFrames_smallest hfits h⟩
  · rw [storeFrames_eq_ofFrames]
    exact Outcome.estate_bind.mpr ⟨frames, q, h, rfl⟩
  · refine decodeTable_encode ?_ (fits_ofFrames fun x hx => ?_)
    · rw [length_ofFrames]
      omega
    · exact ⟨Nat.lt_succ_of_le (hsizes x hx).1, Nat.lt_succ_of_le (hsizes x hx).2⟩
  · intro pool labels locals hs hlocals hreadable
    obtain ⟨found, labels', hfound, hresult⟩ := Labelling.runs_frames hs hlocals hunfold hreadable
    exact ⟨found, labels', hfound, hresult.post⟩

/-- The five forms, with distances inside the tag and behind it. -/
theorem ofFrames_holds_five_forms :
    Holds ⟨[.integer], []⟩
      [(5, ⟨[.integer, .object 7], []⟩), (6, ⟨[.integer, .object 7], [.float]⟩), (7, ⟨[.integer], []⟩),
        (80, ⟨[.integer], []⟩), (65534, ⟨[.top], [.uninitialized 3, .long]⟩)]
      [⟨5, .append [.object 7]⟩, ⟨0, .sameStack .float⟩, ⟨0, .chop 1⟩, ⟨72, .same⟩,
        ⟨65453, .full ⟨[.top], [.uninitialized 3, .long]⟩⟩] :=
  ofFrames_holds ⟨[.integer], []⟩ (by decide) (by decide) (by decide)

end StackMapEntry

end ClassWeave
