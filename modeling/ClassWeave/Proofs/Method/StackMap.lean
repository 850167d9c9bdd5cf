import ClassWeave.Event.Body
import ClassWeave.Method.Assembly
import ClassWeave.Proofs.Attribute.StackMap
import ClassWeave.Proofs.Frame.Relocation
import ClassWeave.Proofs.Pool.Symbol

/-!
# The frames in a stack map table

`StackMapEntry.expand` is how a table is to be read: entry by entry, each frame out of the one before. Frames
that are stored at increasing offsets are read back, with offsets in place of creation sites.
-/

namespace ClassWeave

open ClassWeave.Frame (slotAt)

/-! ## Reading a table -/

namespace StackMapEntry

/-- A creation site in a table is an offset. -/
def siteOffset (site : UInt16) : Except Malformed Nat :=
  .ok site.toNat

/-- The frames of a table with their offsets, after a frame with the given locals at the offset `previous`. -/
def expand (pool : Pool) (locals : List AnalysisType) (previous : Option Nat) :
    List StackMapEntry → Except Malformed (List (Nat × FrameRecord RefType Nat))
  | [] => .ok []
  | entry :: rest => do
    let offset := Labelling.entryOffset previous entry.delta
    let change ← entry.change.convert pool.refType siteOffset
    match change.frameAfter? locals with
    | none => .error (.invalidFrame offset)
    | some record => do
      let others ← expand pool record.locals (some offset) rest
      return (offset, record) :: others

theorem expand_cons {pool : Pool} {locals : List AnalysisType} {previous : Option Nat} {entry : StackMapEntry}
    {rest : List StackMapEntry} {change : FrameChange RefType Nat} {record : FrameRecord RefType Nat}
    {offset : Nat} {others : List (Nat × FrameRecord RefType Nat)}
    (hoffset : Labelling.entryOffset previous entry.delta = offset)
    (hchange : entry.change.convert pool.refType siteOffset = .ok change)
    (hrecord : change.frameAfter? locals = some record)
    (hothers : expand pool record.locals (some offset) rest = .ok others) :
    expand pool locals previous (entry :: rest) = .ok ((offset, record) :: others) := by
  subst hoffset
  unfold expand
  dsimp only
  rw [hchange]
  change (match change.frameAfter? locals with
    | none => Except.error (Malformed.invalidFrame (Labelling.entryOffset previous entry.delta))
    | some record => do
      let others ← expand pool record.locals (some (Labelling.entryOffset previous entry.delta)) rest
      return (Labelling.entryOffset previous entry.delta, record) :: others) = _
  rw [hrecord]
  dsimp only
  rw [hothers]
  rfl

end StackMapEntry

/-! ## Frames written down and read back -/

namespace Frame

variable {move : Nat → Nat}

theorem compact_map : ∀ types : List AnalysisType,
    compact (types.map (·.mapSite move)) = (compact types).map (·.mapSite move)
  | [] => rfl
  | [_] => rfl
  | type :: next :: rest => by
    have ih := compact_map (next :: rest)
    have ih' := compact_map rest
    rw [List.map_cons] at ih
    change (type.mapSite move :: if (type.mapSite move).isWide then compact (rest.map (·.mapSite move))
      else compact (next.mapSite move :: rest.map (·.mapSite move))) =
        (type :: if type.isWide then compact rest else compact (next :: rest)).map (·.mapSite move)
    rw [VerificationType.isWide_mapSite, List.map_cons, ih, ih']
    split_ifs <;> rfl

/-- A frame, renamed and written down. -/
theorem toRecord_mapSites (move : Nat → Nat) (frame : AnalysisFrame) :
    (frame.mapSites move).toRecord = frame.toRecord.mapSite move := by
  unfold toRecord FrameRecord.mapSite mapSites
  rw [compact_map, List.map_reverse]

/-- Reading what was written down gives the frame back. -/
theorem toFrame_toRecord {frame : AnalysisFrame} (h : Whole frame.locals) : frame.toRecord.toFrame = frame := by
  unfold toRecord FrameRecord.toFrame
  rw [expand_compact h, List.reverse_reverse]

theorem mem_compact : ∀ {types : List AnalysisType} {t : AnalysisType}, t ∈ compact types → t ∈ types
  | [], _, h => h
  | [_], _, h => h
  | type :: next :: rest, t, h => by
    unfold compact at h
    rcases List.mem_cons.mp h with rfl | h
    · exact List.mem_cons_self
    · refine List.mem_cons_of_mem _ ?_
      split_ifs at h
      · exact List.mem_cons_of_mem _ (mem_compact h)
      · exact mem_compact h

end Frame

/-! ## Storing frames -/

/-- What a type needs so that it can be stored. -/
structure VerificationType.Storable (layout : Layout) (t : AnalysisType) : Prop where
  class_writable : ∀ type, t = .object type → type.IsWritable
  site_short : ∀ site, t = .uninitialized site → layout.offset site < 2 ^ 16

/-- The types of a frame can be stored, and there are not too many of them. -/
structure Frame.Storable (layout : Layout) (frame : AnalysisFrame) : Prop where
  types : ∀ t ∈ frame.locals ++ frame.stack, t.Storable layout
  locals_short : frame.toRecord.locals.length < 2 ^ 16
  stack_short : frame.stack.length < 2 ^ 16

namespace Interning

variable {layout : Layout} {p q : Pool}

theorem storedType_ok (hp : p.WellFormed) {t : AnalysisType} {t' : StoredType} (ht : t.Storable layout)
    (h : t.convert Interning.refType (fun site => pure (layout.offset16 site)) p = .ok t' q) :
    Result p q (∀ r, q.Grows r → t'.convert r.refType StackMapEntry.siteOffset =
    .ok (t.mapSite layout.offset)) := by
  cases t with
  | object type =>
    obtain ⟨i, q1, hi, h⟩ := Outcome.estate_bind.mp h
    obtain ⟨rfl, rfl⟩ := Outcome.estate_pure.mp h
    have hresult := refType_ok hp (ht.class_writable type rfl) hi
    exact ⟨hresult.wellFormed, hresult.grows, fun r hr =>
      Outcome.except_bind.mpr ⟨type, hr.refType hresult.post, rfl⟩⟩
  | uninitialized site =>
    obtain ⟨i, q1, hi, h⟩ := Outcome.estate_bind.mp h
    obtain ⟨rfl, rfl⟩ := Outcome.estate_pure.mp h
    obtain ⟨rfl, rfl⟩ := Outcome.estate_pure.mp hi
    refine ⟨hp, Pool.Grows.refl _, fun r _ => ?_⟩
    -- the offset of the site fits into sixteen bits, so it is not cut
    have hnat : (layout.offset16 site).toNat = layout.offset site := by
      unfold Layout.offset16
      rw [UInt16.toNat_ofNat', Nat.mod_eq_of_lt (ht.site_short site rfl)]
    change Except.ok (VerificationType.uninitialized (layout.offset16 site).toNat) = _
    rw [hnat]
    rfl
  | _ =>
    obtain ⟨rfl, rfl⟩ := Outcome.estate_pure.mp h
    exact ⟨hp, Pool.Grows.refl _, fun r _ => rfl⟩

theorem storedTypes_ok (hp : p.WellFormed) {types : List AnalysisType} {types' : List StoredType}
    (ht : ∀ t ∈ types, t.Storable layout)
    (h : types.mapM (·.convert Interning.refType fun site => pure (layout.offset16 site)) p = .ok types' q) :
    Result p q (∀ r, q.Grows r → FrameChange.Converts r.refType StackMapEntry.siteOffset types'
      (types.map (·.mapSite layout.offset))) := by
  have hresult : Result p q (List.Forall₂ (fun (t : AnalysisType) (t' : StoredType) => ∀ r, q.Grows r →
      t'.convert r.refType StackMapEntry.siteOffset = .ok (t.mapSite layout.offset)) types types') := by
    refine @mapM_ok _ _ _ _ (fun t t' q => ∀ r, q.Grows r →
      t'.convert r.refType StackMapEntry.siteOffset = .ok (t.mapSite layout.offset)) ?_ _ _ _ _ hp ?_ h
    · exact fun t t' p q hpq hpost r hr => hpost r (hpq.trans hr)
    · exact fun t hmem p q t' hp h => storedType_ok hp (ht t hmem) h
  refine ⟨hresult.wellFormed, hresult.grows, fun r hr => ?_⟩
  refine List.forall₂_map_right_iff.mpr (List.Forall₂.flip ?_)
  exact hresult.post.imp fun t t' hpost => hpost r hr

/-- A frame that was stored is read as itself, with offsets for creation sites. -/
theorem storedFrame_ok (hp : p.WellFormed) {frame : AnalysisFrame} {stored : StoredFrame}
    (hf : ∀ t ∈ frame.locals ++ frame.stack, t.Storable layout) (h : frame.toStored layout p = .ok stored q) :
    Result p q (∀ r, q.Grows r →
      stored.convert r.refType StackMapEntry.siteOffset = .ok (frame.toRecord.mapSite layout.offset)) := by
  obtain ⟨locals, q1, hlocals, h⟩ := Outcome.estate_bind.mp h
  obtain ⟨stack, q2, hstack, h⟩ := Outcome.estate_bind.mp h
  obtain ⟨rfl, rfl⟩ := Outcome.estate_pure.mp h
  have h1 := storedTypes_ok hp (fun t ht => hf t (List.mem_append_left _ (Frame.mem_compact ht))) hlocals
  have h2 := storedTypes_ok h1.wellFormed
    (fun t ht => hf t (List.mem_append_right _ (List.mem_reverse.mp ht))) hstack
  refine ⟨h2.wellFormed, h1.grows.trans h2.grows, fun r hr => ?_⟩
  exact FrameChange.record_convert_eq_ok.mpr ⟨h1.post r (h2.grows.trans hr), h2.post r hr⟩

/-- The table of frames at increasing offsets is read as these frames. -/
theorem storeFrames_ok : ∀ {frames : List (AnalysisFrame × Nat)} {p q : Pool} {previous : StoredFrame}
    {last : Option Nat} {locals : List AnalysisType} {entries : List StackMapEntry}, p.WellFormed →
      (∀ r, p.Grows r → FrameChange.Converts r.refType StackMapEntry.siteOffset previous.locals locals) →
      (∀ x ∈ frames, x.1.Storable layout ∧ layout.offset x.2 < 2 ^ 16 ∧ ∀ offset, last = some offset →
      offset < layout.offset x.2) → frames.Pairwise (fun x y => layout.offset x.2 < layout.offset y.2) →
      MethodBody.storeFrames layout previous last frames p = .ok entries q →
        Result p q ((∀ r, q.Grows r → StackMapEntry.expand r locals last entries =
          .ok (frames.map fun x => (layout.offset x.2, x.1.toRecord.mapSite layout.offset))) ∧
            entries.length = frames.length ∧ ∀ entry ∈ entries, entry.change.Fits)
  | [], p, q, previous, last, locals, entries, hp, _, _, _, h => by
    obtain ⟨rfl, rfl⟩ := Outcome.estate_pure.mp h
    exact ⟨hp, Pool.Grows.refl _, fun r _ => rfl, rfl, fun entry hentry => by cases hentry⟩
  | (frame, position) :: rest, p, q, previous, last, locals, entries, hp, hprevious, hframes,
        hincreasing, h => by
    obtain ⟨stored, q1, hstored, h⟩ := Outcome.estate_bind.mp h
    obtain ⟨others, q2, hothers, h⟩ := Outcome.estate_bind.mp h
    obtain ⟨rfl, rfl⟩ := Outcome.estate_pure.mp h
    obtain ⟨hstorable, hshort, hlast⟩ := hframes _ List.mem_cons_self
    have h1 := storedFrame_ok hp hstorable.types hstored
    obtain ⟨hfirst, hincreasing⟩ := List.pairwise_cons.mp hincreasing
    -- the rest of the table is told relative to this frame, by offset and by locals
    have h2 := storeFrames_ok h1.wellFormed
      (fun r hr => (FrameChange.record_convert_eq_ok.mp (h1.post r hr)).1)
      (fun x hx => ⟨(hframes x (List.mem_cons_of_mem _ hx)).1, (hframes x (List.mem_cons_of_mem _ hx)).2.1,
        fun offset heq => by cases heq; exact hfirst x hx⟩) hincreasing hothers
    obtain ⟨hexpand, hlen, hfits⟩ := h2.post
    refine ⟨h2.wellFormed, h1.grows.trans h2.grows, fun r hr => ?_, congrArg Nat.succ hlen, ?_⟩
    -- distances to the frame before are one too small, except for the first frame
    · obtain ⟨change, hchange, hrecord⟩ := FrameChange.frameAfter?_between
        (hprevious r (h1.grows.trans (h2.grows.trans hr))) (h1.post r (h2.grows.trans hr))
      refine StackMapEntry.expand_cons ?_ hchange hrecord (hexpand r hr)
      dsimp only at hshort ⊢
      cases last with
      | none =>
        change (layout.offset position).toUInt16.toNat = _
        rw [UInt16.toNat_ofNat', Nat.mod_eq_of_lt hshort]
      | some offset =>
        have hlt : offset < layout.offset position := hlast offset rfl
        change offset + (layout.offset position - offset - 1).toUInt16.toNat + 1 = _
        rw [UInt16.toNat_ofNat', Nat.mod_eq_of_lt (by omega)]
        omega
    · intro entry hentry
      rcases List.mem_cons.mp hentry with rfl | hentry
      · have hrecord := FrameChange.record_convert_eq_ok.mp (h1.post _ h2.grows)
        refine FrameChange.fits_between previous ?_ ?_
        · rw [hrecord.1.length_eq]
          change (frame.toRecord.locals.map _).length < _
          rw [List.length_map]
          exact hstorable.locals_short
        · rw [hrecord.2.length_eq]
          change (frame.stack.reverse.map _).length < _
          rw [List.length_map, List.length_reverse]
          exact hstorable.stack_short
      · exact hfits entry hentry

end Interning

end ClassWeave
