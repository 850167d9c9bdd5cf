import ClassWeave.Attribute.StackMap
import ClassWeave.Proofs.Bytes.Reading
import ClassWeave.Proofs.Frame.Change

/-!
# Stack map tables are read back

The bytes of an entry are read as that entry. What an entry can hold is limited by its form (`FrameChange.Fits`): a
tag has room for one to three locals that go or come, and a full frame counts its types in 16 bits.
-/

namespace ClassWeave

/-! ## Types -/

namespace StoredType

theorem read_yields (t : StoredType) : read.Yields t.encode t := by
  intro position
  refine Reader.YieldsAt.bind_position ?_
  have h16 : ∀ (w : UInt16) (make : UInt16 → StoredType),
      Reader.Yields (do return make (← Reader.u16)) (Bytes.ofUInt16 w) (make w) :=
    fun w make => (Reader.yields_u16 w).bind_pure make
  cases t with
  | object type => exact (Reader.yields_u8 7 position).bind (h16 type VerificationType.object _)
  | uninitialized site => exact (Reader.yields_u8 8 position).bind (h16 site VerificationType.uninitialized _)
  | top => exact (Reader.yields_u8 0 position).bind (Reader.yieldsAt_pure _ _)
  | integer => exact (Reader.yields_u8 1 position).bind (Reader.yieldsAt_pure _ _)
  | float => exact (Reader.yields_u8 2 position).bind (Reader.yieldsAt_pure _ _)
  | double => exact (Reader.yields_u8 3 position).bind (Reader.yieldsAt_pure _ _)
  | long => exact (Reader.yields_u8 4 position).bind (Reader.yieldsAt_pure _ _)
  | null => exact (Reader.yields_u8 5 position).bind (Reader.yieldsAt_pure _ _)
  | uninitializedThis => exact (Reader.yields_u8 6 position).bind (Reader.yieldsAt_pure _ _)

theorem moves_read : read.Moves := by
  refine Reader.moves_position.bind fun offset => Reader.moves_u8.bind fun tag => ?_
  split
  all_goals first
    | exact Reader.gives_fail
    | exact Reader.gives_pure trivial
    | exact Reader.moves_u16.bind fun _ => Reader.gives_pure trivial

end StoredType

/-! ## Entries -/

namespace StackMapEntry

/-- What stands behind the tag decides what is read. -/
theorem read_of_tag {tag : UInt8} {more : Bytes} {entry : StackMapEntry}
    (h : ∀ offset, Reader.Yields
      (if tag ≤ 63 then
        pure ⟨tag.toUInt16, .same⟩
      else if tag ≤ 127 then do
        return ⟨(tag - 64).toUInt16, .sameStack (← StoredType.read)⟩
      else if tag < 247 then
        Reader.fail (.invalidFrame offset)
      else do
        let delta ← Reader.u16
        if tag = 247 then
          return ⟨delta, .sameStack (← StoredType.read)⟩
        else if tag ≤ 250 then
          return ⟨delta, .chop (251 - tag)⟩
        else if tag = 251 then
          return ⟨delta, .same⟩
        else if tag ≤ 254 then
          return ⟨delta, .append (← Reader.times StoredType.read (tag - 251).toNat)⟩
        else
          let locals ← Reader.table StoredType.read
          return ⟨delta, .full ⟨locals, ← Reader.table StoredType.read⟩⟩) more entry) :
    read.Yields (tag :: more) entry := by
  intro position
  refine Reader.YieldsAt.bind_position ?_
  exact Reader.YieldsAt.bind (Reader.yields_u8 tag position) (h position _)

/-- A tag that is followed by the distance. -/
theorem read_of_delta {tag : UInt8} {delta : UInt16} {more : Bytes} {entry : StackMapEntry} (htag : 247 ≤ tag)
    (h : Reader.Yields
      (if tag = 247 then do
        return ⟨delta, .sameStack (← StoredType.read)⟩
      else if tag ≤ 250 then
        pure ⟨delta, .chop (251 - tag)⟩
      else if tag = 251 then
        pure ⟨delta, .same⟩
      else if tag ≤ 254 then do
        return ⟨delta, .append (← Reader.times StoredType.read (tag - 251).toNat)⟩
      else do
        let locals ← Reader.table StoredType.read
        return ⟨delta, .full ⟨locals, ← Reader.table StoredType.read⟩⟩) more entry) :
    read.Yields (tag :: (Bytes.ofUInt16 delta ++ more)) entry := by
  have hnat : 247 ≤ tag.toNat := htag
  have h63 : ¬ tag ≤ 63 := fun hle => by
    have : tag.toNat ≤ 63 := hle
    omega
  have h127 : ¬ tag ≤ 127 := fun hle => by
    have : tag.toNat ≤ 127 := hle
    omega
  have h247 : ¬ tag < 247 := fun hlt => by
    have : tag.toNat < 247 := hlt
    omega
  refine read_of_tag fun offset => ?_
  rw [if_neg h63, if_neg h127, if_neg h247]
  exact (Reader.yields_u16 delta).bind h

/-- A count that is taken off the tag 251. -/
theorem toNat_untag {count : UInt8} (h : count.toNat ≤ 251) : (251 - count).toNat = 251 - count.toNat :=
  UInt8.toNat_sub_of_le 251 count h

theorem short_toNat {delta : UInt16} (h : delta ≤ maxShortDelta) :
    delta.toNat ≤ 63 ∧ delta.toUInt8.toNat = delta.toNat := by
  have hle : delta.toNat ≤ 63 := h
  refine ⟨hle, ?_⟩
  rw [UInt16.toNat_toUInt8]
  exact Nat.mod_eq_of_lt (by omega)

theorem length_encodeDelta_short (base extended : UInt8) {delta : UInt16} (h : delta ≤ maxShortDelta) :
    (encodeDelta base extended delta).length = 1 := by
  rw [encodeDelta, if_pos h]
  rfl

theorem length_encodeDelta_le (base extended : UInt8) (delta : UInt16) :
    (encodeDelta base extended delta).length ≤ 3 := by
  unfold encodeDelta
  split_ifs <;> simp

theorem read_same (delta : UInt16) : read.Yields (encodeDelta 0 251 delta) ⟨delta, .same⟩ := by
  unfold encodeDelta
  split_ifs with hshort
  · obtain ⟨hle, heq⟩ := short_toNat hshort
    rw [UInt8.zero_add]
    refine read_of_tag fun offset => ?_
    rw [if_pos (show delta.toUInt8 ≤ 63 from (show delta.toUInt8.toNat ≤ 63 by omega))]
    have hback : delta.toUInt8.toUInt16 = delta := by
      apply UInt16.toNat_inj.mp
      rw [UInt8.toNat_toUInt16, heq]
    rw [hback]
    exact Reader.yields_pure _
  · have h := @read_of_delta 251 delta [] ⟨delta, .same⟩ (by decide) (Reader.yields_pure _)
    rwa [List.append_nil] at h

theorem read_sameStack (delta : UInt16) (t : StoredType) :
    read.Yields (encodeDelta 64 247 delta ++ t.encode) ⟨delta, .sameStack t⟩ := by
  unfold encodeDelta
  split_ifs with hshort
  · obtain ⟨hle, heq⟩ := short_toNat hshort
    have htag : ((64 : UInt8) + delta.toUInt8).toNat = 64 + delta.toNat := by
      rw [UInt8.toNat_add, heq]
      exact Nat.mod_eq_of_lt (by have : (64 : UInt8).toNat = 64 := rfl; omega)
    refine read_of_tag fun offset => ?_
    rw [if_neg (fun hle' => by have : ((64 : UInt8) + delta.toUInt8).toNat ≤ 63 := hle'; omega),
      if_pos (show 64 + delta.toUInt8 ≤ 127 from (show ((64 : UInt8) + delta.toUInt8).toNat ≤ 127 by omega))]
    have hback : ((64 : UInt8) + delta.toUInt8 - 64).toUInt16 = delta := by
      apply UInt16.toNat_inj.mp
      rw [UInt8.add_comm, UInt8.add_sub_cancel, UInt8.toNat_toUInt16, heq]
    rw [hback]
    exact (StoredType.read_yields t).bind_pure fun t => (⟨delta, .sameStack t⟩ : StackMapEntry)
  · refine read_of_delta (by decide) ?_
    exact (StoredType.read_yields t).bind_pure fun t => (⟨delta, .sameStack t⟩ : StackMapEntry)

/-- An entry is read back. -/
theorem read_yields {entry : StackMapEntry} (h : entry.change.Fits) : read.Yields entry.encode entry := by
  obtain ⟨delta, change⟩ := entry
  cases change with
  | same => exact read_same delta
  | sameStack t => exact read_sameStack delta t
  | chop count =>
    obtain ⟨hpos, hle⟩ : 1 ≤ count.toNat ∧ count.toNat ≤ 3 := h
    have hnat := toNat_untag (show count.toNat ≤ 251 by omega)
    have hback : 251 - (251 - count) = count := by
      rw [UInt8.sub_eq_iff_eq_add, UInt8.add_comm, UInt8.sub_add_cancel]
    have h := @read_of_delta (251 - count) delta [] ⟨delta, .chop count⟩
      (show 247 ≤ (251 - count).toNat by omega) (by
        rw [if_neg (fun heq => by rw [heq] at hnat; change 247 = _ at hnat; omega),
          if_pos (show 251 - count ≤ 250 from (show (251 - count).toNat ≤ 250 by omega)), hback]
        exact Reader.yields_pure _)
    rwa [List.append_nil] at h
  | append types =>
    obtain ⟨hpos, hle⟩ : 1 ≤ types.length ∧ types.length ≤ 3 := h
    have hlen : types.length.toUInt8.toNat = types.length := by
      rw [UInt8.toNat_ofNat', Nat.mod_eq_of_lt (by omega)]
    have hnat : (251 + types.length.toUInt8).toNat = 251 + types.length := by
      rw [UInt8.toNat_add, hlen]
      exact Nat.mod_eq_of_lt (by have : (251 : UInt8).toNat = 251 := rfl; omega)
    have hne : ∀ {n : UInt8}, n.toNat ≤ 251 → 251 + types.length.toUInt8 ≠ n := by
      intro n hn heq
      rw [heq] at hnat
      omega
    have hcount : 251 + types.length.toUInt8 - 251 = types.length.toUInt8 := by
      rw [UInt8.add_comm, UInt8.add_sub_cancel]
    refine read_of_delta (show 247 ≤ (251 + types.length.toUInt8).toNat by omega) ?_
    rw [if_neg (hne (by decide)),
      if_neg (fun hle' => by have : (251 + types.length.toUInt8).toNat ≤ 250 := hle'; omega),
      if_neg (hne (by decide)), if_pos
      (show 251 + types.length.toUInt8 ≤ 254 from (show (251 + types.length.toUInt8).toNat ≤ 254 by omega)),
      hcount, hlen]
    have htypes := Reader.yields_times fun t (_ : t ∈ types) => StoredType.read_yields t
    exact htypes.bind_pure fun types => (⟨delta, .append types⟩ : StackMapEntry)
  | full record =>
    obtain ⟨hlocals, hstack⟩ := h
    have htable : ∀ {types : List StoredType}, types.length < 2 ^ 16 →
        (Reader.table StoredType.read).Yields (Bytes.ofTable StoredType.encode types) types := fun h =>
      Reader.yields_table h fun t _ => StoredType.read_yields t
    unfold encode
    dsimp only
    change read.Yields (255 :: (Bytes.ofUInt16 delta ++ Bytes.ofTable StoredType.encode record.locals ++
      Bytes.ofTable StoredType.encode record.stack)) _
    rw [List.append_assoc]
    refine read_of_delta (by decide) ?_
    exact (htable hlocals).bind ((htable hstack).bind_pure fun stack =>
      (⟨delta, .full ⟨record.locals, stack⟩⟩ : StackMapEntry))

/-- Whatever entry is read, its change fits. -/
theorem read_gives : read.Gives fun entry => entry.change.Fits := by
  refine Reader.moves_position.bind fun offset => Reader.moves_u8.bind fun tag => ?_
  split_ifs with hshort hstack hreserved hextended hchop hsame happend
  · exact Reader.gives_pure trivial
  · exact StoredType.moves_read.bind fun _ => Reader.gives_pure trivial
  · exact Reader.gives_fail
  · exact Reader.moves_u16.bind fun _ => StoredType.moves_read.bind fun _ => Reader.gives_pure trivial
  · refine Reader.moves_u16.bind fun _ => Reader.gives_pure ?_
    -- a `chop` takes one to three away
    have hmin : ¬ tag.toNat < 247 := hreserved
    have hne : tag.toNat ≠ 247 := fun heq => hextended (UInt8.toNat_inj.mp heq)
    have hmax : tag.toNat ≤ 250 := hchop
    have hcount := toNat_untag (show tag.toNat ≤ 251 by omega)
    exact ⟨by omega, show (251 - tag).toNat ≤ 3 by omega⟩
  · exact Reader.moves_u16.bind fun _ => Reader.gives_pure trivial
  · refine Reader.moves_u16.bind fun _ => (Reader.times_gives StoredType.moves_read _).bind fun types htypes =>
      Reader.gives_pure ?_
    have hmin : ¬ tag.toNat ≤ 250 := hchop
    have hne : tag.toNat ≠ 251 := fun heq => hsame (UInt8.toNat_inj.mp heq)
    have hmax : tag.toNat ≤ 254 := happend
    have hcount : (tag - 251).toNat = tag.toNat - 251 :=
      UInt8.toNat_sub_of_le tag 251 (show 251 ≤ tag.toNat by omega)
    rw [hcount] at htypes
    exact ⟨by omega, show types.length ≤ 3 by omega⟩
  · exact Reader.moves_u16.bind fun _ => (Reader.table_gives StoredType.moves_read).bind fun _ hlocals =>
      (Reader.table_gives StoredType.moves_read).bind fun _ hstack => Reader.gives_pure ⟨hlocals.1, hstack.1⟩

/-! ## Tables -/

/-- A table is read back. -/
theorem decodeTable_encode {entries : List StackMapEntry} (hlen : entries.length < 2 ^ 16)
    (h : ∀ entry ∈ entries, entry.change.Fits) : decodeTable (Bytes.ofTable encode entries) = .ok entries :=
  Attribute.decodeInfo_of_yields (Reader.yields_table hlen fun entry hmem => read_yields (h entry hmem))

/-- What a table of entries needs so that none of its counts is cut. -/
def TableFits (entries : List StackMapEntry) : Prop :=
  entries.length < 2 ^ 16 ∧ ∀ entry ∈ entries, entry.change.Fits

/-- Tables that can be written, and no others, are read back. -/
theorem decodeTable_encode_iff {entries : List StackMapEntry} :
    decodeTable (Bytes.ofTable encode entries) = .ok entries ↔ TableFits entries :=
  ⟨Attribute.gives_of_decodeInfo (Reader.table_gives read_gives), fun h => decodeTable_encode h.1 h.2⟩

end StackMapEntry

end ClassWeave
