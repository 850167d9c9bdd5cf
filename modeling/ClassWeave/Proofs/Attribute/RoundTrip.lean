import ClassWeave.Proofs.Attribute.Code
import ClassWeave.Proofs.Attribute.StackMap

/-!
# Attributes and their contents determine each other

Bodies and debug tables have one spelling each: what is read is what would be written. Stack map tables do not,
since a short distance may stand behind its tag as well as in it. What is read from the long form is written in
the short one, so a table that was read and written again is never longer, and it is read as the same table.
-/

namespace ClassWeave

/-! ## Types and entries of stack map tables -/

namespace StoredType

theorem takes_read : read.TakesWritten encode := by
  refine Reader.takes_position.bind fun _ offset hoffset => Reader.takes_u8.bind fun _ tag htag => ?_
  subst hoffset htag
  split
  -- only objects and creation sites take more than the tag
  case h_8 => exact Reader.takes_u16.bind fun _ type htype => Reader.takes_pure (by simp [htype, encode])
  case h_9 => exact Reader.takes_u16.bind fun _ site hsite => Reader.takes_pure (by simp [hsite, encode])
  case h_10 => exact Reader.takes_fail
  all_goals exact Reader.takes_pure rfl

end StoredType

namespace StackMapEntry

/-- A distance inside a tag is short. -/
theorem toUInt16_le_short {tag : UInt8} (h : tag.toNat ≤ 63) : tag.toUInt16 ≤ maxShortDelta := by
  rw [UInt16.le_iff_toNat_le, UInt8.toNat_toUInt16]
  exact h

/-- An entry is never written with more bytes than it was read from. -/
theorem takes_read : read.Takes fun taken entry => entry.encode.length ≤ taken.length := by
  have htype := StoredType.takes_read
  have htable := Reader.takes_table_written htype
  refine Reader.takes_position.bind fun _ offset hoffset => Reader.takes_u8.bind fun _ tag htag => ?_
  subst hoffset htag
  split_ifs with hshort hstack hreserved hextended hchop hsame happend
  · refine Reader.takes_pure ?_
    exact (length_encodeDelta_short 0 251 (toUInt16_le_short hshort)).le
  · refine htype.bind fun _ type hwritten => Reader.takes_pure ?_
    have hmin : ¬ tag.toNat ≤ 63 := hshort
    have hmax : tag.toNat ≤ 127 := hstack
    have hdelta : (tag - 64).toNat = tag.toNat - 64 := UInt8.toNat_sub_of_le tag 64
      (show 64 ≤ tag.toNat by omega)
    have hlen := length_encodeDelta_short 64 247 (toUInt16_le_short (show (tag - 64).toNat ≤ 63 by omega))
    change (encodeDelta 64 247 (tag - 64).toUInt16 ++ StoredType.encode type).length ≤ _
    rw [List.length_append, hlen, hwritten]
    simp [Nat.add_comm]
  · exact Reader.takes_fail
  · refine Reader.takes_u16.bind fun _ delta hdelta => htype.bind fun _ type hwritten => Reader.takes_pure ?_
    have hlen := length_encodeDelta_le 64 247 delta
    simp only [hdelta, hwritten, encode, List.length_append, List.length_cons, List.length_nil,
      Bytes.length_ofUInt16]
    omega
  · refine Reader.takes_u16.bind fun _ delta hdelta => Reader.takes_pure ?_
    simp [hdelta, encode]
  · refine Reader.takes_u16.bind fun _ delta hdelta => Reader.takes_pure ?_
    simp [hdelta, encode, length_encodeDelta_le]
  · refine Reader.takes_u16.bind fun _ delta hdelta => (Reader.takes_times htype _).bind ?_
    rintro _ types ⟨hlen, parts, rfl, hparts⟩
    refine Reader.takes_pure ?_
    simp [hdelta, encode, Lists.flatten_of_forall₂ hparts]
  · refine Reader.takes_u16.bind fun _ delta hdelta => htable.bind fun _ locals hlocals =>
        htable.bind fun _ stack hstack =>
      Reader.takes_pure ?_
    simp [hdelta, hlocals, hstack, encode]

/-! ## Tables -/

/-- A table that was read is written with no more bytes, which are read as the same table. -/
theorem rewritten_of_decodeTable {info : Bytes} {entries : List StackMapEntry}
    (h : decodeTable info = .ok entries) : (Bytes.ofTable encode entries).length ≤ info.length ∧ decodeTable
    (Bytes.ofTable encode entries) = .ok entries :=
  ⟨Attribute.takes_of_decodeInfo (Reader.takes_table_shorter takes_read) h,
    decodeTable_encode_iff.mpr (Attribute.gives_of_decodeInfo (Reader.table_gives read_gives) h)⟩

end StackMapEntry

/-! ## All attributes that are taken apart -/

/-- The contents of a body or a debug table determine it and are determined by it, as long as no count is cut.
Those of a stack map table determine it, and are determined up to the spelling of short distances, of which the
shorter is written. The bytes of an attribute inside a body are counted in 32 bits (`CodeAttribute.Fits`), which
nothing that is read exceeds. -/
theorem Attribute.structured_roundTrips :
    Outcome.Inverts CodeAttribute.decode CodeAttribute.encode CodeAttribute.Fits ∧
    Outcome.Inverts LineEntry.decodeTable (Bytes.ofTable LineEntry.encode)
    (fun entries => entries.length < 2 ^ 16) ∧
    (∀ name, Outcome.Inverts (VariableEntry.decodeTable name) (Bytes.ofTable VariableEntry.encode)
      (fun entries => entries.length < 2 ^ 16)) ∧
    (∀ entries, StackMapEntry.decodeTable (Bytes.ofTable StackMapEntry.encode entries) = .ok entries ↔
      StackMapEntry.TableFits entries) ∧
    ∀ info entries, StackMapEntry.decodeTable info = .ok entries →
      (Bytes.ofTable StackMapEntry.encode entries).length ≤ info.length ∧
        StackMapEntry.decodeTable (Bytes.ofTable StackMapEntry.encode entries) = .ok entries :=
  ⟨CodeAttribute.inverts_decode, LineEntry.inverts_decodeTable, VariableEntry.inverts_decodeTable,
    fun _ => StackMapEntry.decodeTable_encode_iff, fun _ _ => StackMapEntry.rewritten_of_decodeTable⟩

/-- A distance of 10 behind its tag is read, and written inside the tag. -/
theorem Attribute.structured_roundTrips_shortened :
    StackMapEntry.decodeTable [0, 1, 251, 0, 10] = .ok [⟨10, .same⟩] ∧
      Bytes.ofTable StackMapEntry.encode [⟨10, .same⟩] = [0, 1, 10] ∧
      StackMapEntry.decodeTable (Bytes.ofTable StackMapEntry.encode [⟨10, .same⟩]) = .ok [⟨10, .same⟩] := by
  have hread : StackMapEntry.decodeTable [0, 1, 251, 0, 10] = .ok [⟨10, .same⟩] := by decide
  obtain ⟨-, -, -, -, hrewritten⟩ := Attribute.structured_roundTrips
  exact ⟨hread, by decide, (hrewritten _ _ hread).2⟩

end ClassWeave
