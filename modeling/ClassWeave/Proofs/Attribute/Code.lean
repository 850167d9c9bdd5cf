import ClassWeave.Attribute.Code
import ClassWeave.Attribute.Debug
import ClassWeave.Proofs.Bytes.Reading
import ClassWeave.Proofs.Bytes.Taking

/-!
# Bodies and their debug tables survive writing

A body whose handlers can be counted in 16 bits is read back as it was written, and so is a debug table whose
entries can. Nothing else is read as them. A longer table is not read back: its count is cut, and bytes are left
after as many entries as the cut count says.
-/

namespace ClassWeave

/-! ## Debug tables -/

namespace LineEntry

theorem read_yields (entry : LineEntry) : read.Yields entry.encode entry :=
  (Reader.yields_u16 entry.start).bind ((Reader.yields_u16 entry.line).bind_pure (LineEntry.mk entry.start))

theorem moves_read : read.Moves :=
  Reader.moves_u16.bind fun _ => Reader.moves_u16.bind fun _ => Reader.gives_pure trivial

theorem takes_read : read.TakesWritten encode := by
  refine Reader.takes_u16.bind fun _ start hstart => Reader.takes_u16.bind fun _ line hline =>
    Reader.takes_pure ?_
  simp [hstart, hline, encode]

/-- Tables of lines are read from what is written for them, if they can be counted. -/
theorem inverts_decodeTable :
    Outcome.Inverts decodeTable (Bytes.ofTable encode) fun entries :
    List LineEntry => entries.length < 2 ^ 16 :=
  Attribute.inverts_decodeInfo (fun _ hlen => Reader.yields_table hlen fun entry _ => read_yields entry)
    ((Reader.table_gives moves_read).imp fun _ h => h.1) (Reader.takes_table_written takes_read)

end LineEntry

namespace VariableEntry

theorem read_yields (entry : VariableEntry) : read.Yields entry.encode entry := by
  unfold encode
  simp only [List.append_assoc]
  exact (Reader.yields_u16 entry.start).bind
    ((Reader.yields_u16 entry.length).bind ((Reader.yields_u16 entry.name).bind
    ((Reader.yields_u16 entry.type).bind ((Reader.yields_u16 entry.slot).bind_pure
      (VariableEntry.mk entry.start entry.length entry.name entry.type)))))

theorem moves_read : read.Moves :=
  Reader.moves_u16.bind fun _ => Reader.moves_u16.bind fun _ => Reader.moves_u16.bind fun _ =>
      Reader.moves_u16.bind fun _ =>
    Reader.moves_u16.bind fun _ => Reader.gives_pure trivial

theorem takes_read : read.TakesWritten encode := by
  refine Reader.takes_u16.bind fun _ start hstart => Reader.takes_u16.bind fun _ length hlength =>
    Reader.takes_u16.bind fun _ name hname => Reader.takes_u16.bind fun _ type htype =>
      Reader.takes_u16.bind fun _ slot hslot => Reader.takes_pure ?_
  simp [hstart, hlength, hname, htype, hslot, encode]

/-- The same of tables of variables, under either name. -/
theorem inverts_decodeTable (name : String) :
    Outcome.Inverts (decodeTable name) (Bytes.ofTable encode) fun entries :
    List VariableEntry => entries.length < 2 ^ 16 :=
  Attribute.inverts_decodeInfo (fun _ hlen => Reader.yields_table hlen fun entry _ => read_yields entry)
    ((Reader.table_gives moves_read).imp fun _ h => h.1) (Reader.takes_table_written takes_read)

end VariableEntry

/-! ## Tables of entries of one width -/

/-- Entries of one width are read from no table but their own. -/
theorem Bytes.eq_of_inverts {α ε : Type} {read : Bytes → Except ε (List α)} {encode : α → Bytes} (width : Nat)
    (h : Outcome.Inverts read (Bytes.ofTable encode) fun entries : List α => entries.length < 2 ^ 16)
    (hpos : 0 < width) (hwidth : ∀ entry, (encode entry).length = width) {entries found : List α}
    (hread : read (Bytes.ofTable encode entries) = .ok found) : found = entries := by
  have hlength : ∀ table : List α, (Bytes.ofTable encode table).length = 2 + table.length * width := by
    intro table
    unfold Bytes.ofTable
    rw [List.length_append, List.length_flatMap, List.map_congr_left fun entry _ => hwidth entry,
      List.map_const', List.sum_replicate_nat]
    rfl
  obtain ⟨hcount, hsame⟩ := (h _ _).mp hread
  have hlengths := congrArg List.length hsame
  rw [hlength, hlength, Nat.add_left_cancel_iff, Nat.mul_right_cancel_iff hpos] at hlengths
  rw [hlengths] at hcount
  exact Except.ok.inj (hread.symm.trans (h.read_write.mpr hcount))

theorem LineEntry.eq_of_decodeTable {entries found : List LineEntry}
    (h : decodeTable (Bytes.ofTable encode entries) = .ok found) : found = entries :=
  Bytes.eq_of_inverts 4 inverts_decodeTable (by decide) (fun _ => rfl) h

theorem VariableEntry.eq_of_decodeTable {name : String} {entries found : List VariableEntry}
    (h : decodeTable name (Bytes.ofTable encode entries) = .ok found) : found = entries :=
  Bytes.eq_of_inverts 10 (inverts_decodeTable name) (by decide) (fun _ => rfl) h

/-! ## Tables that cannot be counted -/

namespace Reader

variable {α : Type}

/-- A table of too many entries is read up to its cut count, and the bytes of the other entries are left. -/
theorem table_cut {reader : Reader α} {encode : α → Bytes} {values : List α}
    (h : ∀ v ∈ values, reader.Yields (encode v) v) (position : Nat) :
    table reader ⟨Bytes.ofTable encode values, position⟩ = .ok (values.take (values.length % 2 ^ 16),
      ⟨(values.drop (values.length % 2 ^ 16)).flatMap encode,
        position + (2 + ((values.take (values.length % 2 ^ 16)).flatMap encode).length)⟩) := by
  have hcount : values.length.toUInt16.toNat = (values.take (values.length % 2 ^ 16)).length := by
    rw [UInt16.toNat_ofNat', List.length_take, Nat.min_eq_left (Nat.mod_le _ _)]
  have htimes : (times reader values.length.toUInt16.toNat).Yields
      ((values.take (values.length % 2 ^ 16)).flatMap encode) (values.take (values.length % 2 ^ 16)) := by
    rw [hcount]
    exact yields_times fun v hv => h v (List.mem_of_mem_take hv)
  have hread : (table reader).Yields (Bytes.ofUInt16 values.length.toUInt16 ++
      (values.take (values.length % 2 ^ 16)).flatMap encode) (values.take (values.length % 2 ^ 16)) :=
    (yields_u16 _).bind htimes
  have hbytes : Bytes.ofTable encode values = (Bytes.ofUInt16 values.length.toUInt16 ++
      (values.take (values.length % 2 ^ 16)).flatMap encode) ++ (values.drop (values.length % 2 ^ 16)).flatMap
      encode := by
    unfold Bytes.ofTable
    rw [List.append_assoc, ← List.flatMap_append, List.take_append_drop]
  rw [hbytes, hread position, List.length_append]
  rfl

end Reader

/-- A table of lines is refused if it has more entries than can be counted. -/
theorem LineEntry.decodeTable_long {entries : List LineEntry} (hlen : 2 ^ 16 ≤ entries.length) :
    decodeTable (Bytes.ofTable encode entries) = .error (.attributeLength tableName) := by
  have hleft : ((entries.drop (entries.length % 2 ^ 16)).flatMap encode).isEmpty = false := by
    have hlt : entries.length % 2 ^ 16 < entries.length := Nat.lt_of_lt_of_le (Nat.mod_lt _ (by decide)) hlen
    rw [List.drop_eq_getElem_cons hlt]
    rfl
  unfold decodeTable Attribute.decodeInfo Cursor.start
  rw [Reader.table_cut (fun entry _ => read_yields entry) 0]
  exact if_neg (Bool.not_eq_true _ ▸ hleft)

/-! ## Bodies -/

namespace CodeAttribute

variable {body : CodeAttribute}

/-- Class index 0 stands for no class, so a handler that catches some class needs another one. -/
theorem readHandler_yields {handler : Handler UInt16 UInt16} (h : handler.catches ≠ some 0) :
    readHandler.Yields (encodeHandler handler) handler := by
  obtain ⟨start, stop, target, catches⟩ := handler
  have hback : (if catches.getD 0 = 0 then none else some (catches.getD 0)) = catches := by
    cases catches with
    | none => rfl
    | some index => exact if_neg fun hzero : index = 0 => h (by rw [hzero])
  have hcaught := (Reader.yields_u16 (catches.getD 0)).bind_pure fun caught =>
    (Handler.mk start stop target (if caught = 0 then none else some caught) : Handler UInt16 UInt16)
  rw [hback] at hcaught
  unfold encodeHandler
  simp only [List.append_assoc]
  exact (Reader.yields_u16 start).bind ((Reader.yields_u16 stop).bind ((Reader.yields_u16 target).bind hcaught))

/-- What a body needs so that none of its counts is cut. -/
structure Fits (body : CodeAttribute) : Prop where
  code_pos : body.code ≠ []
  code : body.code.length ≤ maxCodeLength
  handlers : body.handlers.length < 2 ^ 16
  catches : ∀ handler ∈ body.handlers, handler.catches ≠ some 0
  attributes : body.attributes.length < 2 ^ 16
  infos : ∀ entry ∈ body.attributes, entry.info.length < 2 ^ 32

theorem readCode_yields (h : body.Fits) :
    readCode.Yields (Bytes.ofUInt32 body.code.length.toUInt32 ++ body.code) body.code := by
  have hle := h.code
  unfold maxCodeLength at hle
  have hlen : body.code.length.toUInt32.toNat = body.code.length := by
    rw [UInt32.toNat_ofNat', Nat.mod_eq_of_lt (by omega)]
  have hpos := List.length_pos_iff.mpr h.code_pos
  refine (Reader.yields_u32 _).bind ?_
  rw [if_neg, if_neg, hlen]
  · exact Reader.yields_bytes body.code
  · rw [hlen]
    exact Nat.not_lt.mpr h.code
  · intro hzero
    rw [hzero] at hlen
    change 0 = _ at hlen
    omega

theorem read_yields (h : body.Fits) : read.Yields body.encode body := by
  have hcode := readCode_yields h
  have hhandlers := Reader.yields_table h.handlers fun handler hmem => readHandler_yields
    (h.catches handler hmem)
  have hattributes := Reader.yields_table h.attributes fun entry hmem => Attribute.read_yields
    (h.infos entry hmem)
  have hbytes : body.encode = Bytes.ofUInt16 body.maxStack ++ (Bytes.ofUInt16 body.maxLocals ++
      ((Bytes.ofUInt32 body.code.length.toUInt32 ++ body.code) ++ (Bytes.ofTable encodeHandler body.handlers ++
        Bytes.ofTable Attribute.encode body.attributes))) := by
    unfold encode
    simp only [List.append_assoc]
  rw [hbytes]
  exact (Reader.yields_u16 _).bind ((Reader.yields_u16 _).bind (hcode.bind (hhandlers.bind
    (hattributes.bind_pure (CodeAttribute.mk body.maxStack body.maxLocals body.code body.handlers)))))

/-! ## What is read is what would be written -/

theorem readHandler_gives : readHandler.Gives fun handler => handler.catches ≠ some 0 := by
  refine Reader.moves_u16.bind fun start => Reader.moves_u16.bind fun stop =>
      Reader.moves_u16.bind fun target =>
    Reader.moves_u16.bind fun caught => Reader.gives_pure ?_
  dsimp only
  split_ifs with hzero
  · exact (Option.some_ne_none 0).symm
  · exact fun heq => hzero (Option.some.inj heq)

theorem readCode_gives : readCode.Gives fun code => code ≠ [] ∧ code.length ≤ maxCodeLength := by
  refine Reader.moves_u32.bind fun length => ?_
  split_ifs with hzero hlong
  · exact Reader.gives_fail
  · exact Reader.gives_fail
  · refine (Reader.bytes_gives _).imp fun code hcode => ⟨?_, hcode ▸ Nat.le_of_not_lt hlong⟩
    rintro rfl
    exact hzero (UInt32.toNat_inj.mp hcode.symm)

/-- Whatever body is read, it fits. -/
theorem read_gives : read.Gives Fits := by
  refine Reader.moves_u16.bind fun maxStack => Reader.moves_u16.bind fun maxLocals =>
      readCode_gives.bind fun code hcode =>
    (Reader.table_gives readHandler_gives).bind fun handlers hhandlers =>
      (Reader.table_gives Attribute.read_gives).bind fun attributes hattributes => Reader.gives_pure ?_
  exact ⟨hcode.1, hcode.2, hhandlers.1, hhandlers.2, hattributes.1, hattributes.2⟩

theorem takes_readHandler : readHandler.TakesWritten encodeHandler := by
  refine Reader.takes_u16.bind fun _ start hstart => Reader.takes_u16.bind fun _ stop hstop =>
    Reader.takes_u16.bind fun _ target htarget => Reader.takes_u16.bind fun _ caught hcaught =>
      Reader.takes_pure ?_
  have hback : (if caught = 0 then none else some caught).getD 0 = caught := by
    split_ifs with hzero
    · exact hzero.symm
    · rfl
  simp [hstart, hstop, htarget, hcaught, encodeHandler, hback]

theorem takes_readCode : readCode.TakesWritten fun code => Bytes.ofUInt32 code.length.toUInt32 ++ code := by
  refine Reader.takes_u32.bind fun _ length hlength => ?_
  split_ifs
  · exact Reader.takes_fail
  · exact Reader.takes_fail
  · refine (Reader.takes_bytes _).imp ?_
    rintro _ code ⟨rfl, hcode⟩
    simp [hlength, hcode]

theorem takes_read : read.TakesWritten encode := by
  refine Reader.takes_u16.bind fun _ maxStack hstack => Reader.takes_u16.bind fun _ maxLocals hlocals =>
    takes_readCode.bind fun _ code hcode => (Reader.takes_table_written takes_readHandler).bind
        fun _ handlers hhandlers =>
      (Reader.takes_table_written Attribute.takes_read).bind fun _ attributes hattributes =>
        Reader.takes_pure ?_
  simp [hstack, hlocals, hcode, hhandlers, hattributes, encode]

/-- Bodies that fit, and no others, are read, each from what is written for it. -/
theorem inverts_decode : Outcome.Inverts decode encode Fits :=
  Attribute.inverts_decodeInfo (fun _ => read_yields) read_gives takes_read

/-- The contents that a body was read from are those that are written for it. -/
theorem encode_eq_of_decode {info : Bytes} (h : decode info = .ok body) : body.encode = info :=
  ((inverts_decode info body).mp h).2

/-- The code stands before anything of which there can be too many, so it is read from the contents of any body. -/
theorem code_of_decode {attr : CodeAttribute} (hlen : attr.code.length ≤ maxCodeLength)
    (h : decode attr.encode = .ok body) : body.code = attr.code := by
  have hmax : maxCodeLength = 65535 := rfl
  have hcode := ((inverts_decode _ _).mp h).1.code
  have heq := encode_eq_of_decode h
  unfold encode at heq
  simp only [List.append_assoc] at heq
  obtain ⟨-, heq⟩ := List.append_inj heq rfl
  obtain ⟨-, heq⟩ := List.append_inj heq rfl
  obtain ⟨hword, heq⟩ := List.append_inj heq rfl
  have hlength : body.code.length = attr.code.length := by
    have hsame := congrArg UInt32.toNat (Bytes.ofUInt32_inj hword)
    simp only [Nat.toUInt32, UInt32.toNat_ofNat'] at hsame
    omega
  exact (List.append_inj heq hlength).1

end CodeAttribute

end ClassWeave
