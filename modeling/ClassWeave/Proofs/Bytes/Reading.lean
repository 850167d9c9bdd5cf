import ClassWeave.Attribute
import ClassWeave.Proofs.Bytes.Words
import ClassWeave.Proofs.Outcome

/-!
# What a reader makes of bytes

`reader.Yields bytes value` says that the reader, wherever it stands, takes exactly `bytes` off the front and gives
`value`. The words of the format are read back, and yielding composes along sequences, repetitions and tables. A
reader whose outcome hangs on its position has `YieldsAt` in place of `Yields`. The other way round,
`reader.Gives post` says what holds of everything that the reader gives.
-/

namespace ClassWeave

namespace Reader

variable {α β : Type}

/-- At `position`, the reader takes `bytes` and gives `value`, whatever follows. -/
def YieldsAt (reader : Reader α) (position : Nat) (bytes : Bytes) (value : α) : Prop :=
  ∀ rest, reader ⟨bytes ++ rest, position⟩ = .ok (value, ⟨rest, position + bytes.length⟩)

/-- At any position, the reader takes `bytes` and gives `value`, whatever follows. -/
def Yields (reader : Reader α) (bytes : Bytes) (value : α) : Prop :=
  ∀ position, reader.YieldsAt position bytes value

/-! ## Sequences -/

theorem yieldsAt_pure (position : Nat) (value : α) : (pure value : Reader α).YieldsAt position [] value :=
  fun _ => rfl

theorem yields_pure (value : α) : (pure value : Reader α).Yields [] value :=
  fun position => yieldsAt_pure position value

theorem YieldsAt.bind {reader : Reader α} {next : α → Reader β} {position : Nat} {bytes more : Bytes}
    {a : α} {b : β} (h : reader.YieldsAt position bytes a)
    (h' : (next a).YieldsAt (position + bytes.length) more b) : (reader >>= next).YieldsAt position
    (bytes ++ more) b := by
  intro rest
  rw [List.append_assoc, Outcome.reader_bind_of (h (more ++ rest)), h' rest, List.length_append, Nat.add_assoc]

theorem Yields.bind {reader : Reader α} {next : α → Reader β} {bytes more : Bytes} {a : α} {b : β}
    (h : reader.Yields bytes a) (h' : (next a).Yields more b) : (reader >>= next).Yields (bytes ++ more) b :=
  fun position => (h position).bind (h' _)

/-- A reader followed by one that takes nothing more. -/
theorem YieldsAt.bind_pure {reader : Reader α} {position : Nat} {bytes : Bytes} {a : α}
    (h : reader.YieldsAt position bytes a) (f : α → β) :
    (reader >>= fun a => pure (f a)).YieldsAt position bytes (f a) := by
  have h' : (reader >>= fun a => pure (f a)).YieldsAt position (bytes ++ []) (f a) :=
    h.bind (yieldsAt_pure _ (f a))
  rwa [List.append_nil] at h'

theorem Yields.bind_pure {reader : Reader α} {bytes : Bytes} {a : α} (h : reader.Yields bytes a) (f : α → β) :
    (reader >>= fun a => pure (f a)).Yields bytes (f a) :=
  fun position => (h position).bind_pure f

/-- The position is read without taking anything. -/
theorem YieldsAt.bind_position {next : Nat → Reader β} {position : Nat} {bytes : Bytes} {b : β}
    (h : (next position).YieldsAt position bytes b) : (Reader.position >>= next).YieldsAt position bytes b := by
  intro rest
  have h0 : Reader.position ⟨bytes ++ rest, position⟩ = .ok (position, ⟨bytes ++ rest, position⟩) := rfl
  rw [Outcome.reader_bind_of h0, h rest]

theorem yieldsAt_ofExcept {result : Except Malformed α} {value : α} (position : Nat) (h : result = .ok value) :
    (ofExcept result).YieldsAt position [] value := by
  subst h
  exact fun _ => rfl

theorem yields_ofExcept {result : Except Malformed α} {value : α} (h : result = .ok value) :
    (ofExcept result).Yields [] value :=
  fun position => yieldsAt_ofExcept position h

/-! ## Words -/

theorem yields_u8 (w : UInt8) : u8.Yields [w] w :=
  fun _ _ => rfl

theorem yields_u16 (w : UInt16) : u16.Yields (Bytes.ofUInt16 w) w := by
  intro position rest
  change Except.ok (Bytes.word16 (w >>> 8).toUInt8 w.toUInt8, _) = _
  rw [Bytes.word16_ofUInt16]
  rfl

theorem yields_u32 (w : UInt32) : u32.Yields (Bytes.ofUInt32 w) w := by
  intro position rest
  change Except.ok (Bytes.word32 (w >>> 24).toUInt8 (w >>> 16).toUInt8 (w >>> 8).toUInt8 w.toUInt8, _) = _
  rw [Bytes.word32_ofUInt32]
  rfl

theorem yields_u64 (w : UInt64) : u64.Yields (Bytes.ofUInt64 w) w := by
  intro position rest
  have hh := Bytes.word32_ofUInt32 (w >>> 32).toUInt32
  have hl := Bytes.word32_ofUInt32 w.toUInt32
  have h : u64 ⟨Bytes.ofUInt64 w ++ rest, position⟩ = .ok (Bytes.word64
      (Bytes.word32 ((w >>> 32).toUInt32 >>> 24).toUInt8 ((w >>> 32).toUInt32 >>> 16).toUInt8
        ((w >>> 32).toUInt32 >>> 8).toUInt8 (w >>> 32).toUInt32.toUInt8)
      (Bytes.word32 (w.toUInt32 >>> 24).toUInt8 (w.toUInt32 >>> 16).toUInt8 (w.toUInt32 >>> 8).toUInt8
        w.toUInt32.toUInt8), ⟨rest, position + 8⟩) := rfl
  rw [h, hh, hl, Bytes.word64_ofUInt64]
  rfl

theorem yields_i8 (w : Int8) : i8.Yields (Bytes.ofInt8 w) w := by
  have h := (yields_u8 w.toUInt8).bind_pure UInt8.toInt8
  rwa [Int8.toInt8_toUInt8] at h

theorem yields_i16 (w : Int16) : i16.Yields (Bytes.ofInt16 w) w := by
  have h := (yields_u16 w.toUInt16).bind_pure UInt16.toInt16
  rwa [Int16.toInt16_toUInt16] at h

theorem yields_i32 (w : Int32) : i32.Yields (Bytes.ofInt32 w) w := by
  have h := (yields_u32 w.toUInt32).bind_pure UInt32.toInt32
  rwa [Int32.toInt32_toUInt32] at h

/-! ## Runs -/

theorem yields_bytes (bs : Bytes) : (bytes bs.length).Yields bs bs := by
  intro position rest
  simp only [bytes, List.take_left, List.drop_left, if_true]

theorem yieldsAt_alignTo4 {position : Nat} {padding : Bytes} (h : padding.length = (4 - position % 4) % 4) :
    alignTo4.YieldsAt position padding () := by
  have h1 := (yields_bytes padding position).bind_pure fun _ => ()
  rw [h] at h1
  exact h1.bind_position

/-- Things written one after the other, each in its own way, are read one after the other. -/
theorem yields_times_map {reader : Reader α} {encode : β → Bytes} {value : β → α} :
    ∀ {xs : List β}, (∀ x ∈ xs, reader.Yields (encode x) (value x)) →
      (times reader xs.length).Yields (xs.flatMap encode) (xs.map value)
  | [], _ => yields_pure []
  | x :: xs, h => by
    have htail := yields_times_map fun x' hx' => h x' (List.mem_cons_of_mem _ hx')
    exact Yields.bind (h x List.mem_cons_self) (htail.bind_pure (value x :: ·))

theorem yields_times {reader : Reader α} {encode : α → Bytes} {values : List α}
    (h : ∀ v ∈ values, reader.Yields (encode v) v) : (times reader values.length).Yields
    (values.flatMap encode) values := by
  have h1 : (times reader values.length).Yields (values.flatMap encode) (values.map id) := yields_times_map h
  rwa [List.map_id] at h1

/-- A table whose count is not cut is read back. -/
theorem yields_table {reader : Reader α} {encode : α → Bytes} {values : List α}
    (hlen : values.length < 2 ^ 16) (h : ∀ v ∈ values, reader.Yields (encode v) v) :
    (table reader).Yields (Bytes.ofTable encode values) values := by
  have h1 := yields_times h
  have h2 : values.length.toUInt16.toNat = values.length := by
    rw [UInt16.toNat_ofNat', Nat.mod_eq_of_lt hlen]
  rw [← h2] at h1
  exact (yields_u16 values.length.toUInt16).bind h1

/-! ## What was read -/

/-- Whatever the reader gives is as it should be, and the bytes that are left are those after the bytes that it
took. -/
def Gives (reader : Reader α) (post : α → Prop) : Prop :=
  ∀ ⦃cursor cursor' : Cursor⦄ ⦃a : α⦄, reader cursor = .ok (a, cursor') →
    post a ∧ cursor.position ≤ cursor'.position ∧
      cursor'.position + cursor'.rest.length = cursor.position + cursor.rest.length

/-- A reader that takes bytes off the front, whatever it gives. -/
abbrev Moves (reader : Reader α) : Prop :=
  reader.Gives fun _ => True

theorem Gives.imp {reader : Reader α} {post post' : α → Prop} (h : reader.Gives post)
    (himp : ∀ a, post a → post' a) : reader.Gives post' :=
  fun _ _ _ ha => ⟨himp _ (h ha).1, (h ha).2⟩

theorem Gives.moves {reader : Reader α} {post : α → Prop} (h : reader.Gives post) : reader.Moves :=
  h.imp fun _ _ => trivial

theorem Moves.gives {reader : Reader α} {post : α → Prop} (h : reader.Moves)
    (hpost : ∀ {cursor cursor' a}, reader cursor = .ok (a, cursor') → post a) : reader.Gives post :=
  fun _ _ _ ha => ⟨hpost ha, (h ha).2⟩

theorem gives_pure {post : α → Prop} {a : α} (h : post a) : (pure a : Reader α).Gives post := by
  intro cursor cursor' b hb
  obtain ⟨rfl, rfl⟩ := Outcome.reader_pure.mp hb
  exact ⟨h, Nat.le_refl _, rfl⟩

theorem gives_fail {post : α → Prop} {reason : Malformed} : (fail reason : Reader α).Gives post :=
  fun _ _ _ h => nomatch h

theorem gives_ofExcept {post : α → Prop} {result : Except Malformed α} (h : ∀ a, result = .ok a → post a) :
    (ofExcept result).Gives post := by
  intro cursor cursor' a ha
  unfold ofExcept at ha
  cases hresult : result with
  | error reason =>
    rw [hresult] at ha
    cases ha
  | ok value =>
    rw [hresult] at ha
    cases ha
    exact ⟨h a hresult, Nat.le_refl _, rfl⟩

theorem Gives.bind {reader : Reader α} {next : α → Reader β} {post : α → Prop} {post' : β → Prop}
    (h : reader.Gives post) (h' : ∀ a, post a → (next a).Gives post') : (reader >>= next).Gives post' := by
  intro cursor cursor' b hb
  obtain ⟨a, cursor1, ha, hb⟩ := Outcome.reader_bind.mp hb
  obtain ⟨hpost, hle, hlen⟩ := h ha
  obtain ⟨hpost', hle', hlen'⟩ := h' a hpost hb
  exact ⟨hpost', Nat.le_trans hle hle', hlen'.trans hlen⟩

theorem Moves.bind {reader : Reader α} {next : α → Reader β} {post : β → Prop} (h : reader.Moves)
    (h' : ∀ a, (next a).Gives post) : (reader >>= next).Gives post :=
  Gives.bind h fun a _ => h' a

theorem moves_position : position.Moves := by
  rintro ⟨rest, start⟩ cursor' a h
  cases h
  exact ⟨trivial, Nat.le_refl _, rfl⟩

theorem moves_u8 : u8.Moves := by
  rintro ⟨rest, start⟩ cursor' a h
  unfold u8 at h
  split at h
  · rename_i heq
    cases heq
    cases h
    exact ⟨trivial, Nat.le_succ _, by simp only [List.length_cons]; omega⟩
  · cases h

theorem moves_u16 : u16.Moves := by
  rintro ⟨rest, start⟩ cursor' a h
  unfold u16 at h
  split at h
  · rename_i heq
    cases heq
    cases h
    exact ⟨trivial, Nat.le_add_right _ _, by simp only [List.length_cons]; omega⟩
  · cases h

theorem moves_u32 : u32.Moves := by
  rintro ⟨rest, start⟩ cursor' a h
  unfold u32 at h
  split at h
  · rename_i heq
    cases heq
    cases h
    exact ⟨trivial, Nat.le_add_right _ _, by simp only [List.length_cons]; omega⟩
  · cases h

theorem moves_u64 : u64.Moves := by
  rintro ⟨rest, start⟩ cursor' a h
  unfold u64 at h
  split at h
  · rename_i heq
    cases heq
    cases h
    exact ⟨trivial, Nat.le_add_right _ _, by simp only [List.length_cons]; omega⟩
  · cases h

theorem moves_i8 : i8.Moves :=
  moves_u8.bind fun _ => gives_pure trivial

theorem moves_i16 : i16.Moves :=
  moves_u16.bind fun _ => gives_pure trivial

theorem moves_i32 : i32.Moves :=
  moves_u32.bind fun _ => gives_pure trivial

theorem bytes_gives (count : Nat) : (bytes count).Gives fun taken => taken.length = count := by
  rintro ⟨rest, start⟩ cursor' taken h
  unfold bytes at h
  dsimp only at h
  split_ifs at h with hlen
  cases h
  refine ⟨hlen, Nat.le_add_right _ _, ?_⟩
  rw [List.length_take] at hlen
  dsimp only
  rw [List.length_drop]
  omega

theorem moves_alignTo4 : alignTo4.Moves :=
  moves_position.bind fun _ => (bytes_gives _).moves.bind fun _ => gives_pure trivial

theorem times_gives {reader : Reader α} {post : α → Prop} (h : reader.Gives post) : ∀ (count : Nat),
    (times reader count).Gives fun values => values.length = count ∧ ∀ v ∈ values, post v
  | 0 => gives_pure ⟨rfl, fun v hv => absurd hv List.not_mem_nil⟩
  | count + 1 => by
    refine h.bind fun first hfirst => (times_gives h count).bind fun others hothers => gives_pure ?_
    exact ⟨congrArg (· + 1) hothers.1, List.forall_mem_cons.mpr ⟨hfirst, hothers.2⟩⟩

/-- The entries of a table are no more than its count can say. -/
theorem table_gives {reader : Reader α} {post : α → Prop} (h : reader.Gives post) :
    (table reader).Gives fun values => values.length < 2 ^ 16 ∧ ∀ v ∈ values, post v := by
  refine moves_u16.bind fun count => (times_gives h count.toNat).imp fun values hvalues => ⟨?_, hvalues.2⟩
  rw [hvalues.1]
  exact count.toNat_lt

end Reader

/-! ## Attributes -/

namespace Attribute

/-- An attribute whose bytes can be counted in 32 bits. -/
def Fits {ν : Type} (entry : Attribute ν) : Prop :=
  entry.info.length < 2 ^ 32

theorem read_yields {entry : Attribute UInt16} (h : entry.Fits) :
    read.Yields entry.encode entry := by
  have hlen : entry.info.length.toUInt32.toNat = entry.info.length := by
    rw [UInt32.toNat_ofNat', Nat.mod_eq_of_lt h]
  have h1 := Reader.yields_bytes entry.info
  rw [← hlen] at h1
  unfold encode
  rw [List.append_assoc]
  exact (Reader.yields_u16 entry.name).bind
    ((Reader.yields_u32 _).bind (h1.bind_pure (Attribute.mk entry.name)))

theorem read_gives : read.Gives Fits := by
  refine Reader.moves_u16.bind fun name => Reader.moves_u32.bind fun length =>
      (Reader.bytes_gives _).bind fun info hinfo =>
    Reader.gives_pure ?_
  change info.length < 2 ^ 32
  rw [hinfo]
  exact length.toNat_lt

/-- Contents that are read to their last byte are the value of an attribute. -/
theorem decodeInfo_of_yields {α : Type} {name : String} {contents : Reader α} {info : Bytes} {value : α}
    (h : contents.Yields info value) : decodeInfo name contents info = .ok value := by
  have h1 := h 0 []
  rw [List.append_nil] at h1
  unfold decodeInfo Cursor.start
  rw [h1]
  rfl

/-- Whatever the contents of an attribute are, they are as the reader gives them. -/
theorem gives_of_decodeInfo {α : Type} {name : String} {contents : Reader α} {post : α → Prop}
    (hcontents : contents.Gives post) {info : Bytes} {value : α}
    (h : decodeInfo name contents info = .ok value) : post value := by
  unfold decodeInfo at h
  split at h
  · rename_i found cursor hread
    split_ifs at h
    cases h
    exact (hcontents hread).1
  · cases h
  · cases h

end Attribute

end ClassWeave
