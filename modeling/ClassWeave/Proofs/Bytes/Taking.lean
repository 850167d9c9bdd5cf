import ClassWeave.Proofs.Bytes.Reading
import ClassWeave.Proofs.Lists

/-!
# What a reader takes

`reader.Takes spec` says that the reader, whenever it gives a value, took bytes off the front that `spec`
relates to the value. It is the converse of `Reader.Yields`: where `spec` says that the bytes are those that
would be written for the value, nothing is read but what would be written. What is taken to get to a multiple of
four hangs on the position, so there is `TakesAt` for it.
-/

namespace ClassWeave

namespace Bytes

/-! ## Words put together -/

theorem ofUInt16_word16 (a b : UInt8) : ofUInt16 (word16 a b) = [a, b] := by
  have ha := a.toNat_lt
  have hb := b.toNat_lt
  simp only [ofUInt16, List.cons.injEq, ← UInt8.toNat_inj, UInt16.toNat_toUInt8, UInt16.toNat_shiftRight,
    toNat_word16, Nat.shiftRight_eq_div_pow, show (8 : UInt16).toNat % 16 = 8 from rfl, and_true]
  omega

theorem ofUInt32_word32 (a b c d : UInt8) : ofUInt32 (word32 a b c d) = [a, b, c, d] := by
  have ha := a.toNat_lt
  have hb := b.toNat_lt
  have hc := c.toNat_lt
  have hd := d.toNat_lt
  simp only [ofUInt32, List.cons.injEq, ← UInt8.toNat_inj, UInt32.toNat_toUInt8, UInt32.toNat_shiftRight,
    toNat_word32, Nat.shiftRight_eq_div_pow, show (8 : UInt32).toNat % 32 = 8 from rfl,
    show (16 : UInt32).toNat % 32 = 16 from rfl, show (24 : UInt32).toNat % 32 = 24 from rfl, and_true]
  omega

theorem ofUInt64_word64 (high low : UInt32) : ofUInt64 (word64 high low) = ofUInt32 high ++ ofUInt32 low := by
  have hh := high.toNat_lt
  have hl := low.toNat_lt
  have hhigh : (word64 high low >>> 32).toUInt32 = high := by
    simp only [← UInt32.toNat_inj, UInt64.toNat_toUInt32, UInt64.toNat_shiftRight, toNat_word64,
      Nat.shiftRight_eq_div_pow, show (32 : UInt64).toNat % 64 = 32 from rfl]
    omega
  have hlow : (word64 high low).toUInt32 = low := by
    simp only [← UInt32.toNat_inj, UInt64.toNat_toUInt32, toNat_word64]
    omega
  rw [ofUInt64, hhigh, hlow]

end Bytes

namespace Reader

variable {α β : Type}

/-- Whenever the reader gives a value, it took bytes off the front that `spec` relates to the value. -/
def Takes (reader : Reader α) (spec : Bytes → α → Prop) : Prop :=
  ∀ ⦃cursor cursor' : Cursor⦄ ⦃a : α⦄, reader cursor = .ok (a, cursor') →
    ∃ taken, cursor.rest = taken ++ cursor'.rest ∧ spec taken a

/-- The reader takes exactly the bytes that are written for what it gives. -/
abbrev TakesWritten (reader : Reader α) (encode : α → Bytes) : Prop :=
  reader.Takes fun taken a => taken = encode a

/-! ## Sequences -/

theorem Takes.imp {reader : Reader α} {spec spec' : Bytes → α → Prop} (h : reader.Takes spec)
    (himp : ∀ taken a, spec taken a → spec' taken a) : reader.Takes spec' := by
  intro cursor cursor' a ha
  obtain ⟨taken, hrest, hspec⟩ := h ha
  exact ⟨taken, hrest, himp _ _ hspec⟩

theorem takes_pure {spec : Bytes → α → Prop} {a : α} (h : spec [] a) : (pure a : Reader α).Takes spec := by
  intro cursor cursor' b hb
  obtain ⟨rfl, rfl⟩ := Outcome.reader_pure.mp hb
  exact ⟨[], rfl, h⟩

theorem takes_fail {spec : Bytes → α → Prop} {reason : Malformed} : (fail reason : Reader α).Takes spec := by
  intro cursor cursor' a ha
  cases ha

/-- What follows is told what was taken before it. -/
theorem Takes.bind {reader : Reader α} {next : α → Reader β} {spec : Bytes → α → Prop}
    {spec' : Bytes → β → Prop} (h : reader.Takes spec)
    (h' : ∀ taken a, spec taken a → (next a).Takes fun more b => spec' (taken ++ more) b) :
    (reader >>= next).Takes spec' := by
  intro cursor cursor' b hb
  obtain ⟨a, middle, ha, hb⟩ := Outcome.reader_bind.mp hb
  obtain ⟨taken, hrest, hspec⟩ := h ha
  obtain ⟨more, hmore, hspec'⟩ := h' taken a hspec hb
  exact ⟨taken ++ more, by rw [hrest, hmore, List.append_assoc], hspec'⟩

theorem takes_ofExcept (result : Except Malformed α) :
    (ofExcept result).Takes fun taken a => taken = [] ∧ result = .ok a := by
  intro cursor cursor' a ha
  cases result with
  | error reason => cases ha
  | ok value =>
    cases ha
    exact ⟨[], rfl, rfl, rfl⟩

theorem takes_position : position.Takes fun taken _ => taken = [] := by
  intro cursor cursor' a ha
  cases ha
  exact ⟨[], rfl, rfl⟩

/-- A check takes nothing, whether or not it is made. -/
theorem Takes.guard {condition : Prop} [Decidable condition] {check : Reader Unit} {checked : Prop}
    {next : Unit → Reader β} {spec : Bytes → β → Prop}
    (hcheck : check.Takes fun taken _ => taken = [] ∧ checked)
    (h : (condition → checked) → (next ()).Takes spec) :
    (if condition then check >>= next else next ()).Takes spec := by
  split_ifs with hc
  · refine hcheck.bind ?_
    rintro taken _ ⟨rfl, hchecked⟩
    exact h fun _ => hchecked
  · exact h fun hc' => absurd hc' hc

/-! ## Words -/

theorem takes_u8 : u8.TakesWritten fun w => [w] := by
  rintro ⟨rest, position⟩ cursor' w h
  unfold u8 at h
  split at h
  · rename_i heq
    cases heq
    cases h
    exact ⟨_, rfl, rfl⟩
  · cases h

theorem takes_u16 : u16.TakesWritten Bytes.ofUInt16 := by
  rintro ⟨rest, position⟩ cursor' w h
  unfold u16 at h
  split at h
  · rename_i heq
    cases heq
    cases h
    exact ⟨_, rfl, (Bytes.ofUInt16_word16 _ _).symm⟩
  · cases h

theorem takes_u32 : u32.TakesWritten Bytes.ofUInt32 := by
  rintro ⟨rest, position⟩ cursor' w h
  unfold u32 at h
  split at h
  · rename_i heq
    cases heq
    cases h
    exact ⟨_, rfl, (Bytes.ofUInt32_word32 _ _ _ _).symm⟩
  · cases h

theorem takes_u64 : u64.TakesWritten Bytes.ofUInt64 := by
  rintro ⟨rest, position⟩ cursor' w h
  unfold u64 at h
  split at h
  · rename_i heq
    cases heq
    cases h
    refine ⟨[_, _, _, _, _, _, _, _], rfl, ?_⟩
    simp only [Bytes.ofUInt64_word64, Bytes.ofUInt32_word32, List.cons_append, List.nil_append]
  · cases h

theorem takes_i8 : i8.TakesWritten Bytes.ofInt8 := by
  refine takes_u8.bind fun taken w hw => takes_pure ?_
  rw [hw, List.append_nil, Bytes.ofInt8, UInt8.toUInt8_toInt8]

theorem takes_i16 : i16.TakesWritten Bytes.ofInt16 := by
  refine takes_u16.bind fun taken w hw => takes_pure ?_
  rw [hw, List.append_nil, Bytes.ofInt16, UInt16.toUInt16_toInt16]

theorem takes_i32 : i32.TakesWritten Bytes.ofInt32 := by
  refine takes_u32.bind fun taken w hw => takes_pure ?_
  rw [hw, List.append_nil, Bytes.ofInt32, UInt32.toUInt32_toInt32]

/-! ## Runs -/

theorem takes_bytes (count : Nat) : (bytes count).Takes fun taken bs => taken = bs ∧ bs.length = count := by
  rintro ⟨rest, position⟩ cursor' bs h
  unfold bytes at h
  dsimp only at h
  split_ifs at h with hlen
  cases h
  exact ⟨_, (List.take_append_drop count rest).symm, rfl, hlen⟩

/-- Each thing of a run takes its own part of the bytes. -/
theorem takes_times {reader : Reader α} {spec : Bytes → α → Prop} (h : reader.Takes spec) (count : Nat) :
    (times reader count).Takes fun taken values =>
      values.length = count ∧ ∃ parts, taken = parts.flatten ∧ List.Forall₂ spec parts values := by
  induction count with
  | zero => exact takes_pure ⟨rfl, [], rfl, .nil⟩
  | succ count ih =>
    refine h.bind fun part first hfirst => ih.bind ?_
    rintro _ others ⟨hlen, parts, rfl, hparts⟩
    exact takes_pure ⟨congrArg (· + 1) hlen, part :: parts, by simp, .cons hfirst hparts⟩

/-- A table takes its count, which is cut nowhere, and the parts of its entries. -/
theorem takes_table {reader : Reader α} {spec : Bytes → α → Prop} (h : reader.Takes spec) :
    (table reader).Takes fun taken values => ∃ parts,
      taken = Bytes.ofUInt16 values.length.toUInt16 ++ parts.flatten ∧ List.Forall₂ spec parts values := by
  refine takes_u16.bind fun taken count hcount => (takes_times h count.toNat).imp ?_
  rintro _ values ⟨hlen, parts, rfl, hparts⟩
  refine ⟨parts, ?_, hparts⟩
  rw [hcount, hlen, Nat.toUInt16_eq, UInt16.ofNat_toNat]

theorem takes_table_written {reader : Reader α} {encode : α → Bytes} (h : reader.TakesWritten encode) :
    (table reader).TakesWritten (Bytes.ofTable encode) := by
  refine (takes_table h).imp ?_
  rintro taken values ⟨parts, rfl, hparts⟩
  rw [Lists.flatten_of_forall₂ hparts, Bytes.ofTable]

/-- If no thing of a run is written with more bytes than it was read from, neither is the run. -/
theorem length_flatMap_le {encode : α → Bytes} {parts : List Bytes} {values : List α}
    (h : List.Forall₂ (fun part a => (encode a).length ≤ part.length) parts values) :
    (values.flatMap encode).length ≤ parts.flatten.length := by
  induction h with
  | nil => exact Nat.le_refl 0
  | cons hpart _ ih =>
    rw [List.flatMap_cons, List.flatten_cons, List.length_append, List.length_append]
    exact Nat.add_le_add hpart ih

/-- The same of a table, whose count takes as much either way. -/
theorem takes_table_shorter {reader : Reader α} {encode : α → Bytes}
    (h : reader.Takes fun taken a => (encode a).length ≤ taken.length) :
    (table reader).Takes fun taken values => (Bytes.ofTable encode values).length ≤ taken.length := by
  refine (takes_table h).imp ?_
  rintro _ values ⟨parts, rfl, hparts⟩
  rw [Bytes.ofTable, List.length_append, List.length_append]
  exact Nat.add_le_add_left (length_flatMap_le hparts) _

/-! ## Alignment -/

/-- Whenever the reader gives a value at `position`, it took bytes off the front that `spec` relates to the
value. -/
def TakesAt (reader : Reader α) (position : Nat) (spec : Bytes → α → Prop) : Prop :=
  ∀ ⦃rest : Bytes⦄ ⦃cursor' : Cursor⦄ ⦃a : α⦄, reader ⟨rest, position⟩ = .ok (a, cursor') →
    ∃ taken, rest = taken ++ cursor'.rest ∧ spec taken a

theorem takesAt_alignTo4 (position : Nat) :
    alignTo4.TakesAt position fun taken _ => taken.length = (4 - position % 4) % 4 := by
  intro rest cursor' a h
  obtain ⟨p, cursor1, hp, h⟩ := Outcome.reader_bind.mp h
  cases hp
  obtain ⟨padding, cursor2, hpadding, h⟩ := Outcome.reader_bind.mp h
  obtain ⟨-, rfl⟩ := Outcome.reader_pure.mp h
  obtain ⟨taken, hrest, rfl, hlen⟩ := takes_bytes _ hpadding
  exact ⟨taken, hrest, hlen⟩

theorem takes_alignTo4 : alignTo4.Takes fun _ _ => True := by
  intro cursor cursor' a h
  obtain ⟨taken, hrest, -⟩ := takesAt_alignTo4 cursor.position h
  exact ⟨taken, hrest, trivial⟩

theorem TakesAt.bind {reader : Reader α} {position : Nat} {next : α → Reader β} {spec : Bytes → α → Prop}
    {spec' : Bytes → β → Prop} (h : reader.TakesAt position spec)
    (h' : ∀ taken a, spec taken a → (next a).Takes fun more b => spec' (taken ++ more) b) :
    (reader >>= next).TakesAt position spec' := by
  intro rest cursor' b hb
  obtain ⟨a, middle, ha, hb⟩ := Outcome.reader_bind.mp hb
  obtain ⟨taken, hrest, hspec⟩ := h ha
  obtain ⟨more, hmore, hspec'⟩ := h' taken a hspec hb
  exact ⟨taken ++ more, by rw [hrest, hmore, List.append_assoc], hspec'⟩

end Reader

/-! ## Attributes -/

namespace Attribute

theorem takes_read : read.TakesWritten encode := by
  refine Reader.takes_u16.bind fun taken name hname => Reader.takes_u32.bind fun taken' length hlength =>
    (Reader.takes_bytes _).bind ?_
  rintro _ info ⟨rfl, hinfo⟩
  refine Reader.takes_pure ?_
  simp [hname, hlength, encode, hinfo]

/-- The contents of an attribute that was read are just what its reader took. -/
theorem takes_of_decodeInfo {α : Type} {name : String} {contents : Reader α} {spec : Bytes → α → Prop}
    (hcontents : contents.Takes spec) {info : Bytes} {value : α}
    (h : decodeInfo name contents info = .ok value) : spec info value := by
  unfold decodeInfo at h
  split at h
  · rename_i found cursor hread
    split_ifs at h with hdone
    cases h
    obtain ⟨taken, hrest, hspec⟩ := hcontents hread
    rw [List.isEmpty_iff.mp hdone, List.append_nil] at hrest
    obtain rfl : info = taken := hrest
    exact hspec
  · cases h
  · cases h

/-- A reader that reads what is written, and nothing else, makes reading an attribute the inverse of writing it. -/
theorem inverts_decodeInfo {α : Type} {name : String} {contents : Reader α} {encode : α → Bytes}
    {valid : α → Prop} (hback : ∀ a, valid a → contents.Yields (encode a) a) (hgives : contents.Gives valid)
    (htakes : contents.TakesWritten encode) : Outcome.Inverts (decodeInfo name contents) encode valid :=
  Outcome.inverts_of (fun a hvalid => decodeInfo_of_yields (hback a hvalid)) fun _ _ hread =>
    ⟨gives_of_decodeInfo hgives hread, (takes_of_decodeInfo htakes hread).symm⟩

end Attribute

end ClassWeave
