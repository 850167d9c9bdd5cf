import ClassWeave.Proofs.Bytes.Reading
import ClassWeave.Proofs.Pool.Growth

/-!
# Pools survive writing

A well-formed pool is read back as it was written, as long as no text in it is longer than the format can say.
What is read is well formed in turn.
-/

namespace ClassWeave

/-! ## Constants -/

namespace Constant

/-- The length of a text fits in 16 bits. -/
def Fits : Constant → Prop
  | .utf8 bytes => bytes.length < 2 ^ 16
  | _ => True

instance : (c : Constant) → Decidable c.Fits
  | .utf8 bytes => inferInstanceAs (Decidable (bytes.length < 2 ^ 16))
  | .integer _ | .float _ | .long _ | .double _ | .classRef _ | .string _ | .fieldRef _ _ | .methodRef _ _ _
  | .nameAndType _ _ | .methodHandle _ _ | .methodType _ | .dynamic _ _ | .invokeDynamic _ _ | .moduleRef _
  | .packageRef _ => .isTrue trivial

variable {index : UInt16} {tag : UInt8}

theorem read_of_operands {bytes : Bytes} {c : Constant} (h : (readOperands index tag).Yields bytes c) :
    (read index).Yields (tag :: bytes) c :=
  (Reader.yields_u8 tag).bind h

theorem read_of_word {w : UInt16} {f : UInt16 → Constant}
    (h : readOperands index tag = (Reader.u16 >>= fun w => pure (f w))) :
    (read index).Yields (tag :: Bytes.ofUInt16 w) (f w) := by
  refine read_of_operands ?_
  rw [h]
  exact (Reader.yields_u16 w).bind_pure f

theorem read_of_words {v w : UInt16} {f : UInt16 → UInt16 → Constant}
    (h : readOperands index tag = (Reader.u16 >>= fun v => Reader.u16 >>= fun w => pure (f v w))) :
    (read index).Yields (tag :: Bytes.ofUInt16 v ++ Bytes.ofUInt16 w) (f v w) := by
  refine read_of_operands ?_
  rw [h]
  exact (Reader.yields_u16 v).bind ((Reader.yields_u16 w).bind_pure (f v))

/-- A constant is read back from its bytes. -/
theorem read_yields (index : UInt16) {c : Constant} (hfits : c.Fits) : (read index).Yields c.encode c := by
  cases c with
  | utf8 bytes =>
    have hlen : bytes.length.toUInt16.toNat = bytes.length := by
      rw [UInt16.toNat_ofNat', Nat.mod_eq_of_lt hfits]
    have h1 := Reader.yields_bytes bytes
    rw [← hlen] at h1
    exact read_of_operands ((Reader.yields_u16 _).bind (h1.bind_pure Constant.utf8))
  | integer value => exact read_of_operands ((Reader.yields_i32 value).bind_pure Constant.integer)
  | float bits => exact read_of_operands ((Reader.yields_u32 bits).bind_pure Constant.float)
  | long value =>
    have h1 := (Reader.yields_u64 value.toUInt64).bind_pure fun w => Constant.long w.toInt64
    rw [Int64.toInt64_toUInt64] at h1
    exact read_of_operands h1
  | double bits => exact read_of_operands ((Reader.yields_u64 bits).bind_pure Constant.double)
  | methodRef owner member isInterface =>
    cases isInterface with
    | false => exact @read_of_words index 10 owner member (Constant.methodRef · · false) rfl
    | true => exact @read_of_words index 11 owner member (Constant.methodRef · · true) rfl
  | methodHandle kind member =>
    have h1 : (readOperands index 15).Yields (kind.code :: Bytes.ofUInt16 member)
        (.methodHandle kind member) := by
      change (Reader.u8 >>= _).Yields _ _
      refine (Reader.yields_u8 kind.code).bind ?_
      rw [HandleKind.ofCode?_code]
      exact (Reader.yields_u16 member).bind_pure (Constant.methodHandle kind)
    exact read_of_operands h1
  | classRef _ | string _ | methodType _ | moduleRef _ | packageRef _ => exact read_of_word rfl
  | fieldRef _ _ | nameAndType _ _ | dynamic _ _ | invokeDynamic _ _ => exact read_of_words rfl

/-- The length of a text that was read is a number of 16 bits, and no other constant is a text. -/
theorem read_gives : (read index).Gives Fits := by
  refine Reader.moves_u8.bind fun tag => ?_
  unfold readOperands
  split
  case h_1 =>
    refine Reader.moves_u16.bind fun length => (Reader.bytes_gives _).bind fun bytes hbytes =>
      Reader.gives_pure ?_
    change bytes.length < 2 ^ 16
    rw [hbytes]
    exact length.toNat_lt
  case h_12 =>
    refine Reader.moves_u8.bind fun code => ?_
    cases HandleKind.ofCode? code with
    | some kind => exact Reader.moves_u16.bind fun member => Reader.gives_pure trivial
    | none => exact Reader.gives_fail
  case h_18 => exact Reader.gives_fail
  all_goals first
    | exact Reader.moves_u16.bind fun _ => Reader.gives_pure trivial
    | exact Reader.moves_u16.bind fun _ => Reader.moves_u16.bind fun _ => Reader.gives_pure trivial
    | exact Reader.moves_u32.bind fun _ => Reader.gives_pure trivial
    | exact Reader.moves_u64.bind fun _ => Reader.gives_pure trivial
    | exact Reader.moves_i32.bind fun _ => Reader.gives_pure trivial

end Constant

namespace Pool

variable {p q : Pool}

/-! ## Entries -/

/-- The constants of a pool, in order. -/
theorem map_snd_entries (p : Pool) : p.entries.map Prod.snd = p.slots.toList.filterMap id := by
  have h : ∀ (slots : List (Option Constant)) (k : Nat),
      ((slots.zipIdx k).filterMap fun slot => slot.1.map fun c => (slot.2, c)).map Prod.snd =
      slots.filterMap id := by
    intro slots
    induction slots with
    | nil => exact fun _ => rfl
    | cons slot slots ih =>
      intro k
      rw [List.zipIdx_cons]
      cases slot with
      | none => exact ih (k + 1)
      | some c => exact congrArg (c :: ·) (ih (k + 1))
  exact h _ 0

theorem constants_ofConstants (cs : List Constant) : (ofConstants cs).entries.map Prod.snd = cs := by
  rw [map_snd_entries, ofConstants_slots]
  change (cs.flatMap Constant.slots).filterMap id = cs
  induction cs with
  | nil => rfl
  | cons c cs ih =>
    rw [List.flatMap_cons, List.filterMap_append, ih]
    unfold Constant.slots
    split_ifs <;> rfl

/-- Entries are what look-ups find. -/
theorem mem_constants (hbound : p.nextIndex ≤ limit) {c : Constant} :
    c ∈ p.entries.map Prod.snd ↔ ∃ i, p.get? i = some c := by
  rw [map_snd_entries, List.mem_filterMap]
  constructor
  · rintro ⟨o, ho, hc⟩
    obtain ⟨k, hk⟩ := List.mem_iff_getElem?.mp ho
    have hlt := (List.getElem?_eq_some_iff.mp hk).1
    have hsize : p.slots.toList.length ≤ 65535 := hbound
    refine ⟨k.toUInt16, ?_⟩
    unfold Pool.get?
    rw [UInt16.toNat_ofNat', Nat.mod_eq_of_lt (by omega), ← Array.getElem?_toList, hk]
    exact hc
  · rintro ⟨i, hi⟩
    unfold Pool.get? at hi
    rw [← Array.getElem?_toList] at hi
    cases hslot : p.slots.toList[i.toNat]? with
    | none => rw [hslot] at hi; cases hi
    | some o =>
      rw [hslot] at hi
      exact ⟨o, List.mem_of_getElem? hslot, hi⟩

theorem mem_of_get?_ofConstants {cs : List Constant} (hbound : (ofConstants cs).nextIndex ≤ limit)
    {i : UInt16} {c : Constant} (h : (ofConstants cs).get? i = some c) : c ∈ cs := by
  have hmem := (mem_constants hbound).mpr ⟨i, h⟩
  rwa [constants_ofConstants] at hmem

/-- A pool is well formed if all of its constants refer to what they should. -/
theorem wellFormed_ofConstants {cs : List Constant} (hbound : (ofConstants cs).nextIndex ≤ limit)
    (hclosed : ∀ c ∈ cs, (ofConstants cs).checkReferences c = .ok ()) : (ofConstants cs).WellFormed :=
  ⟨⟨cs, rfl⟩, hbound, fun _ c h => hclosed c (mem_of_get?_ofConstants hbound h)⟩

theorem fits_ofConstants {cs : List Constant} (hbound : (ofConstants cs).nextIndex ≤ limit)
    (hfits : ∀ c ∈ cs, c.Fits) (i : UInt16) (c : Constant) (h : (ofConstants cs).get? i = some c) : c.Fits :=
  hfits c (mem_of_get?_ofConstants hbound h)

/-- A constant that is not there is put at the end. -/
theorem intern_ofConstants {cs : List Constant} {c : Constant} (hnot : c ∉ cs)
    (hroom : (ofConstants cs).nextIndex + c.width ≤ limit) :
    Interning.intern c (ofConstants cs) = .ok (ofConstants cs).nextIndex.toUInt16
    (ofConstants (cs ++ [c])) := by
  have hbound := Nat.le_of_add_right_le hroom
  have hnew : (ofConstants cs).lowest[c]? = none := by
    cases hlowest : (ofConstants cs).lowest[c]? with
    | none => rfl
    | some i =>
      have hget := lowest_get (fun d j hd => by simp [empty] at hd) hbound c i hlowest
      exact absurd (mem_of_get?_ofConstants hbound hget) hnot
  have hpush : ofConstants (cs ++ [c]) = (ofConstants cs).push c := List.foldl_concat ..
  unfold Interning.intern
  rw [hnew, hpush]
  exact if_pos hroom

/-- All references are right if those of every entry that can be looked up are. -/
theorem validate_eq_ok (hbound : p.nextIndex ≤ limit) :
    p.validate = .ok () ↔ ∀ (i : UInt16) (c : Constant), p.get? i = some c → p.checkReferences c = .ok () := by
  unfold validate
  rw [Outcome.except_forM]
  constructor
  · intro h i c hc
    obtain ⟨entry, hentry, rfl⟩ := List.mem_map.mp ((mem_constants hbound).mpr ⟨i, hc⟩)
    exact h entry hentry
  · intro h entry hentry
    obtain ⟨i, hi⟩ := (mem_constants hbound).mp (List.mem_map.mpr ⟨entry, hentry, rfl⟩)
    exact h i entry.2 hi

/-! ## Pools as bytes -/

theorem nextIndex_foldl : ∀ (cs : List Constant) (p : Pool), p.nextIndex + cs.length ≤
    (cs.foldl push p).nextIndex
  | [], p => Nat.le_refl _
  | c :: cs, p => by
    have h := nextIndex_foldl cs (p.push c)
    have hpos := c.width_pos
    rw [nextIndex_push] at h
    rw [List.foldl_cons, List.length_cons]
    omega

/-- Of constants that are all different, each is put behind those before it. -/
theorem intern_take {cs : List Constant} (hnodup : cs.Nodup) (hroom : (ofConstants cs).nextIndex ≤ limit)
    {k : Nat} {c : Constant} (hk : cs[k]? = some c) : Interning.intern c (ofConstants (cs.take k)) =
      .ok (ofConstants (cs.take k)).nextIndex.toUInt16 (ofConstants (cs.take (k + 1))) := by
  obtain ⟨hlt, rfl⟩ := List.getElem?_eq_some_iff.mp hk
  have htake : cs.take (k + 1) = cs.take k ++ [cs[k]] := (List.take_append_getElem hlt).symm
  -- no constant is there twice, so each one is appended
  have hnot : cs[k] ∉ cs.take k := by
    have hnodup' := hnodup.sublist (List.take_sublist (k + 1) cs)
    rw [htake, List.nodup_append] at hnodup'
    exact fun hmem => hnodup'.2.2 _ hmem _ (List.mem_singleton_self _) rfl
  have hnext : (ofConstants (cs.take (k + 1))).nextIndex = (ofConstants (cs.take k)).nextIndex +
      cs[k].width := by
    rw [htake]
    unfold ofConstants
    rw [List.foldl_append]
    exact nextIndex_push _ _
  have hwhole : (ofConstants (cs.take (k + 1))).nextIndex ≤ (ofConstants cs).nextIndex := by
    have hle := nextIndex_foldl (cs.drop (k + 1)) (ofConstants (cs.take (k + 1)))
    unfold ofConstants at hle ⊢
    rw [← List.foldl_append, List.take_append_drop] at hle
    omega
  rw [htake]
  exact intern_ofConstants hnot (by omega)

/-- The bytes of a pool are its count and the bytes of its constants. -/
theorem encode_ofConstants (cs : List Constant) :
    (ofConstants cs).encode = Bytes.ofUInt16 (ofConstants cs).nextIndex.toUInt16 ++
    cs.flatMap Constant.encode := by
  have h : (ofConstants cs).entries.flatMap (fun entry => entry.2.encode) =
      ((ofConstants cs).entries.map Prod.snd).flatMap Constant.encode := by
    rw [List.flatMap_map]
  unfold Pool.encode
  rw [h, constants_ofConstants]

/-- Entries are pushed as they are read. -/
theorem readEntries_yields : ∀ {cs : List Constant} {p : Pool} {rounds : Nat}, (∀ c ∈ cs, c.Fits) →
    cs.length ≤ rounds → (readEntries (cs.foldl push p).nextIndex rounds p).Yields
    (cs.flatMap Constant.encode) (cs.foldl push p)
  | [], p, 0, _, _ => Reader.yields_pure p
  | [], p, rounds + 1, _, _ => by
    unfold readEntries
    rw [List.foldl_nil, if_neg (Nat.lt_irrefl _)]
    exact Reader.yields_pure p
  | c :: cs, p, rounds + 1, hfits, hle => by
    have hnext := nextIndex_foldl (c :: cs) p
    rw [List.length_cons] at hnext hle
    unfold readEntries
    rw [if_pos (by omega)]
    exact (Constant.read_yields _ (hfits c List.mem_cons_self)).bind
      (readEntries_yields (fun d hd => hfits d (List.mem_cons_of_mem _ hd)) (Nat.le_of_succ_le_succ hle))

/-- A well-formed pool is read back. -/
theorem read_yields (hp : p.WellFormed) (hfits : ∀ i c, p.get? i = some c → c.Fits) :
    Pool.read.Yields p.encode p := by
  obtain ⟨cs, rfl⟩ := hp.built
  have hbound := hp.bounded
  have hconstants : ∀ c ∈ cs, c.Fits := by
    intro c hc
    rw [← constants_ofConstants cs] at hc
    obtain ⟨i, hi⟩ := (mem_constants hbound).mp hc
    exact hfits i c hi
  have hcount : (ofConstants cs).nextIndex.toUInt16.toNat = (ofConstants cs).nextIndex := by
    unfold limit at hbound
    rw [UInt16.toNat_ofNat', Nat.mod_eq_of_lt (by omega)]
  have hnext := nextIndex_foldl cs empty
  change 1 + cs.length ≤ (ofConstants cs).nextIndex at hnext
  have hentries : (readEntries (ofConstants cs).nextIndex (ofConstants cs).nextIndex empty).Yields
      (cs.flatMap Constant.encode) (ofConstants cs) := readEntries_yields hconstants (by omega)
  rw [encode_ofConstants, ← List.append_nil (cs.flatMap Constant.encode)]
  unfold Pool.read
  refine (Reader.yields_u16 _).bind ?_
  rw [hcount]
  refine hentries.bind ?_
  rw [if_neg (by rw [not_not, Nat.max_eq_left (by omega)])]
  refine Reader.yields_ofExcept ?_
  exact Outcome.except_bind.mpr ⟨(), (validate_eq_ok hbound).mpr hp.closed, rfl⟩

theorem readEntries_gives {count : Nat} : ∀ (rounds : Nat) (p : Pool),
    (readEntries count rounds p).Gives fun q => ∃ cs : List Constant, q = cs.foldl push p ∧ ∀ c ∈ cs, c.Fits
  | 0, p => Reader.gives_pure ⟨[], rfl, fun c hc => absurd hc List.not_mem_nil⟩
  | rounds + 1, p => by
    unfold readEntries
    split_ifs
    · refine Constant.read_gives.bind fun c hc => (readEntries_gives rounds (p.push c)).imp ?_
      rintro q ⟨cs, rfl, hcs⟩
      exact ⟨c :: cs, rfl, List.forall_mem_cons.mpr ⟨hc, hcs⟩⟩
    · exact Reader.gives_pure ⟨[], rfl, fun c hc => absurd hc List.not_mem_nil⟩

/-- A pool that was read is well formed, and its texts are no longer than the format can say. -/
theorem read_gives : Pool.read.Gives fun p => p.WellFormed ∧ ∀ i c, p.get? i = some c → c.Fits := by
  refine Reader.moves_u16.bind fun count => (readEntries_gives _ _).bind ?_
  rintro p ⟨cs, hbuilt, hfits⟩
  split_ifs with hcount
  · exact Reader.gives_fail
  · rw [not_not] at hcount
    refine Reader.gives_ofExcept fun q hvalid => ?_
    obtain ⟨_, hchecked, hpure⟩ := Outcome.except_bind.mp hvalid
    cases hpure
    have hbound : p.nextIndex ≤ limit := by
      have hlt := count.toNat_lt
      unfold limit
      omega
    refine ⟨⟨⟨cs, hbuilt⟩, hbound, (validate_eq_ok hbound).mp hchecked⟩, fun i c hc => hfits c ?_⟩
    have hmem := (mem_constants hbound).mpr ⟨i, hc⟩
    rw [hbuilt] at hmem
    rwa [← constants_ofConstants cs]

end Pool

end ClassWeave
