import ClassWeave.Proofs.Text.Group

/-!
# Modified UTF-8 in both directions

Bytes are decoded exactly if they are the bytes of groups whose units have their surrogates in pairs, and as the
text with those units: `decode_eq_some`, from the same facts on bytes and on units. So decoding an encoded text
gives the text, `decode_encode`, and encoding a decoded text replaces each group by the shortest one for its
unit: `encode_decoded`.
-/

namespace ClassWeave

namespace ModifiedUtf8

/-! ## Characters -/

/-- Units in which surrogates come in pairs only, a high one in front of a low one. -/
inductive WellPaired : List UInt16 → Prop where
  | nil : WellPaired []
  | single {u : UInt16} {us : List UInt16} :
    isHighSurrogate u = false → isLowSurrogate u = false → WellPaired us → WellPaired (u :: us)
  | pair {high low : UInt16} {us : List UInt16} :
    isHighSurrogate high = true → isLowSurrogate low = true → WellPaired us → WellPaired (high :: low :: us)

theorem isHighSurrogate_iff {u : UInt16} : isHighSurrogate u = true ↔ 0xD800 ≤ u.toNat ∧ u.toNat < 0xDC00 := by
  unfold isHighSurrogate
  rw [Bool.and_eq_true, decide_eq_true_iff, decide_eq_true_iff, UInt16.le_iff_toNat_le, UInt16.lt_iff_toNat_lt]
  rfl

theorem isLowSurrogate_iff {u : UInt16} : isLowSurrogate u = true ↔ 0xDC00 ≤ u.toNat ∧ u.toNat < 0xE000 := by
  unfold isLowSurrogate
  rw [Bool.and_eq_true, decide_eq_true_iff, decide_eq_true_iff, UInt16.le_iff_toNat_le, UInt16.lt_iff_toNat_lt]
  rfl

theorem toNat_char {n : Nat} (h : n.isValidChar) : (Char.ofNat n).toNat = n := by
  rw [Char.ofNat, dif_pos h]
  rfl

/-- The units of a character give the character back. -/
theorem charsOfUnits_unitsOfChar (c : Char) (us : List UInt16) :
    charsOfUnits (unitsOfChar c ++ us) = (charsOfUnits us).map (c :: ·) := by
  have hv : c.toNat < 0xD800 ∨ 0xDFFF < c.toNat ∧ c.toNat < 0x110000 := c.valid
  unfold unitsOfChar
  split_ifs with h
  · -- one unit, which is no surrogate: characters are none
    have hn : c.toNat.toUInt16.toNat = c.toNat := UInt16.toNat_ofNat_of_lt' h
    have hhigh : isHighSurrogate c.toNat.toUInt16 = false := by
      rw [← Bool.not_eq_true, isHighSurrogate_iff, hn]
      omega
    have hlow : isLowSurrogate c.toNat.toUInt16 = false := by
      rw [← Bool.not_eq_true, isLowSurrogate_iff, hn]
      omega
    rw [List.singleton_append, charsOfUnits.eq_def]
    simp only [hhigh, hlow, Bool.false_eq_true, if_false, hn, Char.ofNat_toNat]
  · -- a pair of surrogates
    set n := c.toNat - 0x10000 with hn
    have h1 : (0xD800 + n / 0x400).toUInt16.toNat = 0xD800 + n / 0x400 :=
      UInt16.toNat_ofNat_of_lt' (by change _ < 0x10000; omega)
    have h2 : (0xDC00 + n % 0x400).toUInt16.toNat = 0xDC00 + n % 0x400 :=
      UInt16.toNat_ofNat_of_lt' (by change _ < 0x10000; omega)
    have hhigh : isHighSurrogate (0xD800 + n / 0x400).toUInt16 = true := by
      rw [isHighSurrogate_iff, h1]
      omega
    have hlow : isLowSurrogate (0xDC00 + n % 0x400).toUInt16 = true := by
      rw [isLowSurrogate_iff, h2]
      omega
    have hpair : charOfPair (0xD800 + n / 0x400).toUInt16 (0xDC00 + n % 0x400).toUInt16 = c := by
      unfold charOfPair
      rw [h1, h2, show 0x10000 + (0xD800 + n / 0x400 - 0xD800) * 0x400 + (0xDC00 + n % 0x400 - 0xDC00) =
        c.toNat by omega, Char.ofNat_toNat]
    rw [List.cons_append, List.singleton_append, charsOfUnits.eq_def]
    simp only [hhigh, hlow, if_true, hpair]

/-- A unit that is no surrogate is the unit of its character. -/
theorem unitsOfChar_ofNat {u : UInt16} (hhigh : isHighSurrogate u = false) (hlow : isLowSurrogate u = false) :
    unitsOfChar (Char.ofNat u.toNat) = [u] := by
  rw [← Bool.not_eq_true, isHighSurrogate_iff] at hhigh
  rw [← Bool.not_eq_true, isLowSurrogate_iff] at hlow
  have hu : u.toNat < 0x10000 := u.toNat_lt
  have hvalid : u.toNat.isValidChar := by
    unfold Nat.isValidChar
    omega
  unfold unitsOfChar
  rw [toNat_char hvalid, if_pos hu]
  exact congrArg (fun v => [v]) UInt16.ofNat_toNat

/-- A pair of surrogates are the units of its character. -/
theorem unitsOfChar_charOfPair {high low : UInt16} (hhigh : isHighSurrogate high = true)
    (hlow : isLowSurrogate low = true) : unitsOfChar (charOfPair high low) = [high, low] := by
  rw [isHighSurrogate_iff] at hhigh
  rw [isLowSurrogate_iff] at hlow
  set n := 0x10000 + (high.toNat - 0xD800) * 0x400 + (low.toNat - 0xDC00) with hn
  have hvalid : n.isValidChar := by
    unfold Nat.isValidChar
    omega
  have hchar : (charOfPair high low).toNat = n := toNat_char hvalid
  have h1 : 0xD800 + (n - 0x10000) / 0x400 = high.toNat := by omega
  have h2 : 0xDC00 + (n - 0x10000) % 0x400 = low.toNat := by omega
  unfold unitsOfChar
  rw [hchar, if_neg (by omega), h1, h2]
  exact congrArg₂ (fun v w => [v, w]) UInt16.ofNat_toNat UInt16.ofNat_toNat

theorem charsOfUnits_flatMap (cs : List Char) : charsOfUnits (cs.flatMap unitsOfChar) = some cs := by
  induction cs with
  | nil => rfl
  | cons c cs ih => rw [List.flatMap_cons, charsOfUnits_unitsOfChar, ih]; rfl

/-- Units in which surrogates come in pairs are those of characters. -/
theorem WellPaired.exists_chars {us : List UInt16} (h : WellPaired us) : ∃ cs :
    List Char, cs.flatMap unitsOfChar = us := by
  induction h with
  | nil => exact ⟨[], rfl⟩
  | single hhigh hlow _ ih =>
    obtain ⟨cs, rfl⟩ := ih
    exact ⟨_ :: cs, by rw [List.flatMap_cons, unitsOfChar_ofNat hhigh hlow]; rfl⟩
  | pair hhigh hlow _ ih =>
    obtain ⟨cs, rfl⟩ := ih
    exact ⟨_ :: cs, by rw [List.flatMap_cons, unitsOfChar_charOfPair hhigh hlow]; rfl⟩

theorem wellPaired_of_charsOfUnits {us : List UInt16} {cs : List Char} (h : charsOfUnits us = some cs) :
    WellPaired us := by
  fun_induction charsOfUnits us generalizing cs with
  | case1 => exact .nil
  | case2 u hhigh => cases h
  | case3 u hhigh v rest hlow ih =>
    obtain ⟨cs, hcs, -⟩ := Option.map_eq_some_iff.mp h
    exact .pair hhigh hlow (ih hcs)
  | case4 u hhigh v rest hlow => cases h
  | case5 u rest hhigh hlow => cases h
  | case6 u rest hhigh hlow ih =>
    obtain ⟨cs, hcs, -⟩ := Option.map_eq_some_iff.mp h
    exact .single (Bool.not_eq_true _ ▸ hhigh) (Bool.not_eq_true _ ▸ hlow) (ih hcs)

/-- The characters that units stand for are those that have these units. -/
theorem charsOfUnits_eq_some {us : List UInt16} {cs : List Char} :
    charsOfUnits us = some cs ↔ cs.flatMap unitsOfChar = us := by
  constructor
  · intro h
    obtain ⟨found, rfl⟩ := (wellPaired_of_charsOfUnits h).exists_chars
    rw [charsOfUnits_flatMap] at h
    cases h
    rfl
  · rintro rfl
    exact charsOfUnits_flatMap cs

/-! ## Written groups -/

theorem and_3F (u : UInt16) : (u &&& 0x3F).toUInt8 = (u.toNat % 64).toUInt8 := by
  apply UInt8.toNat_inj.mp
  have h : u.toNat &&& 63 = u.toNat % 64 := Nat.and_two_pow_sub_one_eq_mod _ 6
  rw [UInt16.toNat_toUInt8, UInt16.toNat_and, show (0x3F : UInt16).toNat = 63 from rfl, h, UInt8.toNat_ofNat']

theorem shift_6 (u : UInt16) : (u >>> 6).toUInt8 = (u.toNat / 64).toUInt8 := by
  apply UInt8.toNat_inj.mp
  rw [UInt16.toNat_toUInt8, UInt16.toNat_shiftRight, show (6 : UInt16).toNat % 16 = 6 from rfl,
    Nat.shiftRight_eq_div_pow, UInt8.toNat_ofNat']

theorem shift_12 (u : UInt16) : (u >>> 12).toUInt8 = (u.toNat / 4096).toUInt8 := by
  apply UInt8.toNat_inj.mp
  rw [UInt16.toNat_toUInt8, UInt16.toNat_shiftRight, show (12 : UInt16).toNat % 16 = 12 from rfl,
    Nat.shiftRight_eq_div_pow, UInt8.toNat_ofNat']

theorem shift_6_and_3F (u : UInt16) : (u >>> 6 &&& 0x3F).toUInt8 = (u.toNat / 64 % 64).toUInt8 := by
  rw [and_3F, UInt16.toNat_shiftRight, show (6 : UInt16).toNat % 16 = 6 from rfl, Nat.shiftRight_eq_div_pow]

/-- The group that is written for a unit is the shortest one. -/
theorem groupOfUnit_eq (u : UInt16) : groupOfUnit u = (Group.ofUnit u).bytes := by
  have hcontinuation : ∀ n < 64, (0x80 : UInt8) ||| n.toUInt8 = (0x80 + n).toUInt8 := by decide
  have htwo : ∀ n < 32, (0xC0 : UInt8) ||| n.toUInt8 = (0xC0 + n).toUInt8 := by decide
  have hthree : ∀ n < 16, (0xE0 : UInt8) ||| n.toUInt8 = (0xE0 + n).toUInt8 := by decide
  have hu := u.toNat_lt
  unfold groupOfUnit Group.ofUnit
  simp only [Bool.and_eq_true, decide_eq_true_eq, UInt16.le_iff_toNat_le]
  change (if 1 ≤ u.toNat ∧ u.toNat ≤ 127 then _ else if u.toNat ≤ 2047 then _ else _) = _
  split_ifs with h1 h2 h3 h4 h5 h6
  · rfl
  · omega
  · omega
  · omega
  · rw [shift_6, and_3F, htwo _ (by omega), hcontinuation _ (by omega)]
    rfl
  · omega
  · omega
  · omega
  · rw [shift_12, shift_6_and_3F, and_3F, hthree _ (by omega), hcontinuation _ (by omega),
      hcontinuation _ (by omega)]
    rfl

/-- Groups, each replaced by the shortest one for its unit. -/
def shorten (groups : List Group) : List Group :=
  (groups.map Group.unit).map Group.ofUnit

theorem length_shorten_cons (g : Group) (groups : List Group) :
    (spell (shorten (g :: groups))).length = (Group.ofUnit g.unit).bytes.length +
    (spell (shorten groups)).length :=
  List.length_append

theorem length_shorten_le (groups : List Group) : (spell (shorten groups)).length ≤ (spell groups).length := by
  induction groups with
  | nil => exact Nat.le_refl 0
  | cons g groups ih =>
    rw [length_shorten_cons, spell_cons, List.length_append]
    exact Nat.add_le_add g.length_ofUnit_unit_le ih

/-- One overlong group is enough for the shortest groups to be shorter on the whole. -/
theorem length_shorten_lt {groups : List Group} (h : ∃ g ∈ groups, g.Overlong) :
    (spell (shorten groups)).length < (spell groups).length := by
  induction groups with
  | nil =>
    obtain ⟨g, hg, -⟩ := h
    cases hg
  | cons g groups ih =>
    rw [length_shorten_cons, spell_cons, List.length_append]
    obtain ⟨found, hfound, hlong⟩ := h
    rcases List.mem_cons.mp hfound with rfl | hmem
    · exact Nat.add_lt_add_of_lt_of_le (Group.length_ofUnit_unit hlong) (length_shorten_le groups)
    · exact Nat.add_lt_add_of_le_of_lt g.length_ofUnit_unit_le (ih ⟨found, hmem, hlong⟩)

theorem shorten_eq_self {groups : List Group} (h : ∀ g ∈ groups, ¬ g.Overlong) : shorten groups = groups := by
  unfold shorten
  rw [List.map_map]
  exact (List.map_congr_left fun g hg => Group.ofUnit_unit (h g hg)).trans (List.map_id _)

/-- The bytes of groups stay the same if the groups are the shortest already, and only then. -/
theorem spell_shorten_eq_iff {groups : List Group} :
    spell (shorten groups) = spell groups ↔ ∀ g ∈ groups, ¬ g.Overlong := by
  constructor
  · intro h g hg hlong
    exact Nat.ne_of_lt (length_shorten_lt ⟨g, hg, hlong⟩) (congrArg List.length h)
  · intro h
    rw [shorten_eq_self h]

/-! ## Texts -/

theorem encode_eq_spell (text : String) :
    encode text = spell ((text.toList.flatMap unitsOfChar).map Group.ofUnit) := by
  unfold encode spell
  rw [List.flatMap_map, ← List.flatMap_assoc]
  exact congrArg (fun f => List.flatMap f (text.toList.flatMap unitsOfChar)) (funext groupOfUnit_eq)

/-- The texts that bytes are decoded as have the units of the groups that the bytes split into. -/
theorem decode_eq_some {bytes : Bytes} {text : String} :
    decode bytes = some text ↔
      ∃ groups, spell groups = bytes ∧ groups.map Group.unit = text.toList.flatMap unitsOfChar := by
  change ((unitsOfBytes bytes).bind fun units => (charsOfUnits units).bind fun chars =>
    some (String.ofList chars)) = _ ↔ _
  simp only [Option.bind_eq_some_iff, unitsOfBytes_eq_some, charsOfUnits_eq_some, Option.some.injEq]
  constructor
  · rintro ⟨_, ⟨groups, hbytes, rfl⟩, chars, hchars, rfl⟩
    exact ⟨groups, hbytes, by rw [String.toList_ofList, hchars]⟩
  · rintro ⟨groups, hbytes, hunits⟩
    exact ⟨_, ⟨groups, hbytes, rfl⟩, text.toList, hunits.symm, String.ofList_toList⟩

/-- Decoding an encoded text gives the text. -/
theorem decode_encode (text : String) : decode (encode text) = some text := by
  refine decode_eq_some.mpr ⟨_, (encode_eq_spell text).symm, ?_⟩
  rw [List.map_map]
  exact List.map_id'' Group.unit_ofUnit _

/-- Encoding a decoded text writes the shortest groups for the units that were read. -/
theorem encode_decoded {groups : List Group} {text : String} (h : decode (spell groups) = some text) :
    encode text = spell (shorten groups) := by
  obtain ⟨others, hspell, hunits⟩ := decode_eq_some.mp h
  have hread := unitsOfBytes_spell others
  rw [hspell, unitsOfBytes_spell] at hread
  rw [encode_eq_spell, ← hunits, ← Option.some.inj hread]
  rfl

/-- Bytes stand for a text exactly if they split into groups whose units have their surrogates in pairs. -/
theorem isSome_decode_iff {bytes : Bytes} :
    (decode bytes).isSome ↔ ∃ groups, spell groups = bytes ∧ WellPaired (groups.map Group.unit) := by
  rw [Option.isSome_iff_exists]
  simp only [decode_eq_some]
  constructor
  · rintro ⟨text, groups, hbytes, hunits⟩
    exact ⟨groups, hbytes, wellPaired_of_charsOfUnits (charsOfUnits_eq_some.mpr hunits.symm)⟩
  · rintro ⟨groups, hbytes, hpaired⟩
    obtain ⟨chars, hchars⟩ := hpaired.exists_chars
    exact ⟨String.ofList chars, groups, hbytes, by rw [String.toList_ofList, hchars]⟩

/-- An encoded text has no byte zero, is made of groups and is decoded as the text. Bytes are decoded exactly if
they are made of groups whose units have their surrogates in pairs; encoding the text again takes no more bytes,
and gives the same ones exactly if none of the groups is overlong. -/
theorem text_roundTrips :
    (∀ text : String, decode (encode text) = some text ∧ 0 ∉ encode text ∧ ∃ groups,
    spell groups = encode text) ∧ ∀ bytes : Bytes,
      ((decode bytes).isSome ↔ ∃ groups, spell groups = bytes ∧ WellPaired (groups.map Group.unit)) ∧
      ∀ (text : String) (groups : List Group), decode bytes = some text → spell groups = bytes →
        (encode text).length ≤ bytes.length ∧ (encode text = bytes ↔ ∀ g ∈ groups, ¬ g.Overlong) := by
  refine ⟨fun text => ⟨decode_encode text, ?_, _, (encode_eq_spell text).symm⟩,
    fun bytes => ⟨isSome_decode_iff, ?_⟩⟩
  · rw [encode_eq_spell]
    exact zero_not_mem_spell _
  · rintro text groups h rfl
    rw [encode_decoded h]
    exact ⟨length_shorten_le groups, spell_shorten_eq_iff⟩

/-- The letter `A` in two bytes where one is enough, and a pair of surrogates. -/
theorem text_roundTrips_overlong :
    let groups := [Group.two 1 1, .three 0xD 0x20 0x3D, .three 0xD 0x38 0]
    decode [0xC1, 0x81, 0xED, 0xA0, 0xBD, 0xED, 0xB8, 0x80] = some "A😀" ∧
      spell groups = [0xC1, 0x81, 0xED, 0xA0, 0xBD, 0xED, 0xB8, 0x80] ∧
      (encode "A😀").length ≤ 8 ∧ (encode "A😀" = spell groups ↔ ∀ g ∈ groups, ¬ g.Overlong) := by
  intro groups
  have hdecode : decode [0xC1, 0x81, 0xED, 0xA0, 0xBD, 0xED, 0xB8, 0x80] = some "A😀" := by decide
  have hspell : spell groups = [0xC1, 0x81, 0xED, 0xA0, 0xBD, 0xED, 0xB8, 0x80] := by decide
  exact ⟨hdecode, hspell, hspell ▸ (text_roundTrips.2 _).2 _ groups hdecode hspell⟩

end ModifiedUtf8

end ClassWeave
