import ClassWeave.Text.ModifiedUtf8
import Mathlib.Tactic.Common

/-!
# Groups of bytes

Modified UTF-8 writes a UTF-16 unit as a group of one, two or three bytes, each of which says how many bytes
there are and carries some bits of the unit. A `Group` is given by these bits, so every group is well formed.
The units of a sequence of groups are what is read from its bytes, and bytes that are read come from such a
sequence: `unitsOfBytes_eq_some`. A unit has a shortest group, which is the one that is written, and the groups
that are longer than that are the overlong ones.
-/

namespace ClassWeave

namespace ModifiedUtf8

/-! ## Groups -/

/-- A group of bytes, by the bits that they carry, the highest first. No group is the byte zero. -/
inductive Group where
  | one (bits : Fin 0x80) (ne_zero : bits ≠ 0)
  | two (high : Fin 0x20) (low : Fin 0x40)
  | three (top : Fin 0x10) (high low : Fin 0x40)
deriving DecidableEq, Repr

namespace Group

/-- The bytes of a group: the first says how many there are, the others start with the bits `10`. -/
def bytes : Group → Bytes
  | one bits _ => [bits.val.toUInt8]
  | two high low => [(0xC0 + high.val).toUInt8, (0x80 + low.val).toUInt8]
  | three top high low => [(0xE0 + top.val).toUInt8, (0x80 + high.val).toUInt8, (0x80 + low.val).toUInt8]

/-- The number that the bits of a group make up. -/
def value : Group → Nat
  | one bits _ => bits
  | two high low => high * 0x40 + low
  | three top high low => top * 0x1000 + high * 0x40 + low

/-- The unit that a group stands for. -/
def unit (g : Group) : UInt16 :=
  g.value.toUInt16

/-- A group that takes more bytes than its unit needs. Zero needs two, since no byte may be zero. -/
def Overlong : Group → Prop
  | one _ _ => False
  | two high low => 0 < (two high low).value ∧ (two high low).value < 0x80
  | three top high low => (three top high low).value < 0x800

instance : DecidablePred Overlong := fun g =>
  match g with
  | one _ _ => inferInstanceAs (Decidable False)
  | two high low => inferInstanceAs (Decidable (0 < (two high low).value ∧ (two high low).value < 0x80))
  | three top high low => inferInstanceAs (Decidable ((three top high low).value < 0x800))

example : ¬ (two 0 0).Overlong ∧ (three 0 0 0).Overlong := by decide

theorem value_lt (g : Group) : g.value < 0x10000 := by
  cases g with
  | one bits _ => change bits.val < _; omega
  | two high low => change high.val * 0x40 + low.val < _; omega
  | three top high low => change top.val * 0x1000 + high.val * 0x40 + low.val < _; omega

@[simp] theorem toNat_unit (g : Group) : g.unit.toNat = g.value :=
  UInt16.toNat_ofNat_of_lt' g.value_lt

theorem bytes_ne_nil (g : Group) : g.bytes ≠ [] := by
  cases g <;> exact List.cons_ne_nil _ _

/-- No byte of a group is zero. -/
theorem zero_not_mem_bytes (g : Group) : 0 ∉ g.bytes := by
  have hone : ∀ bits : Fin 0x80, bits ≠ 0 → (0 : UInt8) ≠ bits.val.toUInt8 := by decide
  have htwo : ∀ high : Fin 0x20, (0 : UInt8) ≠ (0xC0 + high.val).toUInt8 := by decide
  have hthree : ∀ top : Fin 0x10, (0 : UInt8) ≠ (0xE0 + top.val).toUInt8 := by decide
  have hlater : ∀ low : Fin 0x40, (0 : UInt8) ≠ (0x80 + low.val).toUInt8 := by decide
  cases g with
  | one bits ne_zero => exact List.not_mem_cons_of_ne_of_not_mem (hone bits ne_zero) List.not_mem_nil
  | two high low =>
    exact List.not_mem_cons_of_ne_of_not_mem (htwo high)
      (List.not_mem_cons_of_ne_of_not_mem (hlater low) List.not_mem_nil)
  | three top high low =>
    exact List.not_mem_cons_of_ne_of_not_mem (hthree top) (List.not_mem_cons_of_ne_of_not_mem (hlater high)
      (List.not_mem_cons_of_ne_of_not_mem (hlater low) List.not_mem_nil))

end Group

/-- The bytes of groups, one after the other. -/
def spell (groups : List Group) : Bytes :=
  groups.flatMap Group.bytes

@[simp] theorem spell_nil : spell [] = [] := rfl

@[simp] theorem spell_cons (g : Group) (groups : List Group) :
    spell (g :: groups) = g.bytes ++ spell groups := rfl

theorem zero_not_mem_spell (groups : List Group) : 0 ∉ spell groups := by
  intro h
  obtain ⟨g, -, hg⟩ := List.mem_flatMap.mp h
  exact g.zero_not_mem_bytes hg

/-! ## Bits of bytes -/

theorem continuation_facts : ∀ low : Fin 0x40, isContinuation (0x80 + low.val).toUInt8 = true ∧
    (0x80 + low.val).toUInt8 &&& 0x3F = low.val.toUInt8 := by
  decide

theorem lead_two_facts : ∀ high : Fin 0x20, (0xC0 : UInt8) ≤ (0xC0 + high.val).toUInt8 ∧
    (0xC0 + high.val).toUInt8 ≤ (0xDF : UInt8) ∧ ¬ (0xC0 + high.val).toUInt8 ≤ (0x7F : UInt8) ∧
    (0xC0 + high.val).toUInt8 &&& 0x1F = high.val.toUInt8 := by
  decide

theorem lead_three_facts : ∀ top : Fin 0x10, (0xE0 : UInt8) ≤ (0xE0 + top.val).toUInt8 ∧
    (0xE0 + top.val).toUInt8 ≤ (0xEF : UInt8) ∧ ¬ (0xE0 + top.val).toUInt8 ≤ (0x7F : UInt8) ∧
    ¬ (0xE0 + top.val).toUInt8 ≤ (0xDF : UInt8) ∧ (0xE0 + top.val).toUInt8 &&& 0x0F = top.val.toUInt8 := by
  decide

/-- A byte by its distance from a smaller one. -/
theorem eq_offset {b : UInt8} {base : Nat} (h : base ≤ b.toNat) : b = (base + (b.toNat - base)).toUInt8 := by
  rw [Nat.add_sub_cancel' h]
  exact UInt8.ofNat_toNat.symm

theorem exists_continuation {b : UInt8} (h : isContinuation b = true) : ∃ low :
    Fin 0x40, b = (0x80 + low.val).toUInt8 := by
  have hall : ∀ n < 256, isContinuation n.toUInt8 = true → 0x80 ≤ n ∧ n < 0xC0 := by decide +kernel
  have hb : b.toNat.toUInt8 = b := UInt8.ofNat_toNat
  obtain ⟨hlow, hhigh⟩ := hall b.toNat b.toNat_lt (by rw [hb]; exact h)
  exact ⟨⟨b.toNat - 0x80, by omega⟩, eq_offset hlow⟩

theorem toNat_small {n : Nat} (h : n < 256) : n.toUInt8.toUInt16.toNat = n := by
  rw [UInt8.toNat_toUInt16, UInt8.toNat_ofNat', Nat.mod_eq_of_lt h]

/-- The bits of a group of two, put together. -/
theorem unit_two (high : Fin 0x20) (low : Fin 0x40) :
    high.val.toUInt8.toUInt16 <<< 6 ||| low.val.toUInt8.toUInt16 = (Group.two high low).unit := by
  apply UInt16.toNat_inj.mp
  rw [Group.toNat_unit, UInt16.toNat_or, UInt16.toNat_shiftLeft, toNat_small (by omega), toNat_small (by omega),
    show (6 : UInt16).toNat % 16 = 6 from rfl, Nat.mod_eq_of_lt (by rw [Nat.shiftLeft_eq]; omega),
    ← Nat.shiftLeft_add_eq_or_of_lt low.isLt, Nat.shiftLeft_eq]
  rfl

/-- The bits of a group of three, put together. -/
theorem unit_three (top : Fin 0x10) (high low : Fin 0x40) :
    top.val.toUInt8.toUInt16 <<< 12 ||| high.val.toUInt8.toUInt16 <<< 6 ||| low.val.toUInt8.toUInt16 =
      (Group.three top high low).unit := by
  have hupper : top.val <<< 12 ||| high.val <<< 6 = (top.val * 0x40 + high.val) <<< 6 := by
    rw [← Nat.shiftLeft_add_eq_or_of_lt (by rw [Nat.shiftLeft_eq]; omega)]
    simp only [Nat.shiftLeft_eq]
    omega
  apply UInt16.toNat_inj.mp
  rw [Group.toNat_unit]
  simp only [UInt16.toNat_or, UInt16.toNat_shiftLeft]
  rw [toNat_small (by omega), toNat_small (by omega), toNat_small (by omega),
    show (12 : UInt16).toNat % 16 = 12 from rfl, show (6 : UInt16).toNat % 16 = 6 from rfl,
    Nat.mod_eq_of_lt (by rw [Nat.shiftLeft_eq]; omega), Nat.mod_eq_of_lt
    (by rw [Nat.shiftLeft_eq]; omega), hupper, ← Nat.shiftLeft_add_eq_or_of_lt low.isLt, Nat.shiftLeft_eq]
  change (top.val * 0x40 + high.val) * 2 ^ 6 + low.val = top.val * 0x1000 + high.val * 0x40 + low.val
  omega

/-! ## Reading groups -/

/-- A group at the front is read as its unit. -/
theorem unitsOfBytes_bytes (g : Group) (rest : Bytes) :
    unitsOfBytes (g.bytes ++ rest) = (unitsOfBytes rest).map (g.unit :: ·) := by
  cases g with
  | one bits ne_zero =>
    have hfacts : ∀ bits : Fin 0x80, bits ≠ 0 → (0x01 : UInt8) ≤ bits.val.toUInt8 ∧
        bits.val.toUInt8 ≤ (0x7F : UInt8) ∧ bits.val.toUInt8.toUInt16 = bits.val.toUInt16 := by decide
    obtain ⟨h1, h2, hunit⟩ := hfacts bits ne_zero
    rw [Group.bytes, List.singleton_append, unitsOfBytes.eq_def]
    simp only [h1, h2, decide_true, Bool.and_true, if_true, hunit]
    rfl
  | two high low =>
    -- the lead byte says how many bytes follow, and which bits it holds
    obtain ⟨h1, h2, h3, hhigh⟩ := lead_two_facts high
    obtain ⟨hc, hlow⟩ := continuation_facts low
    rw [Group.bytes, List.cons_append, List.singleton_append, unitsOfBytes.eq_def]
    simp only [h1, h2, h3, hc, decide_true, decide_false, Bool.and_true, Bool.and_false,
      Bool.false_eq_true, if_true, if_false, payload, hhigh, hlow, unit_two]
  | three top high low =>
    obtain ⟨h1, h2, h3, h4, htop⟩ := lead_three_facts top
    obtain ⟨hc, hhigh⟩ := continuation_facts high
    obtain ⟨hd, hlow⟩ := continuation_facts low
    rw [Group.bytes, List.cons_append, List.cons_append, List.singleton_append, unitsOfBytes.eq_def]
    simp only [h1, h2, h3, h4, hc, hd, decide_true, decide_false, Bool.and_true, Bool.and_false,
      Bool.false_eq_true, if_true, if_false, payload, htop, hhigh, hlow, unit_three]

/-- Bytes that are read start with a group, unless there are none. -/
theorem exists_group {b : UInt8} {more : Bytes} {units : List UInt16}
    (h : unitsOfBytes (b :: more) = some units) : ∃ g rest, b :: more = Group.bytes g ++ rest := by
  rw [unitsOfBytes.eq_def] at h
  simp only [Bool.and_eq_true, decide_eq_true_eq, UInt8.le_iff_toNat_le] at h
  -- the first byte tells how many there are
  split_ifs at h with hone htwo hthree
  · change 1 ≤ b.toNat ∧ b.toNat ≤ 127 at hone
    refine ⟨.one ⟨b.toNat, by omega⟩ (fun h0 => ?_), more, ?_⟩
    · have := congrArg Fin.val h0
      change b.toNat = 0 at this
      omega
    · change b :: more = b.toNat.toUInt8 :: more
      rw [show b.toNat.toUInt8 = b from UInt8.ofNat_toNat]
  · change 192 ≤ b.toNat ∧ b.toNat ≤ 223 at htwo
    split at h
    · rename_i c rest
      split_ifs at h with hc
      obtain ⟨low, rfl⟩ := exists_continuation hc
      refine ⟨.two ⟨b.toNat - 0xC0, by omega⟩ low, rest, ?_⟩
      change b :: _ = (0xC0 + (b.toNat - 0xC0)).toUInt8 :: _
      rw [← eq_offset htwo.1]
      rfl
    · cases h
  · change 224 ≤ b.toNat ∧ b.toNat ≤ 239 at hthree
    split at h
    · rename_i c d rest
      split_ifs at h with hcd
      obtain ⟨high, rfl⟩ := exists_continuation hcd.1
      obtain ⟨low, rfl⟩ := exists_continuation hcd.2
      refine ⟨.three ⟨b.toNat - 0xE0, by omega⟩ high low, rest, ?_⟩
      change b :: _ = (0xE0 + (b.toNat - 0xE0)).toUInt8 :: _
      rw [← eq_offset hthree.1]
      rfl
    · cases h

theorem unitsOfBytes_spell (groups : List Group) :
    unitsOfBytes (spell groups) = some (groups.map Group.unit) := by
  induction groups with
  | nil => rfl
  | cons g groups ih => rw [spell_cons, unitsOfBytes_bytes, ih]; rfl

/-- Bytes are read exactly if they are the bytes of groups, as the units that the groups stand for. -/
theorem unitsOfBytes_eq_some {bytes : Bytes} {units : List UInt16} :
    unitsOfBytes bytes = some units ↔ ∃ groups, spell groups = bytes ∧ groups.map Group.unit = units := by
  constructor
  · intro h
    induction hlen : bytes.length using Nat.strongRecOn generalizing bytes units with
    | ind n ih =>
      cases bytes with
      | nil =>
        rw [unitsOfBytes] at h
        cases h
        exact ⟨[], rfl, rfl⟩
      | cons b more =>
        obtain ⟨g, rest, hsplit⟩ := exists_group h
        rw [hsplit, unitsOfBytes_bytes] at h
        obtain ⟨others, hrest, rfl⟩ := Option.map_eq_some_iff.mp h
        have hpos := List.length_pos_iff.mpr g.bytes_ne_nil
        -- a group has a byte at least, so the rest is shorter
        have hshorter : rest.length < n := by
          rw [← hlen, hsplit, List.length_append]
          omega
        obtain ⟨groups, rfl, rfl⟩ := ih rest.length hshorter hrest rfl
        exact ⟨g :: groups, hsplit.symm, rfl⟩
  · rintro ⟨groups, rfl, rfl⟩
    exact unitsOfBytes_spell groups

/-! ## Shortest groups -/

namespace Group

/-- The shortest group for a unit. -/
def ofUnit (u : UInt16) : Group :=
  if hone : 0 < u.toNat ∧ u.toNat < 0x80 then
    .one ⟨u.toNat, hone.2⟩ fun h => Nat.ne_of_gt hone.1 (congrArg Fin.val h)
  else if htwo : u.toNat < 0x800 then
    .two ⟨u.toNat / 0x40, by omega⟩ ⟨u.toNat % 0x40, by omega⟩
  else
    .three ⟨u.toNat / 0x1000, by have := u.toNat_lt; omega⟩ ⟨u.toNat / 0x40 % 0x40, by omega⟩
      ⟨u.toNat % 0x40, by omega⟩

theorem unit_ofUnit (u : UInt16) : (ofUnit u).unit = u := by
  apply UInt16.toNat_inj.mp
  rw [toNat_unit]
  unfold ofUnit
  split_ifs
  · rfl
  · change u.toNat / 0x40 * 0x40 + u.toNat % 0x40 = u.toNat
    omega
  · change u.toNat / 0x1000 * 0x1000 + u.toNat / 0x40 % 0x40 * 0x40 + u.toNat % 0x40 = u.toNat
    omega

/-- A group that is not overlong is the shortest for its unit. -/
theorem ofUnit_unit {g : Group} (h : ¬ g.Overlong) : ofUnit g.unit = g := by
  unfold ofUnit
  simp only [toNat_unit]
  cases g with
  | one bits ne_zero =>
    have hpos : 0 < bits.val := Nat.pos_of_ne_zero fun h0 => ne_zero (Fin.ext h0)
    exact dif_pos ⟨hpos, bits.isLt⟩
  | two high low =>
    have hvalue : (two high low).value = high.val * 0x40 + low.val := rfl
    split_ifs with hone htwo
    · exact absurd hone h
    · congr 1 <;> apply Fin.ext <;> simp only [hvalue] <;> omega
    · omega
  | three top high low =>
    have hvalue : (three top high low).value = top.val * 0x1000 + high.val * 0x40 + low.val := rfl
    have hlong : ¬ (three top high low).value < 0x800 := h
    split_ifs with hone
    · omega
    · congr 1 <;> apply Fin.ext <;> simp only [hvalue] <;> omega

/-- The shortest group for the unit of an overlong group is shorter. -/
theorem length_ofUnit_unit {g : Group} (h : g.Overlong) : (ofUnit g.unit).bytes.length < g.bytes.length := by
  unfold ofUnit
  simp only [toNat_unit]
  cases g with
  | one bits ne_zero => exact h.elim
  | two high low =>
    split_ifs with hone htwo
    · exact Nat.lt_succ_self 1
    · exact absurd h hone
    · exact absurd h hone
  | three top high low =>
    split_ifs with hone htwo
    · exact Nat.lt_add_of_pos_right (by decide : 0 < 2)
    · exact Nat.lt_succ_self 2
    · exact absurd h htwo

theorem length_ofUnit_unit_le (g : Group) : (ofUnit g.unit).bytes.length ≤ g.bytes.length := by
  by_cases h : g.Overlong
  · exact Nat.le_of_lt (length_ofUnit_unit h)
  · exact Nat.le_of_eq (congrArg (fun found => found.bytes.length) (ofUnit_unit h))

/-- A group is overlong if there is a shorter one for its unit, and only then. -/
theorem overlong_iff {g : Group} : g.Overlong ↔ ∃ other : Group, other.unit = g.unit ∧
    other.bytes.length < g.bytes.length := by
  constructor
  · intro h
    exact ⟨ofUnit g.unit, unit_ofUnit g.unit, length_ofUnit_unit h⟩
  · rintro ⟨other, hunit, hlt⟩
    by_contra h
    have hle := length_ofUnit_unit_le other
    rw [hunit, ofUnit_unit h] at hle
    omega

end Group

end ModifiedUtf8

end ClassWeave
