import ClassWeave.Proofs.Bytes.Taking
import ClassWeave.Proofs.Pool.Format

/-!
# Pools are read as they are written

A constant that is read takes the bytes that are written for it, and so does a pool. Only the pool without
entries can have been read from another count: 0, where 1 is written.
-/

namespace ClassWeave

/-! ## Constants -/

namespace HandleKind

/-- A handle kind is found by its own number. -/
theorem code_of_ofCode? {code : UInt8} {kind : HandleKind} (h : ofCode? code = some kind) :
    kind.code = code := by
  simpa using List.find?_some h

end HandleKind

namespace Constant

variable {index : UInt16} {tag : UInt8}

/-- A constant with a word behind its tag. -/
theorem takes_word {f : UInt16 → Constant} (h : ∀ w, (f w).encode = tag :: Bytes.ofUInt16 w) :
    (Reader.u16 >>= fun w => pure (f w)).Takes fun taken c => [tag] ++ taken = c.encode := by
  refine Reader.takes_u16.bind fun taken w hw => Reader.takes_pure ?_
  simp [h, hw]

/-- A constant with two words behind its tag. -/
theorem takes_words {f : UInt16 → UInt16 → Constant}
    (h : ∀ v w, (f v w).encode = tag :: Bytes.ofUInt16 v ++ Bytes.ofUInt16 w) :
    (Reader.u16 >>= fun v => Reader.u16 >>= fun w => pure (f v w)).Takes fun taken c => [tag] ++ taken =
    c.encode := by
  refine Reader.takes_u16.bind fun taken v hv => Reader.takes_u16.bind fun taken' w hw => Reader.takes_pure ?_
  simp [h, hv, hw]

theorem takes_operands : (readOperands index tag).Takes fun taken c => [tag] ++ taken = c.encode := by
  unfold readOperands
  split
  case h_1 =>
    refine Reader.takes_u16.bind fun taken length hlength => (Reader.takes_bytes _).bind ?_
    rintro _ bytes ⟨rfl, hbytes⟩
    refine Reader.takes_pure ?_
    simp [hlength, encode, hbytes]
  case h_2 =>
    refine Reader.takes_i32.bind fun taken value hvalue => Reader.takes_pure ?_
    simp [hvalue, encode]
  case h_3 =>
    refine Reader.takes_u32.bind fun taken bits hbits => Reader.takes_pure ?_
    simp [hbits, encode]
  case h_4 =>
    refine Reader.takes_u64.bind fun taken bits hbits => Reader.takes_pure ?_
    simp [hbits, encode, Bytes.ofInt64]
  case h_5 =>
    refine Reader.takes_u64.bind fun taken bits hbits => Reader.takes_pure ?_
    simp [hbits, encode]
  -- a handle whose kind is not known is refused
  case h_12 =>
    refine Reader.takes_u8.bind fun taken code hcode => ?_
    cases hkind : HandleKind.ofCode? code with
    | none => exact Reader.takes_fail
    | some kind =>
      refine Reader.takes_u16.bind fun taken' member hmember => Reader.takes_pure ?_
      simp [hcode, hmember, encode, HandleKind.code_of_ofCode? hkind]
  case h_18 => exact Reader.takes_fail
  all_goals first
    | exact takes_word fun _ => rfl
    | exact takes_words fun _ _ => rfl

theorem takes_read (index : UInt16) : (read index).TakesWritten encode := by
  refine Reader.takes_u8.bind ?_
  rintro _ tag rfl
  exact takes_operands

end Constant

/-! ## Pools -/

namespace Pool

theorem takes_readEntries {count : Nat} (rounds : Nat) : ∀ p :
    Pool, (readEntries count rounds p).Takes fun taken q =>
    ∃ cs : List Constant, q = cs.foldl push p ∧ taken = cs.flatMap Constant.encode := by
  induction rounds with
  | zero => exact fun p => Reader.takes_pure ⟨[], rfl, rfl⟩
  | succ rounds ih =>
    intro p
    unfold readEntries
    split_ifs with hroom
    · refine (Constant.takes_read _).bind fun taken c hc => (ih (p.push c)).imp ?_
      rintro more q ⟨cs, hq, hmore⟩
      exact ⟨c :: cs, hq, by rw [hc, hmore, List.flatMap_cons]⟩
    · exact Reader.takes_pure ⟨[], rfl, rfl⟩

/-- A pool takes the bytes that are written for it. The count 0 also stands for the pool without entries. -/
theorem takes_read : Pool.read.Takes fun taken p => p = empty ∨ taken = p.encode := by
  refine Reader.takes_u16.bind fun taken count hcount => (takes_readEntries _ _).bind ?_
  rintro more p ⟨cs, rfl, hmore⟩
  split_ifs with hnext
  · exact Reader.takes_fail
  refine (Reader.takes_ofExcept _).imp ?_
  rintro _ q ⟨rfl, hvalid⟩
  obtain ⟨_, -, hpure⟩ := Outcome.except_bind.mp hvalid
  cases hpure
  rw [not_not] at hnext
  have hlong := nextIndex_foldl cs empty
  change (1 : Nat) + cs.length ≤ _ at hlong
  cases cs with
  | nil => exact .inl rfl
  | cons c cs =>
    -- with an entry the next index is at least 2, so it is the count itself
    right
    change _ = (ofConstants (c :: cs)).encode
    rw [List.length_cons] at hlong
    have hindex : (ofConstants (c :: cs)).nextIndex = count.toNat := by
      change ((c :: cs).foldl push empty).nextIndex = _
      omega
    rw [encode_ofConstants, hindex, Nat.toUInt16_eq, UInt16.ofNat_toNat, hcount, hmore, List.append_nil]

end Pool

end ClassWeave
