import ClassWeave.Proofs.Frame.Words
import ClassWeave.Proofs.Instruction.Plain
import ClassWeave.Proofs.Pool.Room

/-!
# The count of an interface call

An interface call has the count of its argument words in one byte. The parser of descriptors sets no limit to
the words: it accepts any number of them that the text has room for (`MethodDescriptor.argumentWords_le`), and
the byte is what is left of the number modulo 256. The decoder skips the byte (`CodeOp.readsAs_interface`), so a
call that is read back does not show whether the count was right.
-/

namespace ClassWeave

/-! ## Argument words in a descriptor -/

namespace FieldType

theorem renderChars_pos (type : FieldType) : 0 < type.renderChars.length := by
  obtain ⟨c, cs, hchars, -⟩ := type.renderChars_head
  rw [hchars, List.length_cons]
  exact Nat.succ_pos _

/-- The letter of a type has room for no more than two words. -/
theorem width_le (type : FieldType) : type.width ≤ 2 * type.renderChars.length := by
  cases type with
  | base type => cases type <;> decide
  | ref type =>
    have hpos := renderChars_pos (.ref type)
    have hwidth : (ref type).width = 1 := rfl
    omega

theorem sum_width_le : ∀ types : List FieldType, (types.map width).sum ≤ 2 * (types.flatMap renderChars).length
  | [] => Nat.le_refl _
  | type :: types => by
    have htype := type.width_le
    have htypes := sum_width_le types
    rw [List.map_cons, List.sum_cons, List.flatMap_cons, List.length_append]
    omega

end FieldType

namespace MethodDescriptor

theorem exists_renderChars (descriptor : MethodDescriptor) : ∃ result : List Char, 0 < result.length ∧
    descriptor.renderChars = '(' :: descriptor.parameters.flatMap FieldType.renderChars ++ ')' :: result := by
  unfold renderChars
  cases descriptor.result with
  | none => exact ⟨['V'], Nat.one_pos, rfl⟩
  | some type => exact ⟨type.renderChars, type.renderChars_pos, rfl⟩

/-- A text that is accepted has two parentheses and a result, and room for two words in each other character. -/
theorem argumentWords_le {text : String} {descriptor : MethodDescriptor}
    (h : ofDescriptor text = .ok descriptor) : descriptor.argumentWords true + 5 ≤ 2 * text.length := by
  obtain ⟨-, rfl⟩ := (inverts_ofDescriptor text descriptor).mp h
  obtain ⟨result, hresult, hchars⟩ := descriptor.exists_renderChars
  have hparameters := FieldType.sum_width_le descriptor.parameters
  unfold argumentWords render
  rw [parameterWords_eq_sum, String.length_ofList, hchars, if_pos rfl]
  simp only [List.cons_append, List.length_cons, List.length_append]
  omega

/-- The type of the methods that take `count` integers and have no result. -/
def ofInts (count : Nat) : MethodDescriptor :=
  ⟨List.replicate count (.base .int), none⟩

/-- Any number of parameters is accepted. -/
theorem ofDescriptor_ofInts (count : Nat) : ofDescriptor (ofInts count).render = .ok (ofInts count) := by
  refine ofDescriptor_render ⟨fun type htype => ?_, nofun⟩
  obtain ⟨-, rfl⟩ := List.mem_replicate.mp htype
  trivial

theorem argumentWords_ofInts (count : Nat) : (ofInts count).argumentWords true = count + 1 := by
  unfold argumentWords ofInts
  rw [parameterWords_eq_sum, List.map_replicate, List.sum_replicate_nat, if_pos rfl, Nat.add_comm]
  exact congrArg (· + 1) (Nat.mul_one count)

end MethodDescriptor

/-! ## Argument words on the stack -/

namespace MethodDescriptor

/-- The arguments of a call on the stack, the last one on top and the receiver below them. -/
def arguments (descriptor : MethodDescriptor) (receiver : AnalysisType) : OperandStack :=
  (descriptor.parameters.map .ofFieldType).reverse ++ [receiver]

/-- They are as many words as the descriptor counts, as a receiver is never a wide value. -/
theorem length_words_arguments (descriptor : MethodDescriptor) {receiver : AnalysisType}
    (h : receiver.isWide = false) : (OperandStack.words (descriptor.arguments receiver)).length =
    descriptor.argumentWords true := by
  have hreceiver := Frame.width_eq receiver
  rw [h, if_neg Bool.false_ne_true] at hreceiver
  unfold arguments argumentWords
  rw [OperandStack.length_words, List.map_append, List.sum_append, List.map_reverse, List.sum_reverse,
    sum_width_parameters, List.map_singleton, List.sum_singleton, hreceiver, if_pos rfl, Nat.add_comm]

end MethodDescriptor

theorem OperandStack.popN_append : ∀ taken rest : OperandStack, popN taken.length (taken ++ rest) = .ok rest
  | [], _ => rfl
  | _ :: taken, rest => popN_append taken rest

/-- An interface call takes exactly its arguments off the stack, and then gives its result. -/
theorem Instruction.transfer_interface (owner : BinaryName) (strict : Bool) (index : Nat) {method : MethodRef}
    (hname : method.name ≠ .init) (receiver : AnalysisType) (locals : List AnalysisType) (rest : OperandStack) :
    (Instruction.invoke .interface method).transfer owner strict index
        ⟨locals, method.descriptor.arguments receiver ++ rest⟩ =
      .ok (Frame.pushResult method.descriptor.result ⟨locals, rest⟩) := by
  have hparameters : OperandStack.popN method.descriptor.parameters.length
      (method.descriptor.arguments receiver ++ rest) = .ok (receiver :: rest) := by
    have hpop := OperandStack.popN_append (method.descriptor.parameters.map .ofFieldType).reverse
      (receiver :: rest)
    rwa [List.length_reverse, List.length_map, ← List.singleton_append, ← List.append_assoc] at hpop
  have hreceiver : method.transferReceiver owner ⟨locals, receiver :: rest⟩ = .ok ⟨locals, rest⟩ := if_neg hname
  rw [Frame.transfer_invoke]
  exact Outcome.except_bind.mpr ⟨_, Outcome.except_bind.mpr ⟨_, hparameters, rfl⟩,
    Outcome.except_bind.mpr ⟨_, hreceiver, rfl⟩⟩

/-! ## The byte -/

namespace Interning

/-- An interface call takes room for its method, and nothing else is added for it. -/
theorem needs_interface (method : MethodRef) : Needs 6 (Instruction.invoke .interface method).encode :=
  (needs_methodRef method).bind fun _ => needs_pure _

end Interning

namespace Instruction

variable {method : MethodRef} {p q : Pool} {bytes : Bytes}

/-- The byte after the index is what is left of the count modulo 256. -/
theorem encode_interface (h : (Instruction.invoke .interface method).encode p = .ok bytes q) :
    ∃ index count, Interning.methodRef method p = .ok index q ∧ bytes = 0xb9 :: Bytes.ofUInt16 index ++
    [count, 0] ∧
      count.toNat = method.descriptor.argumentWords true % 256 := by
  obtain ⟨index, _, hindex, h⟩ := Outcome.estate_bind.mp h
  obtain ⟨rfl, rfl⟩ := Outcome.estate_pure.mp h
  exact ⟨index, _, hindex, rfl, UInt8.toNat_ofNat'⟩

/-- A call of a method whose descriptor is accepted has no more argument words than the text has room for. It is
written wherever there is room for the method, and its byte is the count of the words modulo 256: exact for up
to 255 words and for no more. -/
theorem interfaceCount_exact_iff {text : String} {method : MethodRef}
    (hparse : MethodDescriptor.ofDescriptor text = .ok method.descriptor) (p : Pool) :
    method.descriptor.argumentWords true + 5 ≤ 2 * text.length ∧
    (p.nextIndex + 6 ≤ Pool.limit → ∃ bytes q, (Instruction.invoke .interface method).encode p = .ok bytes q) ∧
    ∀ bytes q, (Instruction.invoke .interface method).encode p = .ok bytes q →
      ∃ index count, Interning.methodRef method p = .ok index q ∧ bytes = 0xb9 :: Bytes.ofUInt16 index ++
      [count, 0] ∧
        count.toNat = method.descriptor.argumentWords true % 256 ∧
        (count.toNat = method.descriptor.argumentWords true ↔ method.descriptor.argumentWords true ≤ 255) := by
  refine ⟨MethodDescriptor.argumentWords_le hparse, fun hroom => ?_, fun bytes q hencode => ?_⟩
  · obtain ⟨bytes, q, hencode, -⟩ := Interning.needs_interface method p hroom
    exact ⟨bytes, q, hencode⟩
  · obtain ⟨index, count, hindex, hbytes, hcount⟩ := encode_interface hencode
    refine ⟨index, count, hindex, hbytes, hcount, ?_⟩
    rw [hcount, Nat.mod_eq_iff_lt (by decide)]
    exact Nat.lt_succ_iff

/-- The method `m` of an interface `a/I`. -/
def calledMethod (descriptor : MethodDescriptor) : MethodRef :=
  ⟨.object ⟨"a/I", Eq.refl true⟩, ⟨"m", Eq.refl true⟩, descriptor, true⟩

/-- The type of the methods that take a `long` and a string and have no result. -/
def longAndString : MethodDescriptor :=
  ⟨[.base .long, .ref (.object ⟨"java/lang/String", Eq.refl true⟩)], none⟩

/-- A `long` takes two words, and a reference and the receiver take one each. -/
theorem interfaceCount_exact_iff_four :
    MethodDescriptor.ofDescriptor "(JLjava/lang/String;)V" = .ok longAndString ∧
    ∃ index q, (Instruction.invoke .interface (calledMethod longAndString)).encode .empty =
      .ok (0xb9 :: Bytes.ofUInt16 index ++ [4, 0]) q := by
  have hparse : MethodDescriptor.ofDescriptor "(JLjava/lang/String;)V" = .ok longAndString := by decide
  have hroom : Pool.empty.nextIndex + 6 ≤ Pool.limit := by decide
  obtain ⟨-, hwrites, hwritten⟩ := @interfaceCount_exact_iff _ (calledMethod longAndString) hparse .empty
  obtain ⟨bytes, q, hencode⟩ := hwrites hroom
  obtain ⟨index, count, -, rfl, hcount, -⟩ := hwritten bytes q hencode
  obtain rfl : count = 4 := UInt8.toNat_inj.mp hcount
  exact ⟨hparse, index, q, hencode⟩

theorem encode_ofInts (words : Nat) : ∃ index count q,
    (Instruction.invoke .interface (calledMethod (.ofInts words))).encode .empty =
      .ok (0xb9 :: Bytes.ofUInt16 index ++ [count, 0]) q ∧ count.toNat = (words + 1) % 256 := by
  have hroom : Pool.empty.nextIndex + 6 ≤ Pool.limit := by decide
  obtain ⟨bytes, q, hencode, -⟩ := Interning.needs_interface (calledMethod (.ofInts words)) .empty hroom
  obtain ⟨index, count, -, rfl, hcount⟩ := encode_interface hencode
  exact ⟨index, count, q, hencode, hcount.trans
    (congrArg (· % 256) (MethodDescriptor.argumentWords_ofInts words))⟩

/-- The count of 255 integers and a receiver is written as zero, though the descriptor is accepted. -/
theorem interfaceCount_lost :
    MethodDescriptor.ofDescriptor (MethodDescriptor.ofInts 255).render = .ok (.ofInts 255) ∧
    (MethodDescriptor.ofInts 255).argumentWords true = 256 ∧
    ∃ index q, (Instruction.invoke .interface (calledMethod (.ofInts 255))).encode .empty =
      .ok (0xb9 :: Bytes.ofUInt16 index ++ [0, 0]) q := by
  obtain ⟨index, count, q, hencode, hcount⟩ := encode_ofInts 255
  obtain rfl : count = 0 := UInt8.toNat_inj.mp hcount
  exact ⟨MethodDescriptor.ofDescriptor_ofInts 255, MethodDescriptor.argumentWords_ofInts 255, index, q, hencode⟩

end Instruction

end ClassWeave
