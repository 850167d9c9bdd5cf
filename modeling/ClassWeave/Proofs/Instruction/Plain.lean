import ClassWeave.Instruction.Decode
import ClassWeave.Proofs.Bytes.Reading
import ClassWeave.Proofs.Pool.Symbol

/-!
# Instructions survive writing

The bytes of an instruction that is no branch are read back as the instruction, in the pool that its operands were
interned in and in every later one. `CodeOp.ReadsAs` says so of bytes wherever they stand in the code.
-/

namespace ClassWeave

/-! ## Instructions that can be written -/

/-- The symbolic operands of an instruction are writable. -/
def Instruction.IsWritable : Instruction → Prop
  | .loadConstant constant => constant.IsWritable
  | .field _ ref => ref.IsWritable
  | .invoke _ m => m.IsWritable
  | .invokeDynamic site => site.descriptor.IsWritable
  | .newObject type | .newRefArray type | .checkCast type | .instanceOf type | .newMultiArray type _ =>
    type.IsWritable
  | _ => True

/-- The symbolic operands of an instruction can be read. -/
def Instruction.IsReadable : Instruction → Prop
  | .loadConstant constant => constant.IsReadable
  | instruction => instruction.IsWritable

/-- The symbolic operands of an instruction are what a pool has. -/
def Instruction.ResolvedIn (pool : Pool) : Instruction → Prop
  | .loadConstant constant => ∃ index, pool.loadable index = .ok constant
  | .field _ ref => ∃ index, pool.fieldRef index = .ok ref
  | .invoke _ m => ∃ index, pool.methodRef index = .ok m
  | .invokeDynamic site => ∃ index, pool.callSite index = .ok site
  | .newObject type | .newRefArray type | .checkCast type | .instanceOf type | .newMultiArray type _ =>
    ∃ index, pool.refType index = .ok type
  | _ => True

theorem Instruction.ResolvedIn.isReadable {pool : Pool} {instruction : Instruction}
    (h : instruction.ResolvedIn pool) :
    instruction.IsReadable := by
  cases instruction with
  | loadConstant => exact h.elim fun _ => Pool.isReadable_of_loadable
  | field => exact h.elim fun _ => Pool.isWritable_of_fieldRef
  | invoke => exact h.elim fun _ => Pool.isWritable_of_methodRef
  | invokeDynamic => exact h.elim fun _ => Pool.isWritable_of_callSite
  | newObject | newRefArray | checkCast | instanceOf | newMultiArray =>
    exact h.elim fun _ => Pool.isWritable_of_refType
  | _ => trivial

theorem Instruction.ResolvedIn.isWritable {pool : Pool} (hp : pool.WellFormed) {instruction : Instruction}
    (h : instruction.ResolvedIn pool) : instruction.IsWritable := by
  cases instruction with
  | loadConstant => exact h.elim fun _ => Pool.isWritable_of_loadable hp
  | _ => exact h.isReadable

namespace CodeOp

/-- The bytes are the instruction, wherever they stand and however long the code is. -/
def ReadsAs (pool : Pool) (bytes : Bytes) (instruction : Instruction) : Prop :=
  ∀ codeLength, (CodeOp.read codeLength pool).Yields bytes (.plain instruction)

/-- One instruction is its opcode and then its operands. -/
theorem read_yieldsAt {codeLength position : Nat} {pool : Pool} {opcode : UInt8} {bytes : Bytes}
    {op : CodeOp Nat} (h : (Site.operands ⟨position, codeLength, pool⟩ opcode).YieldsAt
    (position + 1) bytes op) : (CodeOp.read codeLength pool).YieldsAt position (opcode :: bytes) op :=
  Reader.YieldsAt.bind_position ((Reader.yields_u8 opcode position).bind h)

/-! ## The families of opcodes -/

namespace Site

theorem operands_simple (site : Site) (op : Simple) : site.operands op.opcode = pure (.plain (.simple op)) := by
  unfold operands
  rw [Simple.ofOpcode?_opcode]

theorem operands_shuffle (site : Site) (op : StackOp) : site.operands op.opcode = pure
    (.plain (.shuffle op)) := by
  cases op <;> rfl

theorem operands_load (site : Site) (kind : SlotKind) :
    site.operands kind.loadOpcode =
      ((do return .load kind (← Reader.u8).toUInt16) >>= fun i => pure (CodeOp.plain i)) := by
  cases kind <;> rfl

theorem operands_store (site : Site) (kind : SlotKind) :
    site.operands kind.storeOpcode =
      ((do return .store kind (← Reader.u8).toUInt16) >>= fun i => pure (CodeOp.plain i)) := by
  cases kind <;> rfl

/-- The slots that a load or store has short forms for. -/
theorem le_three_cases {slot : UInt16} (h : slot ≤ 3) : slot = 0 ∨ slot = 1 ∨ slot = 2 ∨ slot = 3 := by
  have h' : slot.toNat ≤ 3 := h
  have hs : slot = UInt16.ofNat slot.toNat := UInt16.ofNat_toNat.symm
  rcases (show slot.toNat = 0 ∨ slot.toNat = 1 ∨ slot.toNat = 2 ∨ slot.toNat = 3 by omega) with
    e | e | e | e <;> rw [e] at hs
  · exact .inl hs
  · exact .inr (.inl hs)
  · exact .inr (.inr (.inl hs))
  · exact .inr (.inr (.inr hs))

theorem operands_shortLoad (site : Site) (kind : SlotKind) {slot : UInt16} (h : slot ≤ 3) :
    site.operands (kind.shortLoadOpcode + slot.toUInt8) = pure (.plain (.load kind slot)) := by
  rcases le_three_cases h with rfl | rfl | rfl | rfl <;> cases kind <;> rfl

theorem operands_shortStore (site : Site) (kind : SlotKind) {slot : UInt16} (h : slot ≤ 3) :
    site.operands (kind.shortStoreOpcode + slot.toUInt8) = pure (.plain (.store kind slot)) := by
  rcases le_three_cases h with rfl | rfl | rfl | rfl <;> cases kind <;> rfl

theorem operands_other {site : Site} {opcode : UInt8}
    (h : site.operands opcode = (site.other opcode >>= fun i => pure (CodeOp.plain i))) {bytes : Bytes}
    {instruction : Instruction} (h' : (site.other opcode).Yields bytes instruction) :
    (site.operands opcode).Yields bytes (.plain instruction) := by
  rw [h]
  exact h'.bind_pure _

theorem resolve_yields {α : Type} (site : Site) {get : Pool → UInt16 → Except Malformed α}
    {index : UInt16} {a : α} (h : get site.pool index = .ok a) : (site.resolve get).Yields
    (Bytes.ofUInt16 index) a := by
  have h1 : (site.resolve get).Yields (Bytes.ofUInt16 index ++ []) a :=
    (Reader.yields_u16 index).bind (Reader.yields_ofExcept h)
  rwa [List.append_nil] at h1

end Site

/-! ## The encodings -/

variable {pool : Pool}

/-- An instruction is read as itself once its operands are, at every place. -/
theorem readsAs_of {opcode : UInt8} {bytes : Bytes} {instruction : Instruction}
    (h : ∀ site : Site, site.pool = pool → (site.operands opcode).Yields bytes (.plain instruction)) :
    ReadsAs pool (opcode :: bytes) instruction :=
  fun _ _ => read_yieldsAt (h _ rfl _)

theorem readsAs_simple (op : Simple) : ReadsAs pool [op.opcode] (.simple op) :=
  readsAs_of fun site _ => by
    rw [Site.operands_simple]
    exact Reader.yields_pure _

theorem readsAs_shuffle (op : StackOp) : ReadsAs pool [op.opcode] (.shuffle op) :=
  readsAs_of fun site _ => by
    rw [Site.operands_shuffle]
    exact Reader.yields_pure _

theorem toUInt16_toUInt8 {slot : UInt16} (h : slot ≤ 0xFF) : slot.toUInt8.toUInt16 = slot := by
  have h' : slot.toNat ≤ 255 := h
  apply UInt16.toNat_inj.mp
  rw [UInt8.toNat_toUInt16, UInt16.toNat_toUInt8, Nat.mod_eq_of_lt (by omega)]

theorem readsAs_load (kind : SlotKind) (slot : UInt16) :
    ReadsAs pool (Instruction.encodeSlot kind.shortLoadOpcode kind.loadOpcode slot) (.load kind slot) := by
  unfold Instruction.encodeSlot
  split_ifs with hshort hbyte
  · exact readsAs_of fun site _ => by
      rw [Site.operands_shortLoad site kind hshort]
      exact Reader.yields_pure _
  · exact readsAs_of fun site _ => by
      rw [Site.operands_load]
      have h := (Reader.yields_u8 slot.toUInt8).bind_pure fun w => Instruction.load kind w.toUInt16
      rw [toUInt16_toUInt8 hbyte] at h
      exact h.bind_pure _
  · exact readsAs_of fun site _ => by
      have h : site.operands wideOpcode = site.wide := rfl
      rw [h]
      refine (Reader.yields_u8 kind.loadOpcode).bind ?_
      have h2 := (Reader.yields_u16 slot).bind_pure fun index => (.plain (.load kind index) : CodeOp Nat)
      cases kind <;> exact h2

theorem readsAs_store (kind : SlotKind) (slot : UInt16) :
    ReadsAs pool (Instruction.encodeSlot kind.shortStoreOpcode kind.storeOpcode slot) (.store kind slot) := by
  unfold Instruction.encodeSlot
  split_ifs with hshort hbyte
  · exact readsAs_of fun site _ => by
      rw [Site.operands_shortStore site kind hshort]
      exact Reader.yields_pure _
  · exact readsAs_of fun site _ => by
      rw [Site.operands_store]
      have h := (Reader.yields_u8 slot.toUInt8).bind_pure fun w => Instruction.store kind w.toUInt16
      rw [toUInt16_toUInt8 hbyte] at h
      exact h.bind_pure _
  · exact readsAs_of fun site _ => by
      have h : site.operands wideOpcode = site.wide := rfl
      rw [h]
      refine (Reader.yields_u8 kind.storeOpcode).bind ?_
      have h2 := (Reader.yields_u16 slot).bind_pure fun index => (.plain (.store kind index) : CodeOp Nat)
      cases kind <;> exact h2

theorem toInt16_toInt8 {amount : Int16} (h : -128 ≤ amount.toInt) (h' : amount.toInt ≤ 127) :
    amount.toInt8.toInt16 = amount := by
  apply Int16.toInt_inj.mp
  rw [Int8.toInt_toInt16, Int16.toInt_toInt8]
  exact Int.bmod_eq_of_le (by omega) (by omega)

theorem readsAs_increment (slot : UInt16) (amount : Int16) :
    ReadsAs pool (Instruction.encodeIncrement slot amount) (.increment slot amount) := by
  unfold Instruction.encodeIncrement
  split_ifs with hsmall
  · obtain ⟨hslot, hlow, hhigh⟩ := hsmall
    refine readsAs_of fun site _ => Site.operands_other rfl ?_
    have h : (site.other incrementOpcode).Yields (slot.toUInt8 :: Bytes.ofInt8 amount.toInt8)
        (.increment slot.toUInt8.toUInt16 amount.toInt8.toInt16) :=
      (Reader.yields_u8 slot.toUInt8).bind ((Reader.yields_i8 amount.toInt8).bind_pure fun a =>
        Instruction.increment slot.toUInt8.toUInt16 a.toInt16)
    rwa [toInt16_toInt8 hlow hhigh, toUInt16_toUInt8 hslot] at h
  · exact readsAs_of fun site _ => by
      have h : site.operands wideOpcode = site.wide := rfl
      rw [h]
      refine (Reader.yields_u8 incrementOpcode).bind ((Reader.yields_u16 slot).bind ?_)
      exact (Reader.yields_i16 amount).bind_pure fun a => CodeOp.plain (.increment slot a)

theorem constant_yields (site : Site) {index : UInt16} {constant : Loadable} {wide : Bool}
    (h : site.pool.loadable index = .ok constant) (hwide : (constant.width == 2) = wide) :
    (site.constant index wide).Yields [] (.loadConstant constant) := by
  intro position rest
  unfold Site.constant
  rw [Outcome.reader_bind_of (Reader.yields_ofExcept h position rest), if_pos hwide]
  rfl

theorem readsAs_loadConstant {index : UInt16} {constant : Loadable} (h : pool.loadable index = .ok constant) :
    ReadsAs pool (Instruction.encodeConstant constant.width index) (.loadConstant constant) := by
  unfold Instruction.encodeConstant
  split_ifs with hwide hbyte
  · refine readsAs_of fun site hsite => Site.operands_other rfl ?_
    have h1 : (site.other 0x14).Yields (Bytes.ofUInt16 index ++ []) (.loadConstant constant) :=
      (Reader.yields_u16 index).bind (constant_yields site (hsite ▸ h) (by rw [hwide]; rfl))
    rwa [List.append_nil] at h1
  · refine readsAs_of fun site hsite => Site.operands_other rfl ?_
    have hindex : site.pool.loadable index.toUInt8.toUInt16 = .ok constant := by
      rw [toUInt16_toUInt8 hbyte, hsite]
      exact h
    have h1 : (site.other 0x12).Yields ([index.toUInt8] ++ []) (.loadConstant constant) :=
      (Reader.yields_u8 index.toUInt8).bind (constant_yields site hindex (beq_false_of_ne hwide))
    exact h1
  · refine readsAs_of fun site hsite => Site.operands_other rfl ?_
    have h1 : (site.other 0x13).Yields (Bytes.ofUInt16 index ++ []) (.loadConstant constant) :=
      (Reader.yields_u16 index).bind (constant_yields site (hsite ▸ h) (beq_false_of_ne hwide))
    rwa [List.append_nil] at h1

theorem readsAs_field (access : FieldAccess) {index : UInt16} {ref : FieldRef}
    (h : pool.fieldRef index = .ok ref) : ReadsAs pool (access.opcode :: Bytes.ofUInt16 index)
    (.field access ref) :=
  readsAs_of fun site hsite => by
    have h1 : (site.resolve Pool.fieldRef).Yields (Bytes.ofUInt16 index) ref := Site.resolve_yields site
      (hsite ▸ h)
    cases access <;> exact Site.operands_other rfl (h1.bind_pure _)

/-- The bytes behind the index of an interface call are skipped, whatever they say. -/
theorem readsAs_interface {index : UInt16} {method : MethodRef} (h : pool.methodRef index = .ok method)
    (count zero : UInt8) : ReadsAs pool (0xb9 :: Bytes.ofUInt16 index ++ [count, zero])
    (.invoke .interface method) :=
  readsAs_of fun site hsite => Site.operands_other rfl <|
    (Site.resolve_yields site (hsite ▸ h)).bind <|
      (Reader.yields_u8 count).bind
      ((Reader.yields_u8 zero).bind_pure fun _ => Instruction.invoke .interface method)

theorem readsAs_invoke (mode : InvokeMode) {index : UInt16} {method : MethodRef}
    (h : pool.methodRef index = .ok method) :
    ReadsAs pool (mode.opcode :: Bytes.ofUInt16 index ++ Instruction.encodeCount mode method)
    (.invoke mode method) := by
  cases mode with
  | interface => exact readsAs_interface h _ 0
  | _ =>
    refine readsAs_of fun site hsite => ?_
    have h1 : (site.resolve Pool.methodRef).Yields (Bytes.ofUInt16 index) method := Site.resolve_yields site
      (hsite ▸ h)
    change (site.operands _).Yields (Bytes.ofUInt16 index ++ []) _
    rw [List.append_nil]
    exact Site.operands_other rfl (h1.bind_pure _)

theorem readsAs_invokeDynamic {index : UInt16} {callSite : CallSite} (h : pool.callSite index = .ok callSite) :
    ReadsAs pool (0xba :: Bytes.ofUInt16 index ++ [0, 0]) (.invokeDynamic callSite) :=
  readsAs_of fun site hsite => Site.operands_other rfl <|
    (Site.resolve_yields site (hsite ▸ h)).bind
      ((Reader.yields_u16 0).bind_pure fun _ => Instruction.invokeDynamic callSite)

/-- The instructions whose one operand is a type. -/
theorem readsAs_type {opcode : UInt8} {f : RefType → Instruction} {index : UInt16} {type : RefType}
    (hother : ∀ site : Site, site.operands opcode =
      ((site.resolve Pool.refType >>= fun t => pure (f t)) >>= fun i => pure (CodeOp.plain i)))
    (h : pool.refType index = .ok type) : ReadsAs pool (opcode :: Bytes.ofUInt16 index) (f type) :=
  readsAs_of fun site hsite => by
    rw [hother]
    exact ((Site.resolve_yields site (hsite ▸ h)).bind_pure f).bind_pure _

theorem readsAs_newArray (element : BaseType) : ReadsAs pool [0xbc, element.arrayCode] (.newArray element) :=
  readsAs_of fun site _ => Site.operands_other rfl <| by
    have h : (site.other 0xbc).Yields ([element.arrayCode] ++ []) (.newArray element) := by
      refine (Reader.yields_u8 element.arrayCode).bind ?_
      rw [BaseType.ofArrayCode?_arrayCode]
      exact Reader.yields_pure _
    exact h

theorem readsAs_newMultiArray {index : UInt16} {type : RefType} (dimensions : UInt8)
    (h : pool.refType index = .ok type) :
    ReadsAs pool (0xc5 :: Bytes.ofUInt16 index ++ [dimensions]) (.newMultiArray type dimensions) :=
  readsAs_of fun site hsite => Site.operands_other rfl <|
    (Site.resolve_yields site (hsite ▸ h)).bind
      ((Reader.yields_u8 dimensions).bind_pure fun d => Instruction.newMultiArray type d)

end CodeOp

/-! ## Encoding and reading -/

/-- The symbolic operands of an instruction are found in the pool `r` at the indices that interning them gives,
when it takes the pool `p` to `q`. -/
def Instruction.FoundIn (p q r : Pool) : Instruction → Prop
  | .loadConstant constant => ∀ index, Interning.loadable constant p = .ok index q →
  r.loadable index = .ok constant
  | .field _ ref => ∀ index, Interning.fieldRef ref p = .ok index q → r.fieldRef index = .ok ref
  | .invoke _ m => ∀ index, Interning.methodRef m p = .ok index q → r.methodRef index = .ok m
  | .invokeDynamic site => ∀ index, Interning.callSite site p = .ok index q → r.callSite index = .ok site
  | .newObject type | .newRefArray type | .checkCast type | .instanceOf type | .newMultiArray type _ =>
    ∀ index, Interning.refType type p = .ok index q → r.refType index = .ok type
  | _ => True

open CodeOp in
/-- The bytes of an instruction are read back wherever its operands are found. -/
theorem Instruction.readsAs_of_foundIn {instruction : Instruction} {p q r : Pool} {bytes : Bytes}
    (h : instruction.encode p = .ok bytes q) (hfound : instruction.FoundIn p q r) :
    ReadsAs r bytes instruction := by
  have fixed : ∀ {bs : Bytes}, (pure bs : Interning Bytes) p = .ok bytes q → ReadsAs r bs instruction →
      ReadsAs r bytes instruction := by
    intro bs h hr
    rw [(Outcome.estate_pure.mp h).1]
    exact hr
  -- what interns one constant is read again if that is found
  have one : ∀ {action : Interning UInt16} {f : UInt16 → Bytes},
      (action >>= fun index => pure (f index)) p = .ok bytes q →
      (∀ index, action p = .ok index q → ReadsAs r (f index) instruction) → ReadsAs r bytes instruction := by
    intro action f h hr
    obtain ⟨index, q', h1, h⟩ := Outcome.estate_bind.mp h
    obtain ⟨rfl, rfl⟩ := Outcome.estate_pure.mp h
    exact hr index h1
  cases instruction with
  | simple op => exact fixed h (readsAs_simple op)
  | shuffle op => exact fixed h (readsAs_shuffle op)
  | loadElement => exact fixed h (readsAs_of fun site _ => Site.operands_other rfl (Reader.yields_pure _))
  | pushByte value =>
    exact fixed h (readsAs_of fun site _ => Site.operands_other rfl ((Reader.yields_i8 value).bind_pure _))
  | pushShort value =>
    exact fixed h (readsAs_of fun site _ => Site.operands_other rfl ((Reader.yields_i16 value).bind_pure _))
  | load kind slot => exact fixed h (readsAs_load kind slot)
  | store kind slot => exact fixed h (readsAs_store kind slot)
  | increment slot amount => exact fixed h (readsAs_increment slot amount)
  | newArray element => exact fixed h (readsAs_newArray element)
  | loadConstant constant => exact one h fun index h1 => readsAs_loadConstant (hfound index h1)
  | field access ref => exact one h fun index h1 => readsAs_field access (hfound index h1)
  | invoke mode method => exact one h fun index h1 => readsAs_invoke mode (hfound index h1)
  | invokeDynamic site => exact one h fun index h1 => readsAs_invokeDynamic (hfound index h1)
  | newObject type | newRefArray type | checkCast type | instanceOf type =>
    exact one h fun index h1 => readsAs_type (fun _ => rfl) (hfound index h1)
  | newMultiArray type dimensions =>
    exact one h fun index h1 => readsAs_newMultiArray dimensions (hfound index h1)

/-- What was encoded into a pool is read back in that pool and in every later one. -/
theorem Instruction.encode_ok {instruction : Instruction} {p q : Pool} {bytes : Bytes} (hp : p.WellFormed)
    (hw : instruction.IsWritable) (h : instruction.encode p = .ok bytes q) :
    Interning.Result p q (∀ r, q.Grows r → CodeOp.ReadsAs r bytes instruction) := by
  have fixed : ∀ {bs : Bytes}, (pure bs : Interning Bytes) p = .ok bytes q →
      Interning.Result p q (∀ r, q.Grows r → True) := by
    intro bs h
    obtain ⟨-, rfl⟩ := Outcome.estate_pure.mp h
    exact ⟨hp, .refl _, fun _ _ => trivial⟩
  -- one operand: the index that is found is the one that is written
  have one : ∀ {action : Interning UInt16} {f : UInt16 → Bytes} {found : Pool → UInt16 → Prop},
      (action >>= fun index => pure (f index)) p = .ok bytes q →
      (∀ {index}, action p = .ok index q → Interning.Result p q (∀ r, q.Grows r → found r index)) →
      Interning.Result p q (∀ r, q.Grows r → ∀ index, action p = .ok index q → found r index) := by
    intro action f found h hr
    obtain ⟨index, q', h1, h⟩ := Outcome.estate_bind.mp h
    obtain ⟨-, rfl⟩ := Outcome.estate_pure.mp h
    have hresult := hr h1
    refine ⟨hresult.wellFormed, hresult.grows, fun r hgrows index' h2 => ?_⟩
    cases h1.symm.trans h2
    exact hresult.post r hgrows
  -- an instruction with an operand in the pool needs it to be found there later
  have hfound : Interning.Result p q (∀ r, q.Grows r → instruction.FoundIn p q r) := by
    cases instruction with
    | loadConstant constant =>
      refine one h fun h1 => ?_
      have r := Interning.loadable_ok hp hw h1
      exact ⟨r.wellFormed, r.grows, fun _ hr => hr.loadable r.post⟩
    | field access ref =>
      refine one h fun h1 => ?_
      have r := Interning.fieldRef_ok hp hw h1
      exact ⟨r.wellFormed, r.grows, fun _ hr => hr.fieldRef r.post⟩
    | invoke mode method =>
      refine one h fun h1 => ?_
      have r := Interning.methodRef_ok hp hw h1
      exact ⟨r.wellFormed, r.grows, fun _ hr => hr.methodRef r.post⟩
    | invokeDynamic site =>
      refine one h fun h1 => ?_
      have r := Interning.callSite_ok hp hw h1
      exact ⟨r.wellFormed, r.grows, fun _ hr => hr.callSite r.post⟩
    | newObject type | newRefArray type | checkCast type | instanceOf type | newMultiArray type dimensions =>
      refine one h fun h1 => ?_
      have r := Interning.refType_ok hp hw h1
      exact ⟨r.wellFormed, r.grows, fun _ hr => hr.refType r.post⟩
    | _ => exact fixed h
  exact ⟨hfound.wellFormed, hfound.grows, fun r hr => readsAs_of_foundIn h (hfound.post r hr)⟩

end ClassWeave
