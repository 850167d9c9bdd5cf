import ClassWeave.Proofs.Layout.ReadBack

/-!
# Decoding undoes encoding

Instructions are written one after the other, each against the pool as it is then, and in between the pool
answers other requests (`Pool.Writes`). Whatever it was asked, the bytes of each instruction are read as that
instruction in the pool that is left in the end, and all the bytes together as all the instructions.
-/

namespace ClassWeave

/-! ## Instructions only add to a pool -/

namespace Interning

theorem adds_pure {ε α : Type} (a : α) : Adds (pure a : EStateM ε Pool α) :=
  fun p hp => ⟨.refl p, hp⟩

theorem adds_refType (type : RefType) : Adds (refType type) :=
  adds_classRef _

theorem adds_callSite (site : CallSite) : Adds (callSite site) :=
  (adds_nameAndType _ _).bind fun _ => adds_intern _

end Interning

open Interning in
theorem Instruction.adds_encode (instruction : Instruction) : Adds instruction.encode := by
  cases instruction with
  | loadConstant constant => exact (adds_loadable constant).bind fun _ => adds_pure _
  | field access ref => exact (adds_fieldRef ref).bind fun _ => adds_pure _
  | invoke mode method => exact (adds_methodRef method).bind fun _ => adds_pure _
  | invokeDynamic site => exact (adds_callSite site).bind fun _ => adds_pure _
  | newObject type | newRefArray type | checkCast type | instanceOf type | newMultiArray type =>
    exact (adds_refType type).bind fun _ => adds_pure _
  | _ => exact adds_pure _

namespace Pool

/-- What a pool goes through while instructions are written. It answers other requests, and an instruction that
it has no room for leaves what was added for it before. -/
inductive Writes : Pool → List (Instruction × Bytes) → Pool → Prop
  | nil (p : Pool) : Writes p [] p
  | request {p q : Pool} {written : List (Instruction × Bytes)} (request : Request) :
    Writes (p.serve request) written q → Writes p written q
  | refused {p p' q : Pool} {written : List (Instruction × Bytes)} {instruction : Instruction} {full :
    PoolFull} : instruction.encode p = .error full p' → Writes p' written q → Writes p written q
  | encode {p p' q : Pool} {written : List (Instruction × Bytes)} {instruction : Instruction} {bytes : Bytes} :
    instruction.encode p = .ok bytes p' → Writes p' written q → Writes p ((instruction, bytes) :: written) q

namespace Writes

variable {p q : Pool} {written : List (Instruction × Bytes)}

theorem adds (h : Writes p written q) (hp : p.nextIndex ≤ limit) : p.Grows q ∧ q.nextIndex ≤ limit := by
  induction h with
  | nil p => exact ⟨.refl p, hp⟩
  | @request p q written request _ ih =>
    obtain ⟨hgrows, hbound⟩ := serve_adds hp request
    obtain ⟨hgrows', hbound'⟩ := ih hbound
    exact ⟨hgrows.trans hgrows', hbound'⟩
  | @refused p p' q written instruction full hencode _ ih =>
    have hadds := instruction.adds_encode p hp
    rw [after_of_error hencode] at hadds
    obtain ⟨hgrows', hbound'⟩ := ih hadds.2
    exact ⟨hadds.1.trans hgrows', hbound'⟩
  | @encode p p' q written instruction bytes hencode _ ih =>
    have hadds := instruction.adds_encode p hp
    rw [after_of_ok hencode] at hadds
    obtain ⟨hgrows', hbound'⟩ := ih hadds.2
    exact ⟨hadds.1.trans hgrows', hbound'⟩

/-- In the pool that is left, every instruction has the bytes that were written for it, and needs nothing more. -/
theorem encode_again (h : Writes p written q) (hp : p.nextIndex ≤ limit) :
    ∀ entry ∈ written, entry.1.encode q = .ok entry.2 q := by
  induction h with
  | nil p => simp
  | request request _ ih => exact ih (serve_adds hp request).2
  | @refused p p' q written instruction full hencode _ ih =>
    have hadds := instruction.adds_encode p hp
    rw [after_of_error hencode] at hadds
    exact ih hadds.2
  | @encode p p' q written instruction bytes hencode hrest ih =>
    have hadds := instruction.adds_encode p hp
    rw [after_of_ok hencode] at hadds
    intro entry hentry
    rcases List.mem_cons.mp hentry with rfl | hentry
    · exact (Repeatable.encode instruction p p' bytes hencode).2 q (hrest.adds hadds.2).1
    · exact ih hadds.2 entry hentry

theorem consistent (h : Writes p written q) (hp : p.Initial) : q.Consistent := by
  obtain ⟨hgrows, hbound⟩ := h.adds hp.wellFormed.1.bounded
  obtain ⟨cs, rfl⟩ := hp.wellFormed.1.built
  obtain ⟨ds, rfl⟩ := hgrows
  have hsame : ds.foldl push (ofConstants cs) = ofConstants (cs ++ ds) := List.foldl_append.symm
  rw [hsame] at hbound ⊢
  exact consistent_ofConstants hbound

end Writes

end Pool

namespace Instruction

/-- The instructions with the offsets at which their bytes stand, the first at `offset`. -/
def placed (offset : Nat) : List (Instruction × Bytes) → List (Nat × CodeOp Nat)
  | [] => []
  | (instruction, bytes) :: rest => (offset, .plain instruction) :: placed (offset + bytes.length) rest

theorem readsAllAs_placed {pool : Pool} {written : List (Instruction × Bytes)}
    (h : ∀ entry ∈ written, CodeOp.ReadsAs pool entry.2 entry.1) (codeLength offset : Nat) :
    CodeOp.ReadsAllAs codeLength pool offset (written.flatMap Prod.snd) (placed offset written) := by
  induction written generalizing offset with
  | nil => exact .nil offset
  | cons entry rest ih =>
    obtain ⟨hentry, hrest⟩ := List.forall_mem_cons.mp h
    rw [List.flatMap_cons]
    exact .cons hentry.ne_nil (hentry codeLength offset) (ih hrest _)

theorem targets_placed {offset : Nat} {written : List (Instruction × Bytes)} :
    ∀ op ∈ placed offset written, op.2.targets = [] := by
  induction written generalizing offset with
  | nil => simp [placed]
  | cons entry rest ih =>
    intro op hop
    rcases List.mem_cons.mp hop with rfl | hop
    · rfl
    · exact ih op hop

/-- Bytes that are read as instructions are decoded to them. -/
theorem decode_placed {pool : Pool} {written : List (Instruction × Bytes)}
    (h : ∀ entry ∈ written, CodeOp.ReadsAs pool entry.2 entry.1) :
    Code.decode (written.flatMap Prod.snd) pool = .ok (placed 0 written) := by
  have hall := CodeOp.readAll_of_readsAllAs (readsAllAs_placed h (written.flatMap Prod.snd).length 0)
    (Nat.le_refl _)
  have hcheck : Code.checkTargets (placed 0 written) = .ok () := by
    refine Outcome.except_forM.mpr fun op hop => ?_
    rw [targets_placed op hop]
    rfl
  exact Outcome.except_bind.mpr ⟨_, hall, Outcome.except_bind.mpr ⟨(), hcheck, rfl⟩⟩

/-- Whatever a pool goes through while instructions are written, what is left of it reads the bytes of each as that
instruction, wherever they stand, and the bytes of all, one behind the other, as all of them. -/
theorem decode_written {p q : Pool} {written : List (Instruction × Bytes)} (hp : p.Initial)
    (h : p.Writes written q) (hreadable : ∀ entry ∈ written, entry.1.IsReadable) :
    (∀ entry ∈ written, CodeOp.ReadsAs q entry.2 entry.1) ∧
      Code.decode (written.flatMap Prod.snd) q = .ok (placed 0 written) := by
  have hreads : ∀ entry ∈ written, CodeOp.ReadsAs q entry.2 entry.1 := fun entry hentry =>
    readsAs_of_encode (h.consistent hp) (hreadable entry hentry)
      (h.encode_again hp.wellFormed.1.bounded entry hentry)
  exact ⟨hreads, decode_placed hreads⟩

/-- Two casts to the same type with a wide load in between. -/
def castTwice : List (Instruction × Bytes) :=
  [(.checkCast Layout.numbers, [0xc0, 0, 2]), (.load .ref 300, [0xc4, 0x19, 1, 44]),
    (.checkCast Layout.numbers, [0xc0, 0, 2])]

theorem decode_written_castTwice : ∃ q : Pool, Pool.Initial .empty ∧ Pool.Writes .empty castTwice q ∧
    (∀ entry ∈ castTwice, entry.1.IsReadable) ∧
    (∀ entry ∈ castTwice, CodeOp.ReadsAs q entry.2 entry.1) ∧
    Code.decode [0xc0, 0, 2, 0xc4, 0x19, 1, 44, 0xc0, 0, 2] q = .ok [(0, .plain (.checkCast Layout.numbers)),
      (3, .plain (.load .ref 300)), (7, .plain (.checkCast Layout.numbers))] := by
  have hfirst := Layout.encode_checkCast Layout.numbers
  obtain ⟨-, hagain⟩ := Repeatable.encode _ _ _ _ hfirst
  have hgrows := (Pool.serve_adds (p := .ofConstants (Layout.typeConstants Layout.numbers)) (by decide)
    (.text "x")).1
  have hwrites : Pool.Writes .empty castTwice _ :=
    .encode hfirst (.request (.text "x") (.encode rfl (.encode (hagain _ hgrows) (.nil _))))
  have hcast : (checkCast Layout.numbers).IsReadable := show 0 + 1 ≤ maxDimensions by decide
  have hreadable : ∀ entry ∈ castTwice, entry.1.IsReadable := by
    simp only [castTwice, List.forall_mem_cons]
    exact ⟨hcast, trivial, hcast, by simp⟩
  exact ⟨_, .inl rfl, hwrites, hreadable, decode_written (.inl rfl) hwrites hreadable⟩

end Instruction

end ClassWeave
