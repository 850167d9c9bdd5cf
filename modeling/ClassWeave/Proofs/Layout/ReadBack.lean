import ClassWeave.Proofs.Instruction.Decoded
import ClassWeave.Proofs.Method.Repeatable
import ClassWeave.Proofs.Pool.Found
import Mathlib.Logic.Function.Iterate

/-!
# Layouts are right

Widening comes to an end where one more round changes nothing, and distances that are written in 16 bits are
right. The code is read back as what was laid out, at the offsets that the layout gives, exactly where two
things hold that the decoder looks at (`Layout.Readable`): operands can be read, and no negated condition skips
to the end of the code, where there is no instruction.
-/

namespace ClassWeave

/-- The item was made of the entry, in the pool as it was before more constants came. -/
def CodeOp.LaidOutAs (pool : Pool) (op : CodeOp Nat) (item : LayoutItem) : Prop :=
  ∃ p q, op.layoutItem p = .ok item q ∧ q.Grows pool

/-- The item stands for the entry, if its operands can be read. -/
theorem CodeOp.LaidOutAs.encodedBy {pool : Pool} (hp : pool.Consistent) {op : CodeOp Nat} {item : LayoutItem}
    (h : op.LaidOutAs pool item) (hw : ∀ instruction, op = .plain instruction → instruction.IsReadable) :
    op.EncodedBy pool item := by
  obtain ⟨p, q, hitem, hgrows⟩ := h
  have hagain := (Repeatable.layoutItem op p q item hitem).2 pool hgrows
  cases op with
  | plain instruction =>
    obtain ⟨bytes, hbytes, h⟩ := (Repeatable.encode instruction).bind_again (fun _ => .pure _) hagain
    obtain ⟨rfl, -⟩ := Outcome.estate_pure.mp h
    exact Instruction.readsAs_of_encode hp (hw instruction rfl) hbytes
  | branch b =>
    obtain ⟨rfl, -⟩ := Outcome.estate_pure.mp hagain
    rfl

namespace Layout

variable {reach : Reach}

/-! ## Rounds -/

/-- One more round changes nothing. -/
theorem widen_settled (items : List LayoutItem) : widen reach (settled reach items) = settled reach items := by
  have hflags : (widen reach (settled reach items)).map Prod.snd = (settled reach items).map Prod.snd :=
    widen_settle items.length _ (by rw [List.length_map]; omega)
  have hunzip : (widen reach (settled reach items)).unzip = (settled reach items).unzip := by
    rw [List.unzip_eq_map, List.unzip_eq_map, map_fst_widen, hflags]
  rw [← List.zip_unzip (widen reach (settled reach items)), hunzip, List.zip_unzip]

/-! ## Widths -/

variable {items : List LayoutItem} {ops : List (CodeOp Nat)} {pool : Pool}

/-- No item is wider than the code. -/
theorem Encoding.width_le (h : Encoding pool ops items) {k : Nat} {entry : LayoutItem × Bool}
    (hk : (settled Reach.signed16 items)[k]? = some entry) :
    entry.1.width ((ofItems items).offset k) entry.2 ≤ (ofItems items).code.length := by
  have hlt := (List.getElem?_eq_some_iff.mp hk).1
  rw [length_settled] at hlt
  have hnext := offset_succ hk
  have hend : (ofItems items).offset items.length = (ofItems items).code.length := offset_length
  rcases Nat.eq_or_lt_of_le (show k + 1 ≤ items.length from hlt) with heq | hlt
  · rw [heq] at hnext
    omega
  · have := h.offset_lt hlt (Nat.le_refl _)
    omega

/-- A `lookupswitch` has fewer cases than the code has bytes. -/
theorem Encoding.length_cases_lt (h : Encoding pool ops items) {otherwise : Nat} {cases : List (Int32 × Nat)}
    (hmem : .branch (.lookupSwitch otherwise cases) ∈ ops) : cases.length < (ofItems items).code.length := by
  obtain ⟨k, hk⟩ := List.mem_iff_getElem?.mp hmem
  have hlt := (List.getElem?_eq_some_iff.mp hk).1
  obtain ⟨op, item, wide, hop, hitem, hencoded⟩ := h.entry (h.length_eq ▸ hlt)
  rw [hk] at hop
  cases hop
  cases item with
  | encoded bytes => cases hencoded
  | branch b =>
    cases hencoded
    have hwidth := h.width_le hitem
    change 1 + _ + 8 * (1 + cases.length) ≤ _ at hwidth
    omega

/-! ## Displacements -/

/-- The instruction at a position begins with an opcode and 16 bits that hold the distance from there to another
position. -/
def HasDisplacement (layout : Layout) (position target : Nat) : Prop :=
  ∃ (before after : Bytes) (opcode : UInt8) (displacement : Int16),
    layout.code = before ++ (opcode :: Bytes.ofInt16 displacement ++ after) ∧
    before.length = layout.offset position ∧
      displacement.toInt = layout.offset target - layout.offset position

/-- The bytes of an item begin at its offset. -/
theorem code_split {k : Nat} {entry : LayoutItem × Bool}
    (hk : (settled Reach.signed16 items)[k]? = some entry) : ∃ before after, (ofItems items).code =
      before ++ (entry.1.encode (ofItems items).offsets ((ofItems items).offset k) entry.2 ++ after) ∧
        before.length = (ofItems items).offset k := by
  obtain ⟨hlt, hget⟩ := List.getElem?_eq_some_iff.mp hk
  have hsplit : settled Reach.signed16 items =
      (settled Reach.signed16 items).take k ++ entry :: (settled Reach.signed16 items).drop (k + 1) := by
    rw [← hget, List.getElem_cons_drop, List.take_append_drop]
  have htake : ((settled Reach.signed16 items).take k).length = k := List.length_take_of_le (Nat.le_of_lt hlt)
  have hbefore := @offset_add_length _
    (fun entry => entry.1.1.encode (ofItems items).offsets ((ofItems items).offset entry.2) entry.1.2)
    (ofItems items).offset ((settled Reach.signed16 items).take k) 0 fun j entry hj => by
      rw [List.getElem?_take] at hj
      split_ifs at hj
      exact offset_next hj
  rw [htake, Nat.zero_add, offset_zero, Nat.zero_add] at hbefore
  have hcode : (ofItems items).code = _ := code_eq
  rw [hsplit, List.zipIdx_append, List.flatMap_append, List.zipIdx_cons, List.flatMap_cons, htake,
    Nat.zero_add] at hcode
  exact ⟨_, _, hcode, hbefore.symm⟩

/-- What stays narrow is written with the true distance to its target. -/
theorem hasDisplacement_of_narrow {k target : Nat} {b : Branch Nat}
    (hk : (settled Reach.signed16 items)[k]? = some (.branch b, false))
    (htarget : b.reachTarget? = some target) : (ofItems items).HasDisplacement k target := by
  have hcovers := covers_of_narrow hk htarget
  unfold Reach.covers Reach.signed16 at hcovers
  rw [Bool.and_eq_true, decide_eq_true_eq, decide_eq_true_eq] at hcovers
  dsimp only at hcovers
  have hexact := Int16.toInt_ofInt_of_le
    (n := distance (ofItems items).offsets ((ofItems items).offset k) target)
    (by omega) (by omega)
  obtain ⟨before, after, hcode, hbefore⟩ := code_split hk
  cases b with
  | conditional condition t =>
    cases htarget
    exact ⟨before, after, _, _, hcode, hbefore, hexact⟩
  | jump kind t =>
    cases htarget
    exact ⟨before, after, _, _, hcode, hbefore, hexact⟩
  | _ => cases htarget

/-- A negated condition is written with the true distance to what comes after the jump that it skips. -/
theorem hasDisplacement_of_widened {k : Nat} (hk : k ∈ (ofItems items).widened) :
    (ofItems items).offset (k + 1) = (ofItems items).offset k + 8 ∧ (ofItems items).HasDisplacement k
    (k + 1) := by
  obtain ⟨item, hitem, hconditional⟩ := mem_widened.mp hk
  obtain ⟨before, after, hcode, hbefore⟩ := code_split hitem
  have hnext := offset_succ hitem
  cases item with
  | encoded bytes => cases hconditional
  | branch b =>
    cases b with
    | conditional condition target =>
      change _ = _ + 8 at hnext
      refine ⟨hnext, before, JumpKind.goto.wideOpcode ::
        Branch.encodeLong (ofItems items).offsets ((ofItems items).offset k + 3) target ++ after,
        condition.negate.opcode, 8, ?_, hbefore, ?_⟩
      · rw [hcode]
        simp only [LayoutItem.encode, Branch.encode, if_true, List.append_assoc, List.cons_append]
      · rw [hnext]
        change (8 : Int) = _
        omega
    | _ => cases hconditional

/-! ## What a layout says -/

/-- Items that were made of entries, in a pool that was added to in between, with targets among them and with
switches that can be written. -/
structure LaidOut (items : List LayoutItem) (ops : List (CodeOp Nat)) (pool : Pool) : Prop where
  consistent : pool.Consistent
  made : List.Forall₂ (CodeOp.LaidOutAs pool) ops items
  targets : ∀ op ∈ ops, ∀ target ∈ op.targets, target < ops.length
  switches : ∀ (otherwise : Nat) (low : Int32) (targets : List Nat),
    .branch (.tableSwitch otherwise low targets) ∈ ops → targets ≠ [] ∧ low.toInt + targets.length - 1 ≤
    2 ^ 31 - 1
  length : (ofItems items).code.length < 2 ^ 31

/-- What the decoder asks of laid-out code. -/
structure Readable (items : List LayoutItem) (ops : List (CodeOp Nat)) : Prop where
  operands : ∀ instruction, .plain instruction ∈ ops → instruction.IsReadable
  skipped : ∀ k ∈ (ofItems items).widened, k + 1 < ops.length

/-- The layout of the items stands for the entries: widening has come to an end, the code is as long as its last
offset says, it is read back as the entries at their offsets where the decoder can read it, and distances in 16
bits are what they should be. -/
structure ReadsBack (items : List LayoutItem) (ops : List (CodeOp Nat)) (pool : Pool) : Prop where
  rounds : ∃ n ≤ items.length,
    settled Reach.signed16 items = (widen Reach.signed16)^[n] (items.map fun item => (item, false))
  stable : widen Reach.signed16 (settled Reach.signed16 items) = settled Reach.signed16 items
  code_length : (ofItems items).code.length = (ofItems items).offset items.length
  decoded_iff : Code.decode (ofItems items).code pool = .ok ((ofItems items).placedOps ops) ↔ Readable items ops
  narrow : ∀ k b target, (settled Reach.signed16 items)[k]? = some (.branch b, false) →
    b.reachTarget? = some target → (ofItems items).HasDisplacement k target
  widened : ∀ k ∈ (ofItems items).widened,
    (ofItems items).offset (k + 1) = (ofItems items).offset k + 8 ∧ (ofItems items).HasDisplacement k (k + 1)

namespace LaidOut

theorem encoding (h : LaidOut items ops pool)
    (hoperands : ∀ instruction, .plain instruction ∈ ops → instruction.IsReadable) :
    Encoding pool ops items := by
  refine ((List.forall₂_and_left _ _).mpr ⟨fun op hop instruction heq => ?_, h.made⟩).imp fun op item hboth =>
    hboth.2.encodedBy h.consistent hboth.1
  exact hoperands instruction (heq ▸ hop)

/-- Switches fit where they are written. -/
theorem isWritable_branch (h : LaidOut items ops pool) (hencoding : Encoding pool ops items) {b : Branch Nat}
    (hb : .branch b ∈ ops) : b.IsWritable := by
  cases b with
  | tableSwitch otherwise low targets =>
    obtain ⟨hne, hhigh⟩ := h.switches otherwise low targets hb
    exact ⟨hne, by omega⟩
  | lookupSwitch otherwise cases => exact Nat.lt_trans (hencoding.length_cases_lt hb) h.length
  | _ => trivial

/-- What was widened as a conditional branch is one. -/
theorem exists_conditional (h : LaidOut items ops pool) {k : Nat} (hk : k ∈ (ofItems items).widened) :
    ∃ condition target, ops[k]? = some (.branch (.conditional condition target)) := by
  obtain ⟨item, hsettled, hconditional⟩ := mem_widened.mp hk
  obtain ⟨hitems, rfl⟩ := List.getElem?_eq_some_iff.mp (getElem?_settled hsettled)
  have hops : k < ops.length := h.made.length_eq ▸ hitems
  obtain ⟨p, q, hmade, -⟩ : ops[k].LaidOutAs pool items[k] := (List.forall₂_iff_get.mp h.made).2 k hops hitems
  rw [List.getElem?_eq_getElem hops]
  cases hop : ops[k] with
  | plain instruction =>
    rw [hop] at hmade
    obtain ⟨bytes, p1, -, hmade⟩ := Outcome.estate_bind.mp hmade
    rw [(Outcome.estate_pure.mp hmade).1] at hconditional
    cases hconditional
  | branch b =>
    rw [hop] at hmade
    rw [(Outcome.estate_pure.mp hmade).1] at hconditional
    cases b with
    | conditional condition target => exact ⟨condition, target, rfl⟩
    | _ => cases hconditional

theorem decode_iff (h : LaidOut items ops pool) :
    Code.decode (ofItems items).code pool = .ok ((ofItems items).placedOps ops) ↔ Readable items ops := by
  constructor
  · intro hdecode
    have hread := Code.decode_read hdecode
    refine ⟨fun instruction hop => ?_, fun k hk => ?_⟩
    · obtain ⟨k, hk⟩ := List.mem_iff_getElem?.mp hop
      have hplaced : ((ofItems items).offset k, .plain instruction) ∈ (ofItems items).placedOps ops :=
        placedOps_mem.mpr ⟨k, _, hk, List.mem_singleton_self _⟩
      exact Instruction.ResolvedIn.isReadable (hread.resolved _ hplaced)
    · obtain ⟨condition, target, hop⟩ := h.exists_conditional hk
      have hfirst : ((ofItems items).offset k,
          .branch (.conditional condition.negate ((ofItems items).offset k + 8))) ∈
          (ofItems items).placedOps ops := by
        refine placedOps_mem.mpr ⟨k, _, hop, ?_⟩
        rw [placed_conditional, if_pos hk]
        exact List.mem_cons_self
      obtain ⟨op, hmem, hstart⟩ := List.mem_map.mp (hread.targets _ hfirst _ List.mem_cons_self)
      have hinside := (hread.inside op hmem).2
      have hlt := (List.getElem?_eq_some_iff.mp hop).1
      have hnext := (hasDisplacement_of_widened hk).1
      rw [hstart, ← hnext, ← offset_length, ← h.made.length_eq] at hinside
      -- what is skipped to is not where the code ends
      refine Nat.lt_of_le_of_ne hlt fun heq => ?_
      rw [heq] at hinside
      exact Nat.lt_irrefl _ hinside
  · intro hreadable
    have hencoding := h.encoding hreadable.operands
    exact hencoding.decode h.length (fun b hb => h.isWritable_branch hencoding hb) h.targets
      fun k _ _ _ hk => hreadable.skipped k hk

end LaidOut

/-- What was laid out is read back exactly where the decoder can read it, and all else that a layout says is
right. -/
theorem readsBack_of_laidOut (h : LaidOut items ops pool) : ReadsBack items ops pool where
  rounds := settle_eq_iterate _ _
  stable := widen_settled items
  code_length := offset_length.symm
  decoded_iff := h.decode_iff
  narrow := fun _ _ _ hk htarget => hasDisplacement_of_narrow hk htarget
  widened := fun _ hk => hasDisplacement_of_widened hk

/-! ## Code that can be read, and code that cannot -/

/-- The entries of a type in a pool that was empty. -/
def typeConstants (type : RefType) : List Constant :=
  [.utf8 (ModifiedUtf8.encode type.className), .classRef 1]

theorem nextIndex_typeConstants (type : RefType) : (Pool.ofConstants (typeConstants type)).nextIndex = 3 := rfl

theorem refType_empty (type : RefType) : Interning.refType type .empty = .ok 2
    (.ofConstants (typeConstants type)) := by
  have htext : Interning.text type.className .empty = .ok 1
      (.ofConstants [.utf8 (ModifiedUtf8.encode type.className)]) :=
    @Pool.intern_ofConstants [] (.utf8 (ModifiedUtf8.encode type.className)) List.not_mem_nil
      (show 1 + 1 ≤ Pool.limit by decide)
  exact Outcome.estate_bind.mpr ⟨1, _, htext, Pool.intern_ofConstants (by simp)
    (show 2 + 1 ≤ Pool.limit by decide)⟩

theorem encode_checkCast (type : RefType) :
    (Instruction.checkCast type).encode .empty = .ok [0xc0, 0, 2] (.ofConstants (typeConstants type)) :=
  Outcome.estate_bind.mpr ⟨2, _, refType_empty type, rfl⟩

/-- A table, a branch back over it, and what comes behind. -/
def overTable (count : Nat) (rest : List (CodeOp Nat)) : List (CodeOp Nat) :=
  .branch (.tableSwitch 1 0 (List.replicate count 1)) :: .branch (.conditional (.zero .eq) 0) :: rest

/-- What the entries become. -/
def overTableItems (count : Nat) (rest : List LayoutItem) : List LayoutItem :=
  .branch (.tableSwitch 1 0 (List.replicate count 1)) :: .branch (.conditional (.zero .eq) 0) :: rest

theorem laidOut_overTable {count : Nat} {rest : List (CodeOp Nat)} {others : List LayoutItem} (hpos : 0 < count)
    (hcount : count < 2 ^ 31) (hpool : pool.Consistent)
    (hmade : List.Forall₂ (CodeOp.LaidOutAs pool) rest others) (hstay : ∀ op ∈ rest, op.targets = [])
    (hlength : (ofItems (overTableItems count others)).code.length < 2 ^ 31) :
    LaidOut (overTableItems count others) (overTable count rest) pool where
  consistent := hpool
  made := .cons ⟨_, _, rfl, .refl _⟩ (.cons ⟨_, _, rfl, .refl _⟩ hmade)
  targets := by
    refine List.forall_mem_cons.mpr ⟨?_, List.forall_mem_cons.mpr ⟨?_, fun op hop => ?_⟩⟩
    · simp [overTable, CodeOp.targets, Branch.targets]
    · simp [overTable, CodeOp.targets, Branch.targets]
    · simp [hstay op hop]
  switches := by
    intro otherwise low targets hop
    rcases List.mem_cons.mp hop with heq | hop
    · -- the only switch, with as many targets as were given
      cases heq
      rw [List.length_replicate, show (0 : Int32).toInt = 0 from rfl]
      exact ⟨mt (List.replicate_eq_nil_iff _).mp (Nat.ne_of_gt hpos), by omega⟩
    · rcases List.mem_cons.mp hop with heq | hop
      · cases heq
      · cases hstay _ hop
  length := hlength

/-- The type of arrays of numbers. -/
def numbers : RefType :=
  .array 0 (.base .int)

/-- A cast and a return. -/
def castAndReturn : List (CodeOp Nat) :=
  [.plain (.checkCast numbers), .branch .returnVoid]

/-- What the entries become. -/
def castAndReturnItems : List LayoutItem :=
  [.encoded [0xc0, 0, 2], .branch .returnVoid]

set_option maxRecDepth 100000 in
theorem widened_overTable : (ofItems (overTableItems 8200 castAndReturnItems)).widened = [1] ∧
    (ofItems (overTableItems 8200 castAndReturnItems)).code.length < 2 ^ 31 := by
  rw [← offset_length]
  decide +kernel

theorem readable_overTable :
    Readable (overTableItems 8200 castAndReturnItems) (overTable 8200 castAndReturn) where
  operands := by
    intro instruction hop
    have hcast : instruction = .checkCast numbers := by
      simpa [-List.reduceReplicate, overTable, castAndReturn] using hop
    rw [hcast]
    exact (show 0 + 1 ≤ maxDimensions by decide)
  skipped := by
    rw [widened_overTable.1]
    intro k hk
    obtain rfl := List.mem_singleton.mp hk
    exact (show 2 < 4 by decide)

theorem readsBack_of_laidOut_overTable :
    LaidOut (overTableItems 8200 castAndReturnItems) (overTable 8200 castAndReturn)
    (.ofConstants (typeConstants numbers)) ∧ Readable (overTableItems 8200 castAndReturnItems)
    (overTable 8200 castAndReturn) ∧ (ofItems (overTableItems 8200 castAndReturnItems)).widened = [1] ∧
    ReadsBack (overTableItems 8200 castAndReturnItems) (overTable 8200 castAndReturn)
      (.ofConstants (typeConstants numbers)) := by
  have hmade : List.Forall₂ (CodeOp.LaidOutAs (.ofConstants (typeConstants numbers))) castAndReturn
      castAndReturnItems :=
    .cons ⟨_, _, Outcome.estate_bind.mpr ⟨_, _, encode_checkCast numbers, rfl⟩, .refl _⟩
      (.cons ⟨_, _, rfl, .refl _⟩ .nil)
  have hlaidOut := laidOut_overTable (by decide) (by decide)
    (Pool.consistent_ofConstants (by rw [nextIndex_typeConstants]; decide)) hmade
    (by decide) widened_overTable.2
  exact ⟨hlaidOut, readable_overTable, widened_overTable.1, readsBack_of_laidOut hlaidOut⟩

/-- One instruction on an empty pool. -/
theorem laidOut_single {instruction : Instruction} {bytes : Bytes} {cs : List Constant}
    (h : instruction.encode .empty = .ok bytes (.ofConstants cs))
    (hbound : (Pool.ofConstants cs).nextIndex ≤ Pool.limit)
    (hlength : (ofItems [.encoded bytes]).code.length < 2 ^ 31) :
    LaidOut [.encoded bytes] [.plain instruction] (.ofConstants cs) where
  consistent := Pool.consistent_ofConstants hbound
  made := .cons ⟨_, _, Outcome.estate_bind.mpr ⟨bytes, _, h, rfl⟩, .refl _⟩ .nil
  targets := by
    intro op hop target htarget
    obtain rfl := List.mem_singleton.mp hop
    cases htarget
  switches := fun _ _ _ h => by cases List.mem_singleton.mp h
  length := hlength

/-- The type of arrays of 256 dimensions. -/
def deep : RefType :=
  .array 255 (.base .int)

/-- A handle to call a field. -/
def calledField : Loadable :=
  .methodHandle .invokeVirtual (.field ⟨⟨"a/B", Eq.refl true⟩, ⟨"f", Eq.refl true⟩, .base .int⟩)

/-- The entries of the handle in a pool that was empty. -/
def handleConstants : List Constant :=
  [.utf8 (ModifiedUtf8.encode "a/B"), .classRef 1, .utf8 (ModifiedUtf8.encode "f"),
    .utf8 (ModifiedUtf8.encode "I"), .nameAndType 3 4, .fieldRef 2 5, .methodHandle .invokeVirtual 6]

theorem intern_handleConstants {n : Nat} {c : Constant} (hc : handleConstants[n]? = some c) :
    Interning.intern c (.ofConstants (handleConstants.take n)) =
      .ok (n + 1).toUInt16 (.ofConstants (handleConstants.take (n + 1))) := by
  have hall : ∀ n < handleConstants.length, ∀ c ∈ handleConstants[n]?, c ∉ handleConstants.take n ∧
      (Pool.ofConstants (handleConstants.take n)).nextIndex = n + 1 ∧ n + 1 + c.width ≤ Pool.limit := by
    decide +kernel
  obtain ⟨hnew, hindex, hroom⟩ := hall n (List.getElem?_eq_some_iff.mp hc).1 c hc
  rw [List.take_add_one, hc, ← hindex]
  exact Pool.intern_ofConstants hnew (hindex ▸ hroom)

theorem encode_calledField :
    (Instruction.loadConstant calledField).encode .empty = .ok [0x12, 7] (.ofConstants handleConstants) := by
  have howner : Interning.classRef "a/B" .empty = .ok 2 (.ofConstants (handleConstants.take 2)) :=
    Outcome.estate_bind.mpr ⟨1, _, @intern_handleConstants 0 _ rfl, @intern_handleConstants 1 _ rfl⟩
  have hmember : Interning.nameAndType "f" "I" (.ofConstants (handleConstants.take 2)) =
      .ok 5 (.ofConstants (handleConstants.take 5)) :=
    Outcome.estate_bind.mpr ⟨3, _, @intern_handleConstants 2 _ rfl,
      Outcome.estate_bind.mpr ⟨4, _, @intern_handleConstants 3 _ rfl, @intern_handleConstants 4 _ rfl⟩⟩
  have hfield : Interning.fieldRef ⟨⟨"a/B", Eq.refl true⟩, ⟨"f", Eq.refl true⟩, .base .int⟩ .empty =
      .ok 6 (.ofConstants (handleConstants.take 6)) :=
    Outcome.estate_bind.mpr ⟨2, _, howner,
      Outcome.estate_bind.mpr ⟨5, _, hmember, @intern_handleConstants 5 _ rfl⟩⟩
  have hhandle : Interning.loadable calledField .empty = .ok 7 (.ofConstants handleConstants) :=
    Outcome.estate_bind.mpr ⟨6, _, hfield, @intern_handleConstants 6 _ rfl⟩
  exact Outcome.estate_bind.mpr ⟨7, _, hhandle, rfl⟩

set_option maxRecDepth 100000 in
theorem widened_overTable_last : (ofItems (overTableItems 8200 [])).widened = [1] ∧
    (ofItems (overTableItems 8200 [])).code.length < 2 ^ 31 := by
  rw [← offset_length]
  decide +kernel

/-- Layouts that are not read back: a negated condition skips to the end of the code, a cast is to a type of too
many dimensions, and a handle to call something is to a field. -/
theorem laidOut_unread :
    (LaidOut (overTableItems 8200 []) (overTable 8200 []) .empty ∧
      Code.decode (ofItems (overTableItems 8200 [])).code .empty ≠
        .ok ((ofItems (overTableItems 8200 [])).placedOps (overTable 8200 []))) ∧
    (LaidOut [.encoded [0xc0, 0, 2]] [.plain (.checkCast deep)] (.ofConstants (typeConstants deep)) ∧
      Code.decode (ofItems [.encoded [0xc0, 0, 2]]).code (.ofConstants (typeConstants deep)) ≠
        .ok ((ofItems [.encoded [0xc0, 0, 2]]).placedOps [.plain (.checkCast deep)])) ∧
    LaidOut [.encoded [0x12, 7]] [.plain (.loadConstant calledField)] (.ofConstants handleConstants) ∧
      Code.decode (ofItems [.encoded [0x12, 7]]).code (.ofConstants handleConstants) ≠
        .ok ((ofItems [.encoded [0x12, 7]]).placedOps [.plain (.loadConstant calledField)]) := by
  have hback := laidOut_overTable (by decide) (by decide) (@Pool.consistent_ofConstants [] (by decide)) .nil
    (fun _ h => absurd h List.not_mem_nil) widened_overTable_last.2
  have hdeep := laidOut_single (encode_checkCast deep) (by rw [nextIndex_typeConstants]; decide)
    (by decide +kernel)
  have hhandle := laidOut_single encode_calledField (by decide +kernel) (by decide +kernel)
  refine ⟨⟨hback, mt hback.decode_iff.mp fun hreadable => ?_⟩,
    ⟨hdeep, mt hdeep.decode_iff.mp fun hreadable => ?_⟩, hhandle, mt hhandle.decode_iff.mp fun hreadable => ?_⟩
  · -- the last branch is wide, and there is no instruction behind it to skip to
    have hskipped : 1 + 1 < 2 := hreadable.skipped 1
      (by rw [widened_overTable_last.1]; exact List.mem_singleton_self 1)
    exact absurd hskipped (by decide)
  · have hdimensions : 255 + 1 ≤ maxDimensions := hreadable.operands _ (List.mem_singleton_self _)
    exact absurd hdimensions (by decide)
  · obtain ⟨-, hkind⟩ : calledField.IsReadable := hreadable.operands _ (List.mem_singleton_self _)
    cases hkind

end Layout

end ClassWeave
