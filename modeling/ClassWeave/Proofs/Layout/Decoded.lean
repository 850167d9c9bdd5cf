import ClassWeave.Proofs.Instruction.Plain
import ClassWeave.Proofs.Layout.Settled

/-!
# Laid-out code is read back

The code of a layout is decoded to what was laid out: every instruction at its offset, every target an offset, and
for each conditional branch that was widened the negated branch over a jump (`Layout.placedOps`).
-/

namespace ClassWeave

/-! ## What a layout stands for -/

/-- The operands of a switch fit where they are written. -/
def Branch.IsWritable {τ : Type} : Branch τ → Prop
  | .tableSwitch _ low targets => targets ≠ [] ∧ low.toInt + targets.length ≤ 2 ^ 31
  | .lookupSwitch _ cases => cases.length < 2 ^ 31
  | _ => True

/-- The operands of an entry fit where they are written. -/
def CodeOp.IsWritable {τ : Type} : CodeOp τ → Prop
  | .plain instruction => instruction.IsWritable
  | .branch b => b.IsWritable

/-- The instructions at the place of an entry: itself, or the negated branch over a jump. -/
def CodeOp.placed (layout : Layout) (position : Nat) : CodeOp Nat → List (Nat × CodeOp Nat)
  | .branch (.conditional condition target) =>
    if position ∈ layout.widened then
      [(layout.offset position, .branch (.conditional condition.negate (layout.offset position + 8))),
        (layout.offset position + 3, .branch (.goto (layout.offset target)))]
    else
      [(layout.offset position, .branch (.conditional condition (layout.offset target)))]
  | op => [(layout.offset position, op.mapTargets layout.offset)]

/-- The instructions of laid-out code, with their offsets. -/
def Layout.placedOps (layout : Layout) (ops : List (CodeOp Nat)) : List (Nat × CodeOp Nat) :=
  ops.zipIdx.flatMap fun entry => entry.1.placed layout entry.2

/-! ## Operands of branches -/

namespace CodeOp.Site

variable {site : Site} {offsets : Array Nat} {target : Nat}

theorem target_yields {distance : Int} (h : (site.offset : Int) + distance = target)
    (hlt : target < site.codeLength) : (site.target distance).Yields [] target := by
  have h1 : site.target distance = pure target := by
    unfold Site.target
    dsimp only
    rw [h, if_pos ⟨Int.natCast_nonneg _, Int.ofNat_lt.mpr hlt⟩]
    rfl
  rw [h1]
  exact Reader.yields_pure target

theorem shortTarget_yields (hreach : Reach.signed16.covers (Layout.distance offsets site.offset target) = true)
    (hlt : Layout.offsetAt offsets target < site.codeLength) :
    site.shortTarget.Yields (Branch.encodeShort offsets site.offset target)
    (Layout.offsetAt offsets target) := by
  unfold Reach.covers Reach.signed16 at hreach
  rw [Bool.and_eq_true, decide_eq_true_eq, decide_eq_true_eq] at hreach
  dsimp only at hreach
  have hword : (Int16.ofInt (Layout.distance offsets site.offset target)).toInt =
      Layout.distance offsets site.offset target :=
    Int16.toInt_ofInt_of_le (by omega) (by omega)
  have h : (site.target (Int16.ofInt (Layout.distance offsets site.offset target)).toInt).Yields []
      (Layout.offsetAt offsets target) :=
    target_yields (by rw [hword]; unfold Layout.distance; omega) hlt
  have h1 : site.shortTarget.Yields (Branch.encodeShort offsets site.offset target ++ []) _ :=
    (Reader.yields_i16 _).bind h
  rwa [List.append_nil] at h1

/-- Distances inside code of less than 2 GiB fit in 32 bits. -/
theorem longTarget_yields (hlen : site.codeLength < 2 ^ 31) (hoffset : site.offset < site.codeLength)
    (hlt : Layout.offsetAt offsets target < site.codeLength) :
    site.longTarget.Yields (Branch.encodeLong offsets site.offset target) (Layout.offsetAt offsets target) := by
  have hword : (Int32.ofInt (Layout.distance offsets site.offset target)).toInt =
      Layout.distance offsets site.offset target := by
    unfold Layout.distance
    exact Int32.toInt_ofInt_of_le (by omega) (by omega)
  have h : (site.target (Int32.ofInt (Layout.distance offsets site.offset target)).toInt).Yields []
      (Layout.offsetAt offsets target) :=
    target_yields (by rw [hword]; unfold Layout.distance; omega) hlt
  have h1 : site.longTarget.Yields (Branch.encodeLong offsets site.offset target ++ []) _ :=
    (Reader.yields_i32 _).bind h
  rwa [List.append_nil] at h1

/-! ## Branches -/

theorem operands_branch {opcode : UInt8} {reader : Reader (Branch Nat)}
    (h : site.operands opcode = (reader >>= fun b => pure (CodeOp.branch b))) {position : Nat} {bytes : Bytes}
    {b : Branch Nat} (h' : reader.YieldsAt position bytes b) :
    (site.operands opcode).YieldsAt position bytes (.branch b) := by
  rw [h]
  exact h'.bind_pure _

theorem operands_conditional (site : Site) (condition : Condition) : site.operands condition.opcode =
    ((site.shortTarget >>= fun t => pure (.conditional condition t)) >>= fun b => pure (CodeOp.branch b)) := by
  cases condition with
  | zero c => cases c <;> rfl
  | ints c => cases c <;> rfl
  | refs e => cases e <;> rfl
  | null e => cases e <;> rfl

theorem operands_jump (site : Site) (kind : JumpKind) : site.operands kind.opcode =
    ((site.shortTarget >>= fun t => pure (.jump kind t)) >>= fun b => pure (CodeOp.branch b)) := by
  cases kind <;> rfl

theorem operands_wideJump (site : Site) (kind : JumpKind) : site.operands kind.wideOpcode =
    ((site.longTarget >>= fun t => pure (.jump kind t)) >>= fun b => pure (CodeOp.branch b)) := by
  cases kind <;> rfl

theorem operands_returnValue (site : Site) (kind : SlotKind) :
    site.operands (0xac + kind.code) = pure (CodeOp.branch (.returnValue kind)) := by
  cases kind <;> rfl

theorem toInt_lastKey {low : Int32} {count : Nat} (hpos : 0 < count) (h : low.toInt + count ≤ 2 ^ 31) :
    (Branch.lastKey low count).toInt = low.toInt + count - 1 := by
  have hlow := low.le_toInt
  have hsum : Branch.lastKey low count = Int32.ofInt (low.toInt + count - 1) := by
    rw [Int32.ofInt_sub, Int32.ofInt_add, Int32.ofInt_toInt, Int32.ofInt_eq_ofNat]
    rfl
  rw [hsum]
  exact Int32.toInt_ofInt_of_le (by omega) (by omega)

/-- The padding of a switch is skipped. -/
theorem align_yieldsAt (offset : Nat) :
    Reader.alignTo4.YieldsAt (offset + 1) (List.replicate (switchPadding offset) 0) () :=
  Reader.yieldsAt_alignTo4 List.length_replicate

theorem tableSwitch_yieldsAt {otherwise : Nat} {low : Int32} {targets : List Nat} (opcode : UInt8)
    (hw : Branch.IsWritable (.tableSwitch otherwise low targets)) (hlen : site.codeLength < 2 ^ 31)
    (hoffset : site.offset < site.codeLength)
    (hlt : ∀ t ∈ otherwise :: targets, Layout.offsetAt offsets t < site.codeLength) :
    (site.tableSwitch opcode).YieldsAt (site.offset + 1)
      (List.replicate (switchPadding site.offset) 0 ++ (Branch.encodeLong offsets site.offset otherwise
        ++ (Bytes.ofInt32 low ++ (Bytes.ofInt32 (Branch.lastKey low targets.length)
          ++ targets.flatMap (Branch.encodeLong offsets site.offset)))))
      (.tableSwitch (Layout.offsetAt offsets otherwise) low (targets.map (Layout.offsetAt offsets))) := by
  have hpos : 0 < targets.length := List.length_pos_iff.mpr hw.1
  have hkey := toInt_lastKey hpos hw.2
  -- the reader counts targets by the two keys
  have hcount : ((Branch.lastKey low targets.length).toInt - low.toInt + 1).toNat = targets.length := by
    rw [hkey]
    omega
  have htimes : (Reader.times site.longTarget targets.length).Yields _ _ :=
    Reader.yields_times_map fun t ht => longTarget_yields hlen hoffset (hlt t (List.mem_cons_of_mem _ ht))
  rw [← hcount] at htimes
  refine (align_yieldsAt site.offset).bind
    (Reader.Yields.bind (longTarget_yields hlen hoffset (hlt _ List.mem_cons_self))
    ((Reader.yields_i32 low).bind ((Reader.yields_i32 _).bind ?_)) _)
  have hord : ¬ Branch.lastKey low targets.length < low := by
    rw [Int32.lt_iff_toInt_lt, hkey]
    omega
  rw [if_neg hord]
  exact htimes.bind_pure (Branch.tableSwitch (Layout.offsetAt offsets otherwise) low)

theorem lookupSwitch_yieldsAt {otherwise : Nat} {cases : List (Int32 × Nat)} (opcode : UInt8)
    (hw : Branch.IsWritable (.lookupSwitch otherwise cases)) (hlen : site.codeLength < 2 ^ 31)
    (hoffset : site.offset < site.codeLength)
    (hlt : ∀ t ∈ otherwise :: cases.map Prod.snd, Layout.offsetAt offsets t < site.codeLength) :
    (site.lookupSwitch opcode).YieldsAt (site.offset + 1)
      (List.replicate (switchPadding site.offset) 0 ++ (Branch.encodeLong offsets site.offset otherwise
        ++ (Bytes.ofInt32 (Int32.ofNat cases.length)
          ++ cases.flatMap fun c => Bytes.ofInt32 c.1 ++ Branch.encodeLong offsets site.offset c.2)))
      (.lookupSwitch (Layout.offsetAt offsets otherwise)
          (cases.map fun c => (c.1, Layout.offsetAt offsets c.2))) := by
  have hcount : (Int32.ofNat cases.length).toInt = cases.length := Int32.toInt_ofNat_of_lt hw
  have htimes : (Reader.times (Reader.i32 >>= fun key => site.longTarget >>= fun t => pure (key, t))
      cases.length).Yields _ (cases.map fun c => (c.1, Layout.offsetAt offsets c.2)) :=
    Reader.yields_times_map fun c hc => (Reader.yields_i32 c.1).bind
      ((longTarget_yields hlen hoffset
        (hlt c.2 (List.mem_cons_of_mem _ (List.mem_map_of_mem hc)))).bind_pure fun t => (c.1, t))
  refine (align_yieldsAt site.offset).bind
    (Reader.Yields.bind (longTarget_yields hlen hoffset (hlt _ List.mem_cons_self))
    ((Reader.yields_i32 _).bind ?_) _)
  -- the reader refuses a negative count, which a writable switch does not have
  have hord : ¬ Int32.ofNat cases.length < 0 := by
    rw [Int32.lt_iff_toInt_lt, hcount]
    exact Int.not_lt.mpr (Int.natCast_nonneg _)
  rw [if_neg hord, hcount, Int.toNat_natCast]
  exact htimes.bind_pure (Branch.lookupSwitch (Layout.offsetAt offsets otherwise))

end CodeOp.Site

/-! ## Branches in one piece -/

namespace Branch

variable {offsets : Array Nat} {offset codeLength : Nat} {pool : Pool}

theorem encode_ne_nil (b : Branch Nat) (offsets : Array Nat) (offset : Nat) (wide : Bool) :
    b.encode offsets offset wide ≠ [] := by
  cases b with
  | conditional condition target => cases wide <;> exact List.cons_ne_nil _ _
  | jump kind target => cases wide <;> exact List.cons_ne_nil _ _
  | ret slot =>
    change (if slot ≤ 0xFF then [0xa9, slot.toUInt8] else wideOpcode :: 0xa9 :: Bytes.ofUInt16 slot) ≠ []
    split_ifs <;> exact List.cons_ne_nil _ _
  | _ =>
    simp only [encode, List.cons_append]
    exact List.cons_ne_nil _ _

theorem conditional_yieldsAt {condition : Condition} {bytes : Bytes} {target : Nat}
    (h : (CodeOp.Site.shortTarget ⟨offset, codeLength, pool⟩).Yields bytes target) :
    (CodeOp.read codeLength pool).YieldsAt offset (condition.opcode :: bytes)
    (.branch (.conditional condition target)) :=
  CodeOp.read_yieldsAt
    (CodeOp.Site.operands_branch (CodeOp.Site.operands_conditional _ _)
    ((h.bind_pure (Branch.conditional condition)) _))

theorem jump_yieldsAt {kind : JumpKind} {bytes : Bytes} {target : Nat}
    (h : (CodeOp.Site.shortTarget ⟨offset, codeLength, pool⟩).Yields bytes target) :
    (CodeOp.read codeLength pool).YieldsAt offset (kind.opcode :: bytes) (.branch (.jump kind target)) :=
  CodeOp.read_yieldsAt (CodeOp.Site.operands_branch (CodeOp.Site.operands_jump _ _)
    ((h.bind_pure (Branch.jump kind)) _))

theorem wideJump_yieldsAt {kind : JumpKind} {bytes : Bytes} {target : Nat}
    (h : (CodeOp.Site.longTarget ⟨offset, codeLength, pool⟩).Yields bytes target) :
    (CodeOp.read codeLength pool).YieldsAt offset (kind.wideOpcode :: bytes) (.branch (.jump kind target)) :=
  CodeOp.read_yieldsAt
    (CodeOp.Site.operands_branch (CodeOp.Site.operands_wideJump _ _) ((h.bind_pure (Branch.jump kind)) _))

theorem tableSwitch_yieldsAt {bytes : Bytes} {b : Branch Nat}
    (h : (CodeOp.Site.tableSwitch ⟨offset, codeLength, pool⟩ 0xaa).YieldsAt (offset + 1) bytes b) :
    (CodeOp.read codeLength pool).YieldsAt offset (0xaa :: bytes) (.branch b) :=
  CodeOp.read_yieldsAt (CodeOp.Site.operands_branch rfl h)

theorem lookupSwitch_yieldsAt {bytes : Bytes} {b : Branch Nat}
    (h : (CodeOp.Site.lookupSwitch ⟨offset, codeLength, pool⟩ 0xab).YieldsAt (offset + 1) bytes b) :
    (CodeOp.read codeLength pool).YieldsAt offset (0xab :: bytes) (.branch b) :=
  CodeOp.read_yieldsAt (CodeOp.Site.operands_branch rfl h)

theorem ret_yieldsAt (slot : UInt16) (wide : Bool) :
    (CodeOp.read codeLength pool).YieldsAt offset ((Branch.ret slot).encode offsets offset wide)
    (.branch (.ret slot)) := by
  change (CodeOp.read codeLength pool).YieldsAt offset
    (if slot ≤ 0xFF then [0xa9, slot.toUInt8] else wideOpcode :: 0xa9 :: Bytes.ofUInt16 slot) _
  split_ifs with hbyte
  · refine CodeOp.read_yieldsAt (CodeOp.Site.operands_branch rfl ?_)
    have h1 := (Reader.yields_u8 slot.toUInt8).bind_pure fun w => (Branch.ret w.toUInt16 : Branch Nat)
    rw [CodeOp.toUInt16_toUInt8 hbyte] at h1
    exact h1 _
  · refine CodeOp.read_yieldsAt ?_
    change (CodeOp.Site.wide _).YieldsAt _ _ _
    refine (Reader.yields_u8 0xa9 _).bind ?_
    exact ((Reader.yields_u16 slot).bind_pure fun w => (CodeOp.branch (.ret w) : CodeOp Nat)) _

/-- A branch in one piece is read back with offsets for positions. -/
theorem encode_yieldsAt {b : Branch Nat} {wide : Bool} (hw : b.IsWritable) (hlen : codeLength < 2 ^ 31)
    (hinside : offset < codeLength) (htargets : ∀ t ∈ b.targets, Layout.offsetAt offsets t < codeLength)
    (hnear : ∀ t, b.reachTarget? = some t → wide = false →
      Reach.signed16.covers (Layout.distance offsets offset t) = true)
    (hsingle : wide = true → b.isConditional = false) :
    (CodeOp.read codeLength pool).YieldsAt offset (b.encode offsets offset wide)
      (.branch (b.mapTargets (Layout.offsetAt offsets))) := by
  cases b with
  | conditional condition target =>
    cases wide with
    | true => cases hsingle rfl
    | false =>
      have h1 : (CodeOp.Site.shortTarget ⟨offset, codeLength, pool⟩).Yields
          (encodeShort offsets offset target) _ :=
        CodeOp.Site.shortTarget_yields (hnear _ rfl rfl) (htargets _ List.mem_cons_self)
      exact conditional_yieldsAt h1
  | jump kind target =>
    cases wide with
    | true =>
      have h1 : (CodeOp.Site.longTarget ⟨offset, codeLength, pool⟩).Yields
          (encodeLong offsets offset target) _ :=
        CodeOp.Site.longTarget_yields hlen hinside (htargets _ List.mem_cons_self)
      exact wideJump_yieldsAt h1
    | false =>
      have h1 : (CodeOp.Site.shortTarget ⟨offset, codeLength, pool⟩).Yields
          (encodeShort offsets offset target) _ :=
        CodeOp.Site.shortTarget_yields (hnear _ rfl rfl) (htargets _ List.mem_cons_self)
      exact jump_yieldsAt h1
  -- returns from subroutines and switches have one form, wherever they are
  | ret slot => exact ret_yieldsAt slot wide
  | tableSwitch otherwise low targets =>
    simp only [encode, List.cons_append, List.append_assoc]
    exact tableSwitch_yieldsAt (CodeOp.Site.tableSwitch_yieldsAt 0xaa hw hlen hinside htargets)
  | lookupSwitch otherwise cases =>
    simp only [encode, List.cons_append, List.append_assoc]
    exact lookupSwitch_yieldsAt (CodeOp.Site.lookupSwitch_yieldsAt 0xab hw hlen hinside htargets)
  | returnValue kind =>
    refine CodeOp.read_yieldsAt ?_
    rw [CodeOp.Site.operands_returnValue]
    exact Reader.yieldsAt_pure _ _
  | returnVoid => exact CodeOp.read_yieldsAt (Reader.yieldsAt_pure _ _)
  | athrow => exact CodeOp.read_yieldsAt (Reader.yieldsAt_pure _ _)

end Branch

/-! ## Runs of instructions -/

namespace CodeOp

variable {codeLength : Nat} {pool : Pool}

/-- The bytes are instructions, one after the other, when they start at a position. -/
inductive ReadsAllAs (codeLength : Nat) (pool : Pool) : Nat → Bytes → List (Nat × CodeOp Nat) → Prop where
  | nil (position : Nat) : ReadsAllAs codeLength pool position [] []
  | cons {position : Nat} {bytes more : Bytes} {op : CodeOp Nat} {ops : List (Nat × CodeOp Nat)} :
    bytes ≠ [] → (CodeOp.read codeLength pool).YieldsAt position bytes op →
      ReadsAllAs codeLength pool (position + bytes.length) more ops →
        ReadsAllAs codeLength pool position (bytes ++ more) ((position, op) :: ops)

theorem ReadsAllAs.single {position : Nat} {bytes : Bytes} {op : CodeOp Nat} (hne : bytes ≠ [])
    (h : (CodeOp.read codeLength pool).YieldsAt position bytes op) :
    ReadsAllAs codeLength pool position bytes [(position, op)] := by
  have h1 := ReadsAllAs.cons hne h (.nil _)
  rwa [List.append_nil] at h1

theorem ReadsAllAs.append {position : Nat} {bytes more : Bytes} {ops others : List (Nat × CodeOp Nat)}
    (h : ReadsAllAs codeLength pool position bytes ops)
    (h' : ReadsAllAs codeLength pool (position + bytes.length) more others) :
    ReadsAllAs codeLength pool position (bytes ++ more) (ops ++ others) := by
  induction h with
  | nil => exact h'
  | cons hne hop _ ih =>
    rw [List.append_assoc]
    refine .cons hne hop (ih ?_)
    rwa [List.length_append, ← Nat.add_assoc] at h'

/-- A run of instructions is read to its end. -/
theorem readAll_of_readsAllAs {position : Nat} {bytes : Bytes} {ops : List (Nat × CodeOp Nat)}
    (h : ReadsAllAs codeLength pool position bytes ops) : ∀ {rounds : Nat}, bytes.length ≤ rounds →
      readAll codeLength pool rounds ⟨bytes, position⟩ = .ok (ops, ⟨[], position + bytes.length⟩) := by
  induction h with
  | nil position =>
    intro rounds _
    cases rounds <;> rfl
  | @cons position bytes more op ops hne hop _ ih =>
    intro rounds hle
    obtain ⟨b, bs, rfl⟩ := List.exists_cons_of_ne_nil hne
    rw [List.length_append, List.length_cons] at hle
    cases rounds with
    | zero => omega
    | succ rounds =>
      have h1 := hop more
      have h2 : readAll codeLength pool rounds _ = _ := ih (by omega)
      change (CodeOp.read codeLength pool >>= fun o => readAll codeLength pool rounds >>= fun others =>
        pure ((position, o) :: others)) _ = _
      rw [Outcome.reader_bind_of h1, Outcome.reader_bind_of h2, List.length_append, ← Nat.add_assoc]
      rfl

theorem ReadsAs.ne_nil {bytes : Bytes} {instruction : Instruction} (h : ReadsAs pool bytes instruction) :
    bytes ≠ [] := by
  rintro rfl
  have h1 := h 0 0 []
  cases h1

/-! ## Items -/

/-- An item stands for an entry of the code: it holds the bytes of the instruction, or the branch itself. -/
def EncodedBy (pool : Pool) : CodeOp Nat → LayoutItem → Prop
  | .plain instruction, .encoded bytes => ReadsAs pool bytes instruction
  | .branch b, .branch b' => b' = b
  | _, _ => False

end CodeOp

namespace Layout

variable {items : List LayoutItem} {pool : Pool}

theorem offset_zero : (ofItems items).offset 0 = 0 :=
  offsetAt_zero _

theorem mem_widened {k : Nat} : k ∈ (ofItems items).widened ↔
    ∃ item, (settled Reach.signed16 items)[k]? = some (item, true) ∧ item.isConditional = true := by
  change k ∈ ((settled Reach.signed16 items).zipIdx.filterMap _) ↔ _
  rw [List.mem_filterMap]
  constructor
  · rintro ⟨⟨⟨item, wide⟩, i⟩, hmem, h⟩
    have hget := List.mem_zipIdx_iff_getElem?.mp hmem
    dsimp only at h hget
    split_ifs at h with hif
    cases h
    rw [Bool.and_eq_true] at hif
    obtain ⟨rfl, hcond⟩ := hif
    exact ⟨item, hget, hcond⟩
  · rintro ⟨item, hget, hcond⟩
    refine ⟨((item, true), k), List.mem_zipIdx_iff_getElem?.mpr hget, ?_⟩
    dsimp only
    rw [hcond]
    rfl

/-- What was widened was too far from its target in some round. -/
theorem wasFar_of_widened {k : Nat} (hk : k ∈ (ofItems items).widened) : WasFar .signed16 items k := by
  obtain ⟨item, hitem, -⟩ := mem_widened.mp hk
  exact wasFar_of_settled hitem

theorem offset_succ {k : Nat} {entry : LayoutItem × Bool}
    (h : (settled Reach.signed16 items)[k]? = some entry) : (ofItems items).offset (k + 1) =
      (ofItems items).offset k + entry.1.width ((ofItems items).offset k) entry.2 :=
  offsetAt_succ h

/-- A narrow branch reaches its target. -/
theorem covers_of_narrow {k target : Nat} {b : Branch Nat}
    (h : (settled Reach.signed16 items)[k]? = some (.branch b, false))
    (htarget : b.reachTarget? = some target) : Reach.signed16.covers
    (distance (ofItems items).offsets ((ofItems items).offset k) target) = true := by
  have hnear := near_of_settled h
  unfold isFar at hnear
  dsimp only at hnear
  rw [htarget] at hnear
  dsimp only at hnear
  rw [Bool.not_eq_false'] at hnear
  exact hnear

/-- What is needed of an entry at a position for its bytes to be read back: a branch fits where it is written,
and what it leads to lies inside the code. -/
structure Holds (layout : Layout) (codeLength position : Nat) (op : CodeOp Nat) : Prop where
  writable : ∀ b, op = .branch b → b.IsWritable
  inside : layout.offset position < codeLength
  targets : ∀ t ∈ op.targets, layout.offset t < codeLength
  next : ∀ condition target, op = .branch (.conditional condition target) → position ∈ layout.widened →
    layout.offset (position + 1) < codeLength

variable {codeLength k : Nat}

theorem placed_conditional (layout : Layout) (position : Nat) (condition : Condition) (target : Nat) :
    CodeOp.placed layout position (.branch (.conditional condition target)) =
      if position ∈ layout.widened then
        [(layout.offset position, .branch (.conditional condition.negate (layout.offset position + 8))),
          (layout.offset position + 3, .branch (.goto (layout.offset target)))]
      else
        [(layout.offset position, .branch (.conditional condition (layout.offset target)))] := rfl

theorem placed_other (layout : Layout) {position : Nat} {op : CodeOp Nat}
    (h : ¬ ∃ condition target, op = .branch (.conditional condition target)) :
    op.placed layout position = [(layout.offset position, op.mapTargets layout.offset)] := by
  unfold CodeOp.placed
  split
  · exact absurd ⟨_, _, rfl⟩ h
  · rfl

/-- A conditional branch that was widened is the negated branch, which skips five bytes, over a jump. -/
theorem readsAllAs_widened {condition : Condition} {target : Nat} (hlen : codeLength < 2 ^ 31)
    (hk : (settled Reach.signed16 items)[k]? = some (.branch (.conditional condition target), true))
    (h : (ofItems items).Holds codeLength k (.branch (.conditional condition target))) :
    CodeOp.ReadsAllAs codeLength pool ((ofItems items).offset k)
      ((Branch.conditional condition target).encode (ofItems items).offsets ((ofItems items).offset k) true)
      (CodeOp.placed (ofItems items) k (.branch (.conditional condition target))) := by
  have hwidened : k ∈ (ofItems items).widened := mem_widened.mpr ⟨_, hk, rfl⟩
  have hnext : (ofItems items).offset (k + 1) = (ofItems items).offset k + 8 := offset_succ hk
  have hinside := h.next condition target rfl hwidened
  rw [hnext] at hinside
  have hskip : (CodeOp.Site.shortTarget ⟨(ofItems items).offset k, codeLength, pool⟩).Yields
      (Bytes.ofInt16 8 ++ []) ((ofItems items).offset k + 8) :=
    (Reader.yields_i16 8).bind (CodeOp.Site.target_yields rfl hinside)
  have hjump : (CodeOp.Site.longTarget ⟨(ofItems items).offset k + 3, codeLength, pool⟩).Yields
      (Branch.encodeLong (ofItems items).offsets ((ofItems items).offset k + 3) target)
      ((ofItems items).offset target) :=
    CodeOp.Site.longTarget_yields hlen (by change _ + 3 < codeLength; omega) (h.targets _ List.mem_cons_self)
  rw [List.append_nil] at hskip
  rw [placed_conditional, if_pos hwidened]
  exact .cons (List.cons_ne_nil _ _) (Branch.conditional_yieldsAt hskip)
    (.single (List.cons_ne_nil _ _) (Branch.wideJump_yieldsAt hjump))

theorem readsAllAs_item {op : CodeOp Nat} {item : LayoutItem} {wide : Bool} (hlen : codeLength < 2 ^ 31)
    (hk : (settled Reach.signed16 items)[k]? = some (item, wide)) (hitem : op.EncodedBy pool item)
    (h : (ofItems items).Holds codeLength k op) :
    CodeOp.ReadsAllAs codeLength pool ((ofItems items).offset k)
      (item.encode (ofItems items).offsets ((ofItems items).offset k) wide) (op.placed (ofItems items) k) := by
  cases op with
  | plain instruction =>
    cases item with
    | encoded bytes => exact .single hitem.ne_nil (hitem codeLength _)
    | branch b => cases hitem
  | branch b =>
    cases item with
    | encoded bytes => cases hitem
    | branch b' =>
      cases hitem
      -- whatever is not a widened condition is one instruction
      have single (hsingle : wide = true → b.isConditional = false) :
          CodeOp.ReadsAllAs codeLength pool ((ofItems items).offset k)
            (b.encode (ofItems items).offsets ((ofItems items).offset k) wide)
            [((ofItems items).offset k, .branch (b.mapTargets (ofItems items).offset))] := by
        refine .single (Branch.encode_ne_nil _ _ _ _)
          (Branch.encode_yieldsAt (h.writable b rfl) hlen h.inside h.targets ?_ hsingle)
        rintro t ht rfl
        exact covers_of_narrow hk ht
      cases b with
      | conditional condition target =>
        cases wide with
        | true => exact readsAllAs_widened hlen hk h
        | false =>
          have hnarrow : k ∉ (ofItems items).widened := by
            rw [mem_widened]
            rintro ⟨item, hget, -⟩
            rw [hk] at hget
            cases hget
          rw [placed_conditional, if_neg hnarrow]
          exact single fun hwide => by cases hwide
      | _ => exact single fun _ => rfl

/-! ## Whole layouts -/

/-- Offsets that add up the lengths of pieces end where the pieces do. -/
theorem offset_add_length {α : Type} {piece : α × Nat → Bytes} {at' : Nat → Nat} : ∀ {xs : List α} {k : Nat},
    (∀ j x, xs[j]? = some x → at' (k + j + 1) = at' (k + j) + (piece (x, k + j)).length) →
      at' (k + xs.length) = at' k + ((xs.zipIdx k).flatMap piece).length
  | [], _, _ => rfl
  | x :: xs, k, h => by
    have h0 := h 0 x rfl
    have htail : ∀ j y, xs[j]? = some y → at' (k + 1 + j + 1) = at'
        (k + 1 + j) + (piece (y, k + 1 + j)).length := by
      intro j y hy
      have := h (j + 1) y hy
      rwa [show k + (j + 1) = k + 1 + j by omega] at this
    have ih := offset_add_length htail
    rw [List.zipIdx_cons, List.flatMap_cons, List.length_append, List.length_cons,
      show k + (xs.length + 1) = k + 1 + xs.length by omega, ih, h0]
    rw [Nat.add_zero, Nat.add_assoc]

/-- Pieces that are read one by one are read in a row. -/
theorem readsAllAs_flatMap {α β : Type} {piece : α × Nat → Bytes} {parts : β × Nat → List (Nat × CodeOp Nat)}
    {at' : Nat → Nat} : ∀ {xs : List α} {ys : List β} {k : Nat}, xs.length = ys.length →
      (∀ j x, xs[j]? = some x → at' (k + j + 1) = at' (k + j) + (piece (x, k + j)).length) →
      (∀ j x y, xs[j]? = some x → ys[j]? = some y →
        CodeOp.ReadsAllAs codeLength pool (at' (k + j)) (piece (x, k + j)) (parts (y, k + j))) →
      CodeOp.ReadsAllAs codeLength pool (at' k) ((xs.zipIdx k).flatMap piece) ((ys.zipIdx k).flatMap parts)
  | [], [], _, _, _, _ => .nil _
  | x :: xs, y :: ys, k, hlen, hat, hreads => by
    have h0 := hat 0 x rfl
    rw [List.zipIdx_cons, List.zipIdx_cons, List.flatMap_cons, List.flatMap_cons]
    refine (hreads 0 x y rfl rfl).append ?_
    rw [← h0]
    refine readsAllAs_flatMap (Nat.succ.inj hlen) ?_ ?_
    · intro j z hz
      have := hat (j + 1) z hz
      rwa [show k + (j + 1) = k + 0 + 1 + j by omega] at this
    · intro j z w hz hw
      have := hreads (j + 1) z w hz hw
      rwa [show k + (j + 1) = k + 0 + 1 + j by omega] at this

theorem code_eq : (ofItems items).code = (settled Reach.signed16 items).zipIdx.flatMap fun entry =>
    entry.1.1.encode (ofItems items).offsets ((ofItems items).offset entry.2) entry.1.2 := rfl

theorem offset_next {j : Nat} {entry : LayoutItem × Bool}
    (h : (settled Reach.signed16 items)[j]? = some entry) :
    (ofItems items).offset (0 + j + 1) = (ofItems items).offset (0 + j)
      + (entry.1.encode (ofItems items).offsets ((ofItems items).offset (0 + j)) entry.2).length := by
  rw [Nat.zero_add, offset_succ h, LayoutItem.length_encode]

/-- The end of the code is the offset behind the last item. -/
theorem offset_length : (ofItems items).offset items.length = (ofItems items).code.length := by
  have h : (ofItems items).offset (0 + (settled Reach.signed16 items).length) = (ofItems items).offset 0 +
      ((settled Reach.signed16 items).zipIdx.flatMap fun entry =>
        entry.1.1.encode (ofItems items).offsets ((ofItems items).offset entry.2) entry.1.2).length :=
    offset_add_length fun j entry hj => offset_next hj
  rwa [Nat.zero_add, length_settled, offset_zero, Nat.zero_add] at h

theorem placedOps_mem {layout : Layout} {ops : List (CodeOp Nat)} {x : Nat × CodeOp Nat} :
    x ∈ layout.placedOps ops ↔ ∃ k, ∃ op : CodeOp Nat, ops[k]? = some op ∧ x ∈ op.placed layout k := by
  unfold placedOps
  rw [List.mem_flatMap]
  constructor
  · rintro ⟨⟨op, k⟩, hmem, hx⟩
    exact ⟨k, op, List.mem_zipIdx_iff_getElem?.mp hmem, hx⟩
  · rintro ⟨k, op, hop, hx⟩
    exact ⟨(op, k), List.mem_zipIdx_iff_getElem?.mpr hop, hx⟩

/-- Some instruction begins at the offset of every entry. -/
theorem offset_mem_placed (layout : Layout) (position : Nat) (op : CodeOp Nat) :
    ∃ op', (layout.offset position, op') ∈ op.placed layout position := by
  cases op with
  | plain instruction => exact ⟨_, List.mem_singleton_self _⟩
  | branch b =>
    cases b with
    | conditional condition target =>
      rw [placed_conditional]
      split_ifs
      · exact ⟨_, List.mem_cons_self⟩
      · exact ⟨_, List.mem_singleton_self _⟩
    | _ => exact ⟨_, List.mem_singleton_self _⟩

/-- The targets at the place of an entry: offsets of its own targets, and behind the skipped jump. -/
theorem targets_placed {layout : Layout} {position : Nat} {op : CodeOp Nat} {x : Nat × CodeOp Nat} {t : Nat}
    (hx : x ∈ op.placed layout position) (ht : t ∈ x.2.targets) :
    (∃ target ∈ op.targets, t = layout.offset target) ∨
      ((∃ condition target, op = .branch (.conditional condition target)) ∧ position ∈ layout.widened ∧
        t = layout.offset position + 8) := by
  have single : x = (layout.offset position, op.mapTargets layout.offset) → ∃ target ∈ op.targets,
      t = layout.offset target := by
    rintro rfl
    cases op with
    | plain instruction => cases ht
    | branch b =>
      change t ∈ (b.mapTargets layout.offset).targets at ht
      rw [Branch.targets_mapTargets] at ht
      obtain ⟨target, hmem, rfl⟩ := List.mem_map.mp ht
      exact ⟨target, hmem, rfl⟩
  cases op with
  | plain instruction => exact .inl (single (List.mem_singleton.mp hx))
  | branch b =>
    cases b with
    | conditional condition target =>
      rw [placed_conditional] at hx
      split_ifs at hx with hwidened
      · -- the test skips the jump behind it, and the jump has the target
        rcases List.mem_cons.mp hx with rfl | hx
        · exact .inr ⟨⟨_, _, rfl⟩, hwidened, List.mem_singleton.mp ht⟩
        · rw [List.mem_singleton.mp hx] at ht
          exact .inl ⟨target, List.mem_singleton_self _, List.mem_singleton.mp ht⟩
      · exact .inl (single (List.mem_singleton.mp hx))
    | _ => exact .inl (single (List.mem_singleton.mp hx))

/-- The items that stand for the entries of the code. -/
abbrev Encoding (pool : Pool) (ops : List (CodeOp Nat)) (items : List LayoutItem) : Prop :=
  List.Forall₂ (CodeOp.EncodedBy pool) ops items

variable {ops : List (CodeOp Nat)}

theorem encode_item_ne_nil {op : CodeOp Nat} {item : LayoutItem} (h : op.EncodedBy pool item)
    (offsets : Array Nat) (offset : Nat) (wide : Bool) : item.encode offsets offset wide ≠ [] := by
  cases op with
  | plain instruction =>
    cases item with
    | encoded bytes => exact h.ne_nil
    | branch b => cases h
  | branch b =>
    cases item with
    | encoded bytes => cases h
    | branch b' => exact Branch.encode_ne_nil _ _ _ _

/-- The entry that an item of a settled layout stands for. -/
theorem Encoding.entry (h : Encoding pool ops items) {k : Nat} (hk : k < items.length) :
    ∃ op item wide, ops[k]? = some op ∧ (settled Reach.signed16 items)[k]? = some (item, wide) ∧
      op.EncodedBy pool item := by
  have hlen := h.length_eq
  have hk' : k < ops.length := by omega
  have hget := List.getElem?_eq_getElem
    (show k < (settled Reach.signed16 items).length by rw [length_settled]; exact hk)
  have hitem := getElem?_settled hget
  have hop := List.getElem?_eq_getElem hk'
  refine ⟨_, _, _, hop, hget, ?_⟩
  have hrel : ops[k].EncodedBy pool items[k] := (List.forall₂_iff_get.mp h).2 k hk' hk
  rw [List.getElem?_eq_getElem hk] at hitem
  rwa [Option.some.inj hitem] at hrel

/-- Every item takes a byte at least, so offsets increase. -/
theorem Encoding.offset_lt (h : Encoding pool ops items) {j k : Nat} (hjk : j < k) (hk : k ≤ items.length) :
    (ofItems items).offset j < (ofItems items).offset k := by
  induction k with
  | zero => omega
  | succ k ih =>
    obtain ⟨op, item, wide, -, hget, hrel⟩ := h.entry (show k < items.length by omega)
    have hnext := offset_next hget
    rw [Nat.zero_add] at hnext
    dsimp only at hnext
    have hpos := List.length_pos_iff.mpr
      (encode_item_ne_nil hrel (ofItems items).offsets ((ofItems items).offset k) wide)
    rcases Nat.lt_or_ge j k with hlt | hge
    · have := ih hlt (by omega)
      omega
    · rw [show j = k by omega]
      omega

theorem Encoding.offset_inside (h : Encoding pool ops items) {k : Nat} (hk : k < ops.length) :
    (ofItems items).offset k < (ofItems items).code.length := by
  rw [← offset_length]
  exact h.offset_lt (h.length_eq ▸ hk) (Nat.le_refl _)

/-- A conditional branch that was widened takes eight bytes. -/
theorem Encoding.offset_widened (h : Encoding pool ops items) {k : Nat} {condition : Condition} {target : Nat}
    (hop : ops[k]? = some (.branch (.conditional condition target))) (hwidened : k ∈ (ofItems items).widened) :
    (ofItems items).offset (k + 1) = (ofItems items).offset k + 8 := by
  obtain ⟨item, hget, hcond⟩ := mem_widened.mp hwidened
  have hk : k < items.length := by
    rw [← h.length_eq]
    exact (List.getElem?_eq_some_iff.mp hop).1
  obtain ⟨op', item', wide', hop', hget', hrel⟩ := h.entry hk
  rw [hget] at hget'
  rw [hop] at hop'
  cases hget'
  cases hop'
  cases item with
  | encoded bytes => cases hrel
  | branch b =>
    cases hrel
    exact offset_succ hget

/-- If every entry can be read back in code of a certain length, then the code of the layout is read as all of
them. -/
theorem Encoding.readsAllAs (h : Encoding pool ops items) (hlen : codeLength < 2 ^ 31)
    (hholds : ∀ k op, ops[k]? = some op → (ofItems items).Holds codeLength k op) :
    CodeOp.ReadsAllAs codeLength pool 0 (ofItems items).code ((ofItems items).placedOps ops) := by
  have hreads : CodeOp.ReadsAllAs codeLength pool ((ofItems items).offset 0)
      ((settled Reach.signed16 items).zipIdx.flatMap fun entry =>
        entry.1.1.encode (ofItems items).offsets ((ofItems items).offset entry.2) entry.1.2)
      ((ofItems items).placedOps ops) := by
    refine readsAllAs_flatMap (by rw [length_settled, h.length_eq]) (fun j entry hj => offset_next hj) ?_
    intro j entry op hentry hop
    rw [Nat.zero_add]
    have hj : j < items.length := by
      rw [← h.length_eq]
      exact (List.getElem?_eq_some_iff.mp hop).1
    obtain ⟨op', item, wide, hop', hget, hrel⟩ := h.entry hj
    rw [hget] at hentry
    rw [hop'] at hop
    cases hentry
    cases hop
    exact readsAllAs_item hlen hget hrel (hholds j _ hop')
  rwa [← code_eq, offset_zero] at hreads

/-- Laid-out code is read back: its entries in order, each at its offset, with offsets for targets. -/
theorem Encoding.decode (h : Encoding pool ops items) (hlen : (ofItems items).code.length < 2 ^ 31)
    (hw : ∀ b, .branch b ∈ ops → b.IsWritable) (htargets : ∀ op ∈ ops, ∀ t ∈ op.targets, t < ops.length)
    (hnext : ∀ k condition target, ops[k]? = some (.branch (.conditional condition target)) →
      k ∈ (ofItems items).widened → k + 1 < ops.length) :
    Code.decode (ofItems items).code pool = .ok ((ofItems items).placedOps ops) := by
  have hreads : CodeOp.ReadsAllAs (ofItems items).code.length pool 0 (ofItems items).code
      ((ofItems items).placedOps ops) := by
    refine h.readsAllAs hlen fun k op hop => ?_
    have hmem := List.mem_of_getElem? hop
    refine ⟨fun b hb => hw b (hb ▸ hmem), h.offset_inside ?_,
      fun t ht => h.offset_inside (htargets op hmem t ht), ?_⟩
    · exact (List.getElem?_eq_some_iff.mp hop).1
    · rintro condition target rfl hwidened
      exact h.offset_inside (hnext k condition target hop hwidened)
  have hall := CodeOp.readAll_of_readsAllAs hreads (Nat.le_refl _)
  have hstarts : ∀ k < ops.length, (Std.HashSet.ofList (((ofItems items).placedOps ops).map Prod.fst)).contains
      ((ofItems items).offset k) = true := by
    intro k hk
    obtain ⟨op', hop'⟩ := offset_mem_placed (ofItems items) k ops[k]
    rw [Std.HashSet.contains_ofList, List.contains_iff_mem]
    exact List.mem_map.mpr ⟨_, placedOps_mem.mpr ⟨k, ops[k], List.getElem?_eq_getElem hk, hop'⟩, rfl⟩
  -- targets are offsets of instructions: given ones, or those behind widened conditions
  have hcheck : Code.checkTargets ((ofItems items).placedOps ops) = .ok () := by
    refine Outcome.except_forM.mpr fun x hx => Outcome.except_forM.mpr fun t ht => ?_
    obtain ⟨k, op, hop, hx⟩ := placedOps_mem.mp hx
    have hcontains : ∃ j < ops.length, t = (ofItems items).offset j := by
      rcases targets_placed hx ht with ⟨target, htarget, rfl⟩ | ⟨⟨condition, target, rfl⟩, hwidened, rfl⟩
      · exact ⟨target, htargets op (List.mem_of_getElem? hop) target htarget, rfl⟩
      · exact ⟨k + 1, hnext k condition target hop hwidened, (h.offset_widened hop hwidened).symm⟩
    obtain ⟨j, hj, rfl⟩ := hcontains
    rw [if_pos (hstarts j hj)]
    rfl
  unfold Code.decode
  refine Outcome.except_bind.mpr ⟨_, hall, Outcome.except_bind.mpr ⟨(), hcheck, rfl⟩⟩

end Layout

end ClassWeave
