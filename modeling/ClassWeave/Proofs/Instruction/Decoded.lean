import ClassWeave.Proofs.Instruction.Targets

/-!
# What is decoded can be written

Operands that are read are resolved in the pool, so they can be written again if the pool was checked, and the
keys of a switch that was read fit where they stand. The offsets of decoded instructions increase, and every
target is one of them.
-/

namespace ClassWeave

open Reader (gives_pure gives_fail gives_ofExcept times_gives Moves Gives moves_u8 moves_u16 moves_i8
  moves_i16 moves_i32)

namespace CodeOp

/-- The operands of an entry are what a pool has, and those of a switch fit where they are written. -/
def ReadIn {τ : Type} (pool : Pool) : CodeOp τ → Prop
  | .plain instruction => instruction.ResolvedIn pool
  | .branch b => b.IsWritable

theorem ReadIn.isWritable {τ : Type} {pool : Pool} (hp : pool.WellFormed) {op : CodeOp τ} (h : op.ReadIn pool) :
    op.IsWritable := by
  cases op with
  | plain instruction => exact Instruction.ResolvedIn.isWritable hp h
  | branch b => exact h

variable {site : Site} {opcode : UInt8}

namespace Site

/-! ## Instructions -/

theorem resolve_gives {α : Type} {get : Pool → UInt16 → Except Malformed α} :
    (site.resolve get).Gives fun a => ∃ index, get site.pool index = .ok a :=
  moves_u16.bind fun index => gives_ofExcept fun _ h => ⟨index, h⟩

theorem constant_gives (index : UInt16) (wide : Bool) :
    (site.constant index wide).Gives (Instruction.ResolvedIn site.pool) := by
  have hloaded : (Reader.ofExcept (site.pool.loadable index)).Gives fun constant =>
      ∃ index, site.pool.loadable index = .ok constant := gives_ofExcept fun _ h => ⟨index, h⟩
  refine hloaded.bind fun constant hresolved => ?_
  by_cases hwidth : (constant.width == 2) = wide
  · rw [if_pos hwidth]
    exact gives_pure hresolved
  · rw [if_neg hwidth]
    exact gives_fail

theorem other_gives : (site.other opcode).Gives (Instruction.ResolvedIn site.pool) := by
  unfold other
  split
  case h_18 =>
    refine moves_u8.bind fun code => ?_
    cases BaseType.ofArrayCode? code with
    | some element => exact gives_pure trivial
    | none => exact gives_fail
  all_goals first
    | exact gives_fail
    | exact gives_pure trivial
    | exact resolve_gives.bind fun _ hresolved => gives_pure hresolved
    | exact moves_i8.bind fun _ => gives_pure trivial
    | exact moves_i16.bind fun _ => gives_pure trivial
    | exact moves_u8.bind fun _ => moves_i8.bind fun _ => gives_pure trivial
    | exact moves_u8.bind fun _ => constant_gives _ _
    | exact moves_u16.bind fun _ => constant_gives _ _
    | exact resolve_gives.bind fun _ hresolved => moves_u8.bind fun _ => moves_u8.bind fun _ =>
    gives_pure hresolved
    | exact resolve_gives.bind fun _ hresolved => moves_u16.bind fun _ => gives_pure hresolved
    | exact resolve_gives.bind fun _ hresolved => moves_u8.bind fun _ => gives_pure hresolved

theorem slot_gives {reader : Reader Instruction} (h : slot? opcode = some reader) :
    reader.Gives (Instruction.ResolvedIn site.pool) := by
  unfold slot? at h
  split_ifs at h
  · cases h
    exact moves_u8.bind fun _ => gives_pure trivial
  · cases h
    exact gives_pure trivial
  · cases h
    exact moves_u8.bind fun _ => gives_pure trivial
  · cases h
    exact gives_pure trivial

theorem wide_gives : site.wide.Gives (CodeOp.ReadIn site.pool) := by
  refine moves_u8.bind fun opcode => moves_u16.bind fun index => ?_
  split_ifs
  · exact gives_pure trivial
  · exact gives_pure trivial
  · exact moves_i16.bind fun _ => gives_pure trivial
  · exact gives_pure trivial
  · exact gives_fail

/-! ## Branches -/

theorem moves_target (distance : Int) : (site.target distance).Moves := by
  unfold target
  dsimp only
  split_ifs
  · exact gives_pure trivial
  · exact gives_fail

theorem moves_shortTarget : site.shortTarget.Moves :=
  moves_i16.bind fun _ => moves_target _

theorem moves_longTarget : site.longTarget.Moves :=
  moves_i32.bind fun _ => moves_target _

theorem tableSwitch_gives : (site.tableSwitch opcode).Gives Branch.IsWritable := by
  refine Reader.moves_alignTo4.bind fun _ => moves_longTarget.bind fun otherwise => moves_i32.bind fun low =>
    moves_i32.bind fun high => ?_
  split_ifs with hlt
  · exact gives_fail
  · rw [Int32.lt_iff_toInt_lt, Int.not_lt] at hlt
    have hhigh := high.toInt_lt
    refine (times_gives moves_longTarget _).bind fun targets htargets => gives_pure ⟨?_, by omega⟩
    rintro rfl
    have hlen := htargets.1
    rw [List.length_nil] at hlen
    omega

theorem lookupSwitch_gives : (site.lookupSwitch opcode).Gives Branch.IsWritable := by
  refine Reader.moves_alignTo4.bind fun _ => moves_longTarget.bind fun otherwise =>
    moves_i32.bind fun count => ?_
  split_ifs with hlt
  · exact gives_fail
  · have hcount := count.toInt_lt
    have hcase : (do
        let key ← Reader.i32
        return (key, ← site.longTarget) : Reader (Int32 × Nat)).Moves :=
      moves_i32.bind fun _ => moves_longTarget.bind fun _ => gives_pure trivial
    refine (times_gives hcase _).bind fun targets htargets => gives_pure ?_
    change targets.length < 2 ^ 31
    omega

theorem branch_gives {reader : Reader (Branch Nat)} (h : site.branch? opcode = some reader) :
    reader.Gives Branch.IsWritable := by
  unfold branch? at h
  dsimp only at h
  split_ifs at h
  case neg =>
    split at h
    case h_4 =>
      cases h
      exact tableSwitch_gives
    case h_5 =>
      cases h
      exact lookupSwitch_gives
    all_goals cases h
    -- what is left has no operand, or one that is always writable
    all_goals first
      | exact gives_pure trivial
      | exact moves_shortTarget.bind fun _ => gives_pure trivial
      | exact moves_longTarget.bind fun _ => gives_pure trivial
      | exact moves_u8.bind fun _ => gives_pure trivial
  all_goals cases h
  all_goals first
    | exact gives_pure trivial
    | exact moves_shortTarget.bind fun _ => gives_pure trivial

theorem operands_gives : (site.operands opcode).Gives (CodeOp.ReadIn site.pool) := by
  unfold operands
  cases Simple.ofOpcode? opcode with
  | some op => exact gives_pure trivial
  | none =>
    cases StackOp.ofOpcode? opcode with
    | some op => exact gives_pure trivial
    | none =>
      cases hslot : slot? opcode with
      | some reader => exact (slot_gives hslot).bind fun _ hw => gives_pure hw
      | none =>
        cases hbranch : site.branch? opcode with
        | some reader => exact (branch_gives hbranch).bind fun _ hw => gives_pure hw
        | none =>
          dsimp only
          split_ifs
          · exact wide_gives
          · exact other_gives.bind fun _ hw => gives_pure hw

end Site

/-! ## Code -/

variable {codeLength : Nat} {pool : Pool}

/-- An instruction takes at least a byte. -/
theorem read_ok {cursor cursor' : Cursor} {op : CodeOp Nat}
    (h : read codeLength pool cursor = .ok (op, cursor')) :
    op.ReadIn pool ∧ cursor.position < cursor'.position ∧
      cursor'.position + cursor'.rest.length = cursor.position + cursor.rest.length := by
  obtain ⟨offset, cursor1, hoffset, h⟩ := Outcome.reader_bind.mp h
  cases hoffset
  obtain ⟨opcode, cursor2, hopcode, h⟩ := Outcome.reader_bind.mp h
  obtain ⟨hread, hle, hlen⟩ := Site.operands_gives h
  obtain ⟨-, -, hlen'⟩ := moves_u8 hopcode
  obtain ⟨rest, position⟩ := cursor
  cases rest with
  | nil => cases hopcode
  | cons b rest =>
    cases hopcode
    exact ⟨hread, hle, hlen.trans hlen'⟩

/-- Instructions that were read, one after the other. -/
structure ReadFrom (pool : Pool) (start stop : Nat) (ops : List (Nat × CodeOp Nat)) : Prop where
  resolved : ∀ op ∈ ops, op.2.ReadIn pool
  inside : ∀ op ∈ ops, start ≤ op.1 ∧ op.1 < stop
  increasing : (ops.map Prod.fst).Pairwise (· < ·)
  first : ∀ op, ops.head? = some op → op.1 = start

theorem readAll_ok : ∀ {rounds : Nat} {cursor cursor' : Cursor} {ops : List (Nat × CodeOp Nat)},
    readAll codeLength pool rounds cursor = .ok (ops, cursor') →
      ReadFrom pool cursor.position (cursor.position + cursor.rest.length) ops
  | 0, cursor, cursor', ops, h => by
    obtain ⟨rfl, -⟩ := Outcome.reader_pure.mp h
    exact ⟨by simp, by simp, .nil, by simp⟩
  | rounds + 1, cursor, cursor', ops, h => by
    unfold readAll at h
    obtain ⟨_, cursor1, hget, h⟩ := Outcome.reader_bind.mp h
    cases hget
    split_ifs at h with hdone
    · obtain ⟨rfl, -⟩ := Outcome.reader_pure.mp h
      exact ⟨by simp, by simp, .nil, by simp⟩
    · obtain ⟨offset, cursor2, hoffset, h⟩ := Outcome.reader_bind.mp h
      cases hoffset
      obtain ⟨op, cursor3, hop, h⟩ := Outcome.reader_bind.mp h
      obtain ⟨others, cursor4, hothers, h⟩ := Outcome.reader_bind.mp h
      obtain ⟨rfl, -⟩ := Outcome.reader_pure.mp h
      -- each instruction takes some bytes, so offsets increase
      obtain ⟨hread, hlt, hlen⟩ := read_ok hop
      have ih := readAll_ok hothers
      rw [hlen] at ih
      have hstart : cursor.position < cursor.position + cursor.rest.length := by
        by_contra hnone
        refine hdone ?_
        unfold Cursor.isExhausted
        rw [List.isEmpty_iff, ← List.length_eq_zero_iff]
        omega
      exact {
        resolved := List.forall_mem_cons.mpr ⟨hread, ih.resolved⟩
        inside := List.forall_mem_cons.mpr ⟨⟨Nat.le_refl _, hstart⟩, fun op' hop' =>
          ⟨Nat.le_of_lt (Nat.lt_of_lt_of_le hlt (ih.inside op' hop').1), (ih.inside op' hop').2⟩⟩
        increasing := List.pairwise_cons.mpr ⟨fun offset hoffset => by
          obtain ⟨op', hop', rfl⟩ := List.mem_map.mp hoffset
          exact Nat.lt_of_lt_of_le hlt (ih.inside op' hop').1, ih.increasing⟩
        first := fun op' hop' => by
          cases hop'
          rfl }

end CodeOp

namespace Code

/-- What is read from code: its instructions fill it from the start, and targets are instructions. -/
structure Read (pool : Pool) (code : Bytes) (decoded : List (Nat × CodeOp Nat)) : Prop
    extends CodeOp.ReadFrom pool 0 code.length decoded where
  targets : ∀ op ∈ decoded, ∀ t ∈ op.2.targets, t ∈ decoded.map Prod.fst

/-- The instructions that are read from code can be written again. -/
structure Decoded (pool : Pool) (code : Bytes) (decoded : List (Nat × CodeOp Nat)) : Prop
    extends Read pool code decoded where
  writable : ∀ op ∈ decoded, op.2.IsWritable

variable {pool : Pool} {code : Bytes} {decoded : List (Nat × CodeOp Nat)}

theorem decode_read (h : decode code pool = .ok decoded) : Read pool code decoded := by
  unfold decode at h
  obtain ⟨⟨ops, cursor⟩, hall, h⟩ := Outcome.except_bind.mp h
  obtain ⟨_, hcheck, h⟩ := Outcome.except_bind.mp h
  cases h
  have hread := CodeOp.readAll_ok hall
  unfold Cursor.start at hread
  dsimp only at hread
  rw [Nat.zero_add] at hread
  refine { hread with targets := fun op hop t ht => ?_ }
  have htarget := Outcome.except_forM.mp (Outcome.except_forM.mp hcheck op hop) t ht
  by_contra hnot
  rw [if_neg] at htarget
  · cases htarget
  · rw [Std.HashSet.contains_ofList, List.contains_iff_mem]
    exact hnot

theorem decode_ok (hp : pool.WellFormed) (h : decode code pool = .ok decoded) : Decoded pool code decoded :=
  have hread := decode_read h
  { hread with writable := fun op hop => (hread.resolved op hop).isWritable hp }

end Code

end ClassWeave
