import ClassWeave.Proofs.Bytes.Taking
import ClassWeave.Proofs.Layout.ReadBack

/-!
# The keys of a switch

A `tableswitch` stands in code with the lowest and the highest of its keys. The decoder keeps the lowest and a
target for each key, and the encoder works the highest out anew, in 32-bit words. Whatever the two were, the
same two are written again at any offset, with as many targets as lie between them.
-/

namespace ClassWeave

/-! ## Keys in 32-bit words -/

namespace Branch

/-- A number that a 32-bit word holds as it is. -/
def InWord (n : Int) : Prop := -2 ^ 31 ≤ n ∧ n < 2 ^ 31

/-- The keys from `low` to `high` are `count` many, and the encoder works each of them out without loss. Before
it takes one off, it adds up `low` and `count`: that sum is one above the last key, so it leaves the words
exactly where `high` is the highest of all. There it wraps around, and taking one off wraps it back; a machine
that stops at an overflow stops there, and nowhere else. -/
structure KeysFit (low high : Int32) (count : Nat) : Prop where
  ordered : low ≤ high
  count_eq : (count : Int) = high.toInt - low.toInt + 1
  key : ∀ k < count, (low + Int32.ofNat k).toInt = low.toInt + k
  sum : low + Int32.ofNat count = high + 1
  sum_inWord : InWord (low.toInt + count) ↔ high ≠ Int32.maxValue
  sum_toInt : high ≠ Int32.maxValue → (low + Int32.ofNat count).toInt = low.toInt + count
  last : lastKey low count = high
  last_toInt : (lastKey low count).toInt = low.toInt + count - 1

theorem add_ofNat (low : Int32) (k : Nat) : low + Int32.ofNat k = Int32.ofInt (low.toInt + k) := by
  rw [Int32.ofInt_add, Int32.ofInt_toInt, Int32.ofInt_eq_ofNat]

theorem keysFit {low high : Int32} {count : Nat} (hle : low ≤ high)
    (hcount : (count : Int) = high.toInt - low.toInt + 1) : KeysFit low high count := by
  have hlow := low.le_toInt
  have hhigh := high.toInt_lt
  have hord := Int32.le_iff_toInt_le.mp hle
  have hlast := @CodeOp.Site.toInt_lastKey low count (by omega) (by omega)
  have hsum : low + Int32.ofNat count = high + 1 := by
    have h := add_ofNat high 1
    rw [add_ofNat, show low.toInt + count = high.toInt + (1 : Nat) by omega]
    exact h.symm
  have hmax : high ≠ Int32.maxValue ↔ high.toInt ≠ 2 ^ 31 - 1 := not_congr Int32.toInt_inj.symm
  refine ⟨hle, hcount, fun k hk => ?_, hsum, ?_, fun hne => ?_, Int32.toInt_inj.mp (by omega), hlast⟩
  · rw [add_ofNat]
    exact Int32.toInt_ofInt_of_le (by omega) (by omega)
  · rw [hmax]
    unfold InWord
    omega
  · have hlt := hmax.mp hne
    rw [add_ofNat]
    exact Int32.toInt_ofInt_of_le (by omega) (by omega)

end Branch

/-! ## Instructions take bytes off the front -/

/-- The bytes of a `tableswitch` at an offset: padding, the distance to the default, the lowest and the highest
key, and a distance for each target. -/
def Branch.IsTable (offset : Nat) (low high : Int32) (count : Nat) (bytes : Bytes) : Prop :=
  ∃ (padding : Bytes) (otherwise : Int32) (distances : List Int32), padding.length = switchPadding offset ∧
    distances.length = count ∧ bytes = 0xaa :: (padding ++ (Bytes.ofInt32 otherwise ++ (Bytes.ofInt32 low ++
      (Bytes.ofInt32 high ++ distances.flatMap Bytes.ofInt32))))

namespace CodeOp

open Reader (takes_pure takes_fail takes_ofExcept takes_u8 takes_u16 takes_i8 takes_i16 takes_i32
  takes_alignTo4 takes_times takesAt_alignTo4)

/-- The bytes are those of the instruction at an offset, if it is a `tableswitch`: the keys begin with the
lowest one, and there is one for each target. -/
def StandsAs (offset : Nat) (bytes : Bytes) : CodeOp Nat → Prop
  | .branch (.tableSwitch _ low targets) =>
    ∃ high, Branch.KeysFit low high targets.length ∧ Branch.IsTable offset low high targets.length bytes
  | _ => True

namespace Site

variable {site : Site} {opcode : UInt8}

/-- Only the distance to a target stands in the code. -/
theorem takes_target (distance : Int) : (site.target distance).Takes fun taken _ => taken = [] := by
  unfold target
  dsimp only
  split_ifs
  · exact takes_pure rfl
  · exact takes_fail

theorem takes_shortTarget : site.shortTarget.Takes fun _ _ => True :=
  takes_i16.bind fun _ _ _ => (takes_target _).imp fun _ _ _ => trivial

theorem takes_longTarget : site.longTarget.Takes fun taken _ => ∃ distance, taken = Bytes.ofInt32 distance := by
  refine takes_i32.bind fun taken distance hd => (takes_target _).imp ?_
  rintro _ target rfl
  exact ⟨distance, by rw [hd, List.append_nil]⟩

theorem takes_resolve {α : Type} {get : Pool → UInt16 → Except Malformed α} :
    (site.resolve get).Takes fun _ _ => True :=
  takes_u16.bind fun _ _ _ => (takes_ofExcept _).imp fun _ _ _ => trivial

theorem takes_constant (index : UInt16) (wide : Bool) : (site.constant index wide).Takes fun _ _ => True := by
  refine (takes_ofExcept _).bind fun _ constant _ => ?_
  by_cases hwidth : (constant.width == 2) = wide
  · rw [if_pos hwidth]
    exact takes_pure trivial
  · rw [if_neg hwidth]
    exact takes_fail

theorem takes_other : (site.other opcode).Takes fun _ _ => True := by
  unfold other
  split
  case h_18 =>
    refine takes_u8.bind fun _ code _ => ?_
    cases BaseType.ofArrayCode? code with
    | some element => exact takes_pure trivial
    | none => exact takes_fail
  all_goals first
    | exact takes_fail
    | exact takes_pure trivial
    | exact takes_resolve.bind fun _ _ _ => takes_pure trivial
    | exact takes_i8.bind fun _ _ _ => takes_pure trivial
    | exact takes_i16.bind fun _ _ _ => takes_pure trivial
    | exact takes_u8.bind fun _ _ _ => takes_i8.bind fun _ _ _ => takes_pure trivial
    | exact takes_u8.bind fun _ _ _ => takes_constant _ _
    | exact takes_u16.bind fun _ _ _ => takes_constant _ _
    | exact takes_resolve.bind fun _ _ _ => takes_u8.bind fun _ _ _ => takes_u8.bind fun _ _ _ =>
    takes_pure trivial
    | exact takes_resolve.bind fun _ _ _ => takes_u16.bind fun _ _ _ => takes_pure trivial
    | exact takes_resolve.bind fun _ _ _ => takes_u8.bind fun _ _ _ => takes_pure trivial

theorem takes_slot {reader : Reader Instruction} (h : slot? opcode = some reader) :
    reader.Takes fun _ _ => True := by
  unfold slot? at h
  split_ifs at h
  · cases h
    exact takes_u8.bind fun _ _ _ => takes_pure trivial
  · cases h
    exact takes_pure trivial
  · cases h
    exact takes_u8.bind fun _ _ _ => takes_pure trivial
  · cases h
    exact takes_pure trivial

theorem takes_wide : site.wide.Takes fun _ op => ∀ bytes, op.StandsAs site.offset bytes := by
  refine takes_u8.bind fun _ opcode _ => takes_u16.bind fun _ index _ => ?_
  split_ifs
  · exact takes_pure fun _ => trivial
  · exact takes_pure fun _ => trivial
  · exact takes_i16.bind fun _ _ _ => takes_pure fun _ => trivial
  · exact takes_pure fun _ => trivial
  · exact takes_fail

theorem distances_of_forall₂ {parts : List Bytes} {targets : List Nat}
    (h : List.Forall₂ (fun part _ => ∃ distance, part = Bytes.ofInt32 distance) parts targets) :
    ∃ distances : List Int32, distances.length = targets.length ∧
    parts.flatten = distances.flatMap Bytes.ofInt32 := by
  induction h with
  | nil => exact ⟨[], rfl, rfl⟩
  | cons hpart _ ih =>
    obtain ⟨distance, rfl⟩ := hpart
    obtain ⟨distances, hlen, heq⟩ := ih
    exact ⟨distance :: distances, congrArg (· + 1) hlen, by rw [List.flatten_cons, List.flatMap_cons, heq]⟩

/-- The rest of a `tableswitch` takes the bytes of one, for keys in order and with a target for each. -/
theorem takesAt_tableSwitch : (site.tableSwitch opcode).TakesAt (site.offset + 1) fun taken b =>
    (CodeOp.branch b).StandsAs site.offset (0xaa :: taken) := by
  refine (takesAt_alignTo4 _).bind fun padding _ hpadding => takes_longTarget.bind fun _ otherwise hotherwise =>
    takes_i32.bind fun _ low hlow => takes_i32.bind fun _ high hhigh => ?_
  obtain ⟨distance, rfl⟩ := hotherwise
  split_ifs with hord
  · exact takes_fail
  · refine (takes_times takes_longTarget _).bind ?_
    rintro _ targets ⟨hcount, parts, rfl, hparts⟩
    obtain ⟨distances, hlen, heq⟩ := distances_of_forall₂ hparts
    rw [Int32.not_lt] at hord
    have hle := Int32.le_iff_toInt_le.mp hord
    refine takes_pure ⟨high, Branch.keysFit hord (by omega), padding, distance, distances, hpadding, hlen, ?_⟩
    rw [hlow, hhigh, heq, List.append_nil]

theorem takes_lookupSwitch : (site.lookupSwitch opcode).Takes fun _ b =>
    ∀ bytes, (CodeOp.branch b).StandsAs site.offset bytes := by
  refine takes_alignTo4.bind fun _ _ _ => takes_longTarget.bind fun _ _ _ => takes_i32.bind fun _ count _ => ?_
  split_ifs
  · exact takes_fail
  · have hcase : (do
        let key ← Reader.i32
        return (key, ← site.longTarget) : Reader (Int32 × Nat)).Takes fun _ _ => True :=
      takes_i32.bind fun _ _ _ => takes_longTarget.bind fun _ _ _ => takes_pure trivial
    exact (takes_times hcase _).bind fun _ _ _ => takes_pure fun _ => trivial

theorem takes_branch {reader : Reader (Branch Nat)} (hne : opcode ≠ 0xaa)
    (h : site.branch? opcode = some reader) :
    reader.Takes fun _ b => ∀ bytes, (CodeOp.branch b).StandsAs site.offset bytes := by
  unfold branch? at h
  dsimp only at h
  split_ifs at h
  case neg =>
    split at h
    -- tables are excluded
    case h_4 => exact absurd rfl hne
    case h_5 =>
      cases h
      exact takes_lookupSwitch
    all_goals cases h
    all_goals first
      | exact takes_pure fun _ => trivial
      | exact takes_shortTarget.bind fun _ _ _ => takes_pure fun _ => trivial
      | exact takes_longTarget.bind fun _ _ _ => takes_pure fun _ => trivial
      | exact takes_u8.bind fun _ _ _ => takes_pure fun _ => trivial
  all_goals cases h
  all_goals first
    | exact takes_pure fun _ => trivial
    | exact takes_shortTarget.bind fun _ _ _ => takes_pure fun _ => trivial

theorem takes_operands (hne : opcode ≠ 0xaa) :
    (site.operands opcode).Takes fun _ op => ∀ bytes, op.StandsAs site.offset bytes := by
  unfold operands
  cases Simple.ofOpcode? opcode with
  | some op => exact takes_pure fun _ => trivial
  | none =>
    cases StackOp.ofOpcode? opcode with
    | some op => exact takes_pure fun _ => trivial
    | none =>
      cases hslot : slot? opcode with
      | some reader => exact (takes_slot hslot).bind fun _ _ _ => takes_pure fun _ => trivial
      | none =>
        cases hbranch : site.branch? opcode with
        | some reader => exact (takes_branch hne hbranch).bind fun _ _ h => takes_pure h
        | none =>
          dsimp only
          split_ifs
          · exact takes_wide
          · exact takes_other.bind fun _ _ _ => takes_pure fun _ => trivial

end Site

variable {codeLength offset : Nat} {pool : Pool}

/-- Every instruction takes its bytes off the front, a `tableswitch` those of one. -/
theorem takesAt_read : (read codeLength pool).TakesAt offset fun taken op => op.StandsAs offset taken := by
  intro rest cursor' op h
  obtain ⟨position, cursor1, hposition, h⟩ := Outcome.reader_bind.mp h
  cases hposition
  obtain ⟨opcode, cursor2, hopcode, h⟩ := Outcome.reader_bind.mp h
  cases rest with
  | nil => cases hopcode
  | cons first rest =>
    cases hopcode
    by_cases hne : opcode = 0xaa
    · subst hne
      have hread : (Site.operands ⟨offset, codeLength, pool⟩ 0xaa).TakesAt (offset + 1) fun taken op =>
          op.StandsAs offset (0xaa :: taken) :=
        Site.takesAt_tableSwitch.bind fun taken b hstands => takes_pure ((List.append_nil taken).symm ▸ hstands)
      obtain ⟨taken, rfl, hstands⟩ := hread h
      exact ⟨_ :: taken, rfl, hstands⟩
    · obtain ⟨taken, hrest, hstands⟩ := Site.takes_operands hne h
      exact ⟨opcode :: taken, congrArg _ hrest, hstands _⟩

/-- Each instruction that is read from code stands in it at its offset. -/
theorem readAll_stands : ∀ {rounds : Nat} {cursor cursor' : Cursor} {ops : List (Nat × CodeOp Nat)},
    readAll codeLength pool rounds cursor = .ok (ops, cursor') → ∀ entry ∈ ops, ∃ before bytes after,
      cursor.rest = before ++ (bytes ++ after) ∧ cursor.position + before.length = entry.1 ∧
        entry.2.StandsAs entry.1 bytes
  | 0, cursor, cursor', ops, h => by
    obtain ⟨rfl, -⟩ := Outcome.reader_pure.mp h
    simp
  | rounds + 1, ⟨rest, position⟩, cursor', ops, h => by
    unfold readAll at h
    obtain ⟨_, cursor1, hget, h⟩ := Outcome.reader_bind.mp h
    cases hget
    split_ifs at h
    · obtain ⟨rfl, -⟩ := Outcome.reader_pure.mp h
      simp
    · obtain ⟨offset, cursor2, hoffset, h⟩ := Outcome.reader_bind.mp h
      cases hoffset
      obtain ⟨op, cursor3, hop, h⟩ := Outcome.reader_bind.mp h
      obtain ⟨others, cursor4, hothers, h⟩ := Outcome.reader_bind.mp h
      obtain ⟨rfl, -⟩ := Outcome.reader_pure.mp h
      obtain ⟨taken, rfl, hstands⟩ := takesAt_read hop
      obtain ⟨-, -, hlen⟩ := read_ok hop
      refine List.forall_mem_cons.mpr ⟨⟨[], taken, _, rfl, Nat.add_zero _, hstands⟩, fun entry hentry => ?_⟩
      -- the others stand behind the bytes of this one
      obtain ⟨before, bytes, after, hrest, hposition, hstands'⟩ := readAll_stands hothers entry hentry
      refine ⟨taken ++ before, bytes, after, by rw [hrest, List.append_assoc], ?_, hstands'⟩
      simp only [List.length_append] at hlen ⊢
      omega

end CodeOp

/-! ## Switches that are written again -/

/-- At an offset of the code stands a `tableswitch` for the keys from `low` to `high`, with `count` targets. -/
def Code.HasTable (code : Bytes) (offset : Nat) (low high : Int32) (count : Nat) : Prop :=
  ∃ before bytes after, code = before ++ (bytes ++ after) ∧ before.length = offset ∧
    Branch.IsTable offset low high count bytes

namespace Branch

variable {low high : Int32} {count : Nat}

/-- Each target takes four bytes. -/
theorem IsTable.length_lt {offset : Nat} {bytes : Bytes} (h : IsTable offset low high count bytes) :
    4 * count < bytes.length := by
  obtain ⟨padding, otherwise, distances, -, rfl, rfl⟩ := h
  have hlen : (distances.flatMap Bytes.ofInt32).length = 4 * distances.length :=
    Lists.length_flatMap_const (f := Bytes.ofInt32) (fun _ => rfl) distances
  simp only [List.length_cons, List.length_append, hlen]
  omega

/-- Wherever the branch is written, alone or in a layout, it is a `tableswitch` for the keys from `low` to
`high`, and the decoder reads all of it back. -/
structure WrittenAsTable (low high : Int32) (count : Nat) (b : Branch Nat) : Prop where
  encode : ∀ (offsets : Array Nat) (offset : Nat) (wide : Bool),
    IsTable offset low high count (b.encode offsets offset wide)
  laidOut : ∀ (items : List LayoutItem) (k : Nat), items[k]? = some (.branch b) →
    Code.HasTable (Layout.ofItems items).code ((Layout.ofItems items).offset k) low high count
  readBack : ∀ (offsets : Array Nat) (offset codeLength : Nat) (pool : Pool) (wide : Bool),
    codeLength < 2 ^ 31 → offset < codeLength → (∀ t ∈ b.targets, Layout.offsetAt offsets t < codeLength) →
      (CodeOp.read codeLength pool).YieldsAt offset (b.encode offsets offset wide)
        (.branch (b.mapTargets (Layout.offsetAt offsets)))

theorem KeysFit.writtenAsTable {otherwise : Nat} {targets : List Nat} (h : KeysFit low high targets.length) :
    WrittenAsTable low high targets.length (.tableSwitch otherwise low targets) := by
  have hencode : ∀ (offsets : Array Nat) (offset : Nat) (wide : Bool), IsTable offset low high targets.length
      ((Branch.tableSwitch otherwise low targets).encode offsets offset wide) := by
    intro offsets offset wide
    refine ⟨List.replicate (switchPadding offset) 0, Int32.ofInt (Layout.distance offsets offset otherwise),
      targets.map fun t => Int32.ofInt (Layout.distance offsets offset t), List.length_replicate,
      List.length_map _, ?_⟩
    simp only [Branch.encode, h.last, List.flatMap_map, List.cons_append, List.append_assoc]
    rfl
  refine ⟨hencode, fun items k hk => ?_, fun offsets offset codeLength pool wide hlen hoffset htargets => ?_⟩
  · obtain ⟨wide, hsettled⟩ := Layout.exists_settled hk
    obtain ⟨before, after, hcode, hbefore⟩ := Layout.code_split hsettled
    exact ⟨before, _, after, hcode, hbefore, hencode _ _ wide⟩
  · -- the keys are not empty, since the last one is not below the first
    have hlast := h.last_toInt
    have hhigh := high.toInt_lt
    have hord := Int32.le_iff_toInt_le.mp h.ordered
    have hcount := h.count_eq
    rw [h.last] at hlast
    refine encode_yieldsAt ⟨?_, by omega⟩ hlen hoffset htargets (fun t ht => by cases ht) fun _ => rfl
    rintro rfl
    rw [List.length_nil] at hcount
    omega

end Branch

namespace Code

variable {code : Bytes} {pool : Pool} {decoded : List (Nat × CodeOp Nat)}

/-- A `tableswitch` that is decoded stands in the code for keys that are worked out without loss, and the sum
behind the highest of them leaves the words for the highest word alone. With any other targets it is written for
the same keys again, at any offset, and has as many targets as the decoder reads back. -/
theorem tableSwitch_kept {offset otherwise : Nat} {low : Int32} {targets : List Nat}
    (h : decode code pool = .ok decoded)
    (hmem : (offset, .branch (.tableSwitch otherwise low targets)) ∈ decoded) :
    ∃ high, HasTable code offset low high targets.length ∧ Branch.KeysFit low high targets.length ∧
      (code.length < 2 ^ 33 → (Int32.ofNat targets.length).toInt = targets.length) ∧
        ∀ b, Branch.Retargeted (fun _ _ => True) (.tableSwitch otherwise low targets) b →
          Branch.WrittenAsTable low high targets.length b := by
  obtain ⟨⟨ops, cursor⟩, hall, h⟩ := Outcome.except_bind.mp h
  obtain ⟨_, -, h⟩ := Outcome.except_bind.mp h
  cases h
  obtain ⟨before, bytes, after, hcode, hoffset, high, hfit, htable⟩ := CodeOp.readAll_stands hall _ hmem
  unfold Cursor.start at hcode hoffset
  dsimp only at hcode hoffset
  rw [Nat.zero_add] at hoffset
  refine ⟨high, ⟨before, bytes, after, hcode, hoffset, htable⟩, hfit, fun hlen => Int32.toInt_ofNat_of_lt ?_,
    fun b hb => ?_⟩
  · -- a target takes four bytes, so the code bounds their number
    have hlt := htable.length_lt
    rw [hcode] at hlen
    simp only [List.length_append] at hlen
    omega
  · cases hb with
    | tableSwitch _ htargets =>
      rw [htargets.length_eq] at hfit ⊢
      exact hfit.writtenAsTable

/-- A `tableswitch` for the highest key of all, and a return. -/
def highestKey : Bytes :=
  [0xaa, 0, 0, 0, 0, 0, 0, 20, 0x7f, 0xff, 0xff, 0xff, 0x7f, 0xff, 0xff, 0xff, 0, 0, 0, 20, 0xb1]

theorem decode_highestKey : decode highestKey .empty =
    .ok [(0, .branch (.tableSwitch 20 Int32.maxValue [20])), (20, .branch .returnVoid)] := by
  have hall : CodeOp.readAll highestKey.length .empty highestKey.length (Cursor.start highestKey) =
      .ok ([(0, .branch (.tableSwitch 20 Int32.maxValue [20])), (20, .branch .returnVoid)], ⟨[], 21⟩) := rfl
  refine Outcome.except_bind.mpr ⟨_, hall, Outcome.except_bind.mpr ⟨(), ?_, rfl⟩⟩
  refine Outcome.except_forM.mpr fun op hop => Outcome.except_forM.mpr fun t ht => ?_
  have h20 : t = 20 := by
    rcases List.mem_pair.mp hop with rfl | rfl
    · simpa [CodeOp.targets, Branch.targets] using ht
    · cases ht
  rw [if_pos]
  · rfl
  · rw [Std.HashSet.contains_ofList, h20]
    rfl

/-- The sum of the key and the count is no 32-bit word: it wraps around, and the key is written as it was. -/
theorem tableSwitch_kept_highest : decode highestKey .empty =
      .ok [(0, .branch (.tableSwitch 20 Int32.maxValue [20])), (20, .branch .returnVoid)] ∧
    HasTable highestKey 0 Int32.maxValue Int32.maxValue 1 ∧ ¬ Branch.InWord (Int32.maxValue.toInt + (1 : Nat)) ∧
      Int32.maxValue + Int32.ofNat 1 = Int32.minValue ∧ Branch.lastKey Int32.maxValue 1 = Int32.maxValue ∧
        Branch.IsTable 5 Int32.maxValue Int32.maxValue 1
        ((Branch.tableSwitch 7 Int32.maxValue [7]).encode #[] 5 false) := by
  obtain ⟨high, htable, hfit, -, hwritten⟩ := tableSwitch_kept decode_highestKey List.mem_cons_self
  obtain rfl : high = Int32.maxValue := hfit.last.symm.trans (by decide)
  refine ⟨decode_highestKey, htable, fun hword => hfit.sum_inWord.mp hword rfl, by decide, hfit.last, ?_⟩
  exact (hwritten _ (.tableSwitch trivial (.cons trivial .nil))).encode #[] 5 false

end Code

end ClassWeave
