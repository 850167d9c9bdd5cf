import ClassWeave.Proofs.Layout.Decoded

/-!
# Laid-out code is read in one way

Whatever laid-out code is decoded to is what was laid out (`Layout.Encoding.eq_of_decode`). A code array that is
taken to be longer than it is can be read wherever the real one can, and with one byte more every position is
inside, the end included.
-/

namespace ClassWeave

open Outcome (Refines refines_error except_bind)

/-! ## Readers of more -/

namespace Reader

variable {α β : Type}

/-- What the one reader reads, the other reads as well. -/
def Extends (earlier later : Reader α) : Prop :=
  ∀ cursor, Refines (earlier cursor) (later cursor)

namespace Extends

theorem refl (reader : Reader α) : Extends reader reader :=
  fun cursor => .refl (reader cursor)

theorem bind {earlier later : Reader α} {next next' : α → Reader β} (h : Extends earlier later)
    (hnext : ∀ a, Extends (next a) (next' a)) : Extends (earlier >>= next) (later >>= next') :=
  fun cursor => (h cursor).bind fun found => hnext found.1 found.2

theorem times {earlier later : Reader α} (h : Extends earlier later) : ∀ count,
    Extends (Reader.times earlier count) (Reader.times later count)
  | 0 => .refl (pure [])
  | count + 1 => h.bind fun _ => (times h count).bind fun _ => .refl _

end Extends

end Reader

open Reader (Extends)

/-! ## Code that is taken to be longer -/

namespace CodeOp

namespace Site

/-- The site in code that is taken to be longer. -/
def within (site : Site) (codeLength : Nat) : Site :=
  { site with codeLength }

variable {site : Site} {codeLength : Nat} (hle : site.codeLength ≤ codeLength)

include hle

/-- A target inside the code is inside longer code. -/
theorem target_extends (distance : Int) : (site.target distance).Extends
    ((site.within codeLength).target distance) := by
  intro cursor
  unfold target within
  dsimp only
  split_ifs with hinside hinside'
  · exact .refl _
  · omega
  · exact refines_error _ _
  · exact refines_error _ _

theorem shortTarget_extends : site.shortTarget.Extends (site.within codeLength).shortTarget :=
  (Extends.refl _).bind fun _ => target_extends hle _

theorem longTarget_extends : site.longTarget.Extends (site.within codeLength).longTarget :=
  (Extends.refl _).bind fun _ => target_extends hle _

theorem tableSwitch_extends (opcode : UInt8) :
    (site.tableSwitch opcode).Extends ((site.within codeLength).tableSwitch opcode) := by
  refine (Extends.refl _).bind fun _ => (longTarget_extends hle).bind fun _ => (Extends.refl _).bind fun _ =>
    (Extends.refl _).bind fun _ => ?_
  split_ifs
  · exact fun _ => refines_error _ _
  · exact ((longTarget_extends hle).times _).bind fun _ => .refl _

theorem lookupSwitch_extends (opcode : UInt8) :
    (site.lookupSwitch opcode).Extends ((site.within codeLength).lookupSwitch opcode) := by
  refine (Extends.refl _).bind fun _ => (longTarget_extends hle).bind fun _ => (Extends.refl _).bind fun _ => ?_
  split_ifs
  · exact fun _ => refines_error _ _
  · have hcase := (Extends.refl Reader.i32).bind fun key : Int32 =>
      (longTarget_extends hle).bind fun t : Nat => Extends.refl (pure (key, t))
    exact (hcase.times _).bind fun _ => .refl _

/-- An opcode is one of a branch wherever it stands, and its operands can be read in longer code. -/
theorem branch_extends (opcode : UInt8) :
    Option.Rel Extends (site.branch? opcode) ((site.within codeLength).branch? opcode) := by
  unfold branch?
  dsimp only
  split_ifs
  · exact .some ((shortTarget_extends hle).bind fun _ => .refl _)
  · exact .some ((shortTarget_extends hle).bind fun _ => .refl _)
  · exact .some ((shortTarget_extends hle).bind fun _ => .refl _)
  · exact .some ((shortTarget_extends hle).bind fun _ => .refl _)
  · exact .some (.refl _)
  · split
    · exact .some ((shortTarget_extends hle).bind fun _ => .refl _)
    · exact .some ((shortTarget_extends hle).bind fun _ => .refl _)
    · exact .some (.refl _)
    · exact .some (tableSwitch_extends hle _)
    · exact .some (lookupSwitch_extends hle _)
    · exact .some (.refl _)
    · exact .some (.refl _)
    · exact .some ((longTarget_extends hle).bind fun _ => .refl _)
    · exact .some ((longTarget_extends hle).bind fun _ => .refl _)
    · exact .none

/-- An instruction that can be read in some code can be read in longer code. -/
theorem operands_extends (opcode : UInt8) : (site.operands opcode).Extends
    ((site.within codeLength).operands opcode) := by
  have hbranch := branch_extends hle opcode
  unfold operands
  split
  · exact .refl _
  split
  · exact .refl _
  split
  · exact .refl _
  generalize site.branch? opcode = found at hbranch ⊢
  generalize (site.within codeLength).branch? opcode = found' at hbranch ⊢
  cases hbranch with
  | some h => exact h.bind fun _ => .refl _
  | none => exact .refl _

end Site

theorem read_extends {codeLength codeLength' : Nat} (hle : codeLength ≤ codeLength') (pool : Pool) :
    (read codeLength pool).Extends (read codeLength' pool) :=
  (Extends.refl _).bind fun offset => (Extends.refl _).bind fun opcode =>
    @Site.operands_extends ⟨offset, codeLength, pool⟩ _ hle opcode

theorem readAll_extends {codeLength codeLength' : Nat} (hle : codeLength ≤ codeLength')
    (pool : Pool) : ∀ rounds, (readAll codeLength pool rounds).Extends (readAll codeLength' pool rounds)
  | 0 => .refl _
  | rounds + 1 => by
    refine (Extends.refl _).bind fun cursor => ?_
    split_ifs
    · exact .refl _
    · exact (Extends.refl _).bind fun _ => (read_extends hle pool).bind fun _ =>
        (readAll_extends hle pool rounds).bind fun _ => .refl _

end CodeOp

/-! ## Laid-out code -/

namespace Layout

variable {items : List LayoutItem} {pool : Pool} {ops : List (CodeOp Nat)}

/-- If laid-out code can be decoded, then to its entries: in order, each at its offset, with offsets for
targets. -/
theorem Encoding.eq_of_decode (h : Encoding pool ops items) (hlen : (ofItems items).code.length + 1 < 2 ^ 31)
    (hw : ∀ b, .branch b ∈ ops → b.IsWritable) (htargets : ∀ op ∈ ops, ∀ t ∈ op.targets, t ≤ ops.length)
    {decoded : List (Nat × CodeOp Nat)} (hdecode : Code.decode (ofItems items).code pool = .ok decoded) :
    decoded = (ofItems items).placedOps ops := by
  -- with one more byte every offset is inside the code, that of the end as well
  have hle : ∀ k ≤ ops.length, (ofItems items).offset k < (ofItems items).code.length + 1 := by
    intro k hk
    rcases Nat.lt_or_eq_of_le hk with hlt | rfl
    · exact Nat.lt_succ_of_lt (h.offset_inside hlt)
    · rw [h.length_eq, offset_length]
      exact Nat.lt_succ_self _
  have hreads : CodeOp.ReadsAllAs ((ofItems items).code.length + 1) pool 0 (ofItems items).code
      ((ofItems items).placedOps ops) := by
    refine h.readsAllAs hlen fun k op hop => ?_
    have hmem := List.mem_of_getElem? hop
    have hk := (List.getElem?_eq_some_iff.mp hop).1
    exact ⟨fun b hb => hw b (hb ▸ hmem), hle k (Nat.le_of_lt hk), fun t ht => hle t (htargets op hmem t ht),
      fun _ _ _ _ => hle (k + 1) hk⟩
  have hall := CodeOp.readAll_of_readsAllAs hreads (Nat.le_refl _)
  obtain ⟨⟨ops', cursor⟩, hread, hrest⟩ := except_bind.mp hdecode
  obtain ⟨-, -, hsame⟩ := except_bind.mp hrest
  cases hsame
  -- what is decoded of the code is decoded of the longer one
  have hagain := CodeOp.readAll_extends (Nat.le_succ _) pool _ _ _ hread
  exact congrArg Prod.fst (Except.ok.inj (hagain.symm.trans hall))

end Layout

end ClassWeave
