import ClassWeave.Frame.Change
import ClassWeave.Proofs.Outcome

/-!
# Changes give frames back

The change between two frames, converted piece by piece, leads from the first frame to the second, converted
likewise.
-/

namespace ClassWeave

namespace FrameChange

variable {κ υ κ' υ' ε : Type}

/-- The change has room in its form. -/
def Fits : FrameChange κ υ → Prop
  | .same | .sameStack _ => True
  | .chop count => 1 ≤ count.toNat ∧ count.toNat ≤ maxLocals
  | .append types => 1 ≤ types.length ∧ types.length ≤ maxLocals
  | .full record => record.locals.length < 2 ^ 16 ∧ record.stack.length < 2 ^ 16

/-- A frame of which no list is too long has changes that fit. -/
theorem fits_between [DecidableEq κ] [DecidableEq υ] (previous : FrameRecord κ υ) {next : FrameRecord κ υ}
    (hlocals : next.locals.length < 2 ^ 16) (hstack : next.stack.length < 2 ^ 16) :
    (between previous next).Fits := by
  have hfull : (FrameChange.full next).Fits := ⟨hlocals, hstack⟩
  unfold between
  dsimp only
  split
  · split_ifs with hprefix hzero hchop hprefix' happend
    · trivial
    · -- a `chop` takes at least one local away, and three at most
      have hcount : ∀ n : Nat, n ≠ 0 → n ≤ maxLocals → (FrameChange.chop n.toUInt8 : FrameChange κ υ).Fits := by
        intro n hne hle
        change n ≤ 3 at hle
        change 1 ≤ n.toUInt8.toNat ∧ n.toUInt8.toNat ≤ 3
        rw [UInt8.toNat_ofNat', Nat.mod_eq_of_lt (by omega)]
        omega
      exact hcount _ hzero hchop
    · exact hfull
    · -- an `append` adds one, for otherwise the locals would be a prefix the other way
      change 1 ≤ (next.locals.drop _).length ∧ (next.locals.drop _).length ≤ maxLocals
      rw [List.length_drop]
      refine ⟨?_, happend⟩
      obtain ⟨rest, hrest⟩ := List.isPrefixOf_iff_prefix.mp hprefix'
      have hne : rest ≠ [] := by
        rintro rfl
        rw [List.append_nil] at hrest
        exact hprefix (List.isPrefixOf_iff_prefix.mpr ⟨[], by rw [List.append_nil, hrest]⟩)
      have hpos := List.length_pos_iff.mpr hne
      have hlen := congrArg List.length hrest
      rw [List.length_append] at hlen
      omega
    · exact hfull
    · exact hfull
  · split_ifs
    · trivial
    · exact hfull
  · exact hfull

/-! ## Conversion -/

variable {onClass : κ → Except ε κ'} {onSite : υ → Except ε υ'}

/-- A list of types, converted. -/
def Converts (onClass : κ → Except ε κ') (onSite : υ → Except ε υ') :
    List (VerificationType κ υ) → List (VerificationType κ' υ') → Prop :=
  List.Forall₂ fun t t' => t.convert onClass onSite = .ok t'

theorem Converts.unique {types : List (VerificationType κ υ)} {types' types'' : List (VerificationType κ' υ')}
    (h : Converts onClass onSite types types') (h' : Converts onClass onSite types types'') :
    types' = types'' := by
  have heq := (Outcome.except_mapM.mpr h).symm.trans (Outcome.except_mapM.mpr h')
  injection heq

theorem record_convert_eq_ok {record : FrameRecord κ υ} {record' : FrameRecord κ' υ'} :
    record.convert onClass onSite = .ok record' ↔
      Converts onClass onSite record.locals record'.locals ∧
      Converts onClass onSite record.stack record'.stack := by
  constructor
  · intro h
    obtain ⟨locals, hlocals, h⟩ := Outcome.except_bind.mp h
    obtain ⟨stack, hstack, h⟩ := Outcome.except_bind.mp h
    cases h
    exact ⟨Outcome.except_mapM.mp hlocals, Outcome.except_mapM.mp hstack⟩
  · rintro ⟨hlocals, hstack⟩
    exact Outcome.except_bind.mpr ⟨_, Outcome.except_mapM.mpr hlocals,
      Outcome.except_bind.mpr ⟨_, Outcome.except_mapM.mpr hstack, rfl⟩⟩

/-- The converted change leads to the converted frame. -/
theorem frameAfter?_between [DecidableEq κ] [DecidableEq υ] {previous next : FrameRecord κ υ}
    {locals' : List (VerificationType κ' υ')} {next' : FrameRecord κ' υ'}
    (hprevious : Converts onClass onSite previous.locals locals')
    (hnext : next.convert onClass onSite = .ok next') :
    ∃ change', (between previous next).convert onClass onSite = .ok change' ∧
      change'.frameAfter? locals' = some next' := by
  obtain ⟨hlocals, hstack⟩ := record_convert_eq_ok.mp hnext
  -- a full frame says everything, and stands wherever no shorter form does
  have hfull : ∃ change', (FrameChange.full next).convert onClass onSite = .ok change' ∧
      change'.frameAfter? locals' = some next' :=
    ⟨.full next', Outcome.except_bind.mpr ⟨next', hnext, rfl⟩, rfl⟩
  have hlen := hprevious.length_eq
  obtain ⟨nextLocals', nextStack'⟩ := next'
  unfold between
  dsimp only
  split
  · rename_i hempty
    rw [hempty] at hstack
    cases hstack
    split_ifs with hprefix hzero hchop hprefix' happend
    · obtain ⟨rest, hrest⟩ := List.isPrefixOf_iff_prefix.mp hprefix
      have hnil : rest = [] := by
        have := congrArg List.length hrest
        rw [List.length_append] at this
        exact List.length_eq_zero_iff.mp (by omega)
      rw [hnil, List.append_nil] at hrest
      rw [hrest] at hlocals
      exact ⟨.same, rfl, by rw [hprevious.unique hlocals]; rfl⟩
    · obtain ⟨rest, hrest⟩ := List.isPrefixOf_iff_prefix.mp hprefix
      have hcount := congrArg List.length hrest
      rw [List.length_append] at hcount
      change _ ≤ 3 at hchop
      refine ⟨.chop _, rfl, ?_⟩
      have hnat : (previous.locals.length - next.locals.length).toUInt8.toNat =
          previous.locals.length - next.locals.length := by
        rw [UInt8.toNat_ofNat', Nat.mod_eq_of_lt (by omega)]
      unfold frameAfter?
      dsimp only
      rw [hnat, if_pos (by omega)]
      have htake := List.forall₂_take next.locals.length hprevious
      rw [← hrest, List.take_left] at htake
      rw [show locals'.length - (previous.locals.length - next.locals.length) = next.locals.length by omega,
        Converts.unique htake hlocals]
    · exact hfull
    · obtain ⟨rest, hrest⟩ := List.isPrefixOf_iff_prefix.mp hprefix'
      have htake := List.forall₂_take previous.locals.length hlocals
      have hdrop := List.forall₂_drop previous.locals.length hlocals
      rw [← hrest, List.take_left] at htake
      refine ⟨.append (nextLocals'.drop previous.locals.length),
        Outcome.except_bind.mpr ⟨_, Outcome.except_mapM.mpr hdrop, rfl⟩, ?_⟩
      unfold frameAfter?
      dsimp only
      rw [hprevious.unique htake, List.take_append_drop]
    · exact hfull
    · exact hfull
  -- a stack of one type: the locals are the same, or the frame is full
  · rename_i type hone
    rw [hone] at hstack
    cases hstack with
    | @cons _ type' _ _ htype hnil =>
      cases hnil
      split_ifs with heq
      · rw [heq] at hlocals
        refine ⟨.sameStack type', Outcome.except_bind.mpr ⟨type', htype, rfl⟩, ?_⟩
        unfold frameAfter?
        rw [hprevious.unique hlocals]
      · exact hfull
  · exact hfull

end FrameChange

end ClassWeave
