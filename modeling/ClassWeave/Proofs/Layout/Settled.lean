import ClassWeave.Layout
import ClassWeave.Proofs.Bytes.Words
import ClassWeave.Proofs.Lists
import Mathlib.Data.List.Basic

/-!
# Settled layouts

Widening ends in a layout that one more round would not change, so every branch that stayed narrow reaches its
target. The offsets of a layout add up the widths of its items, and every item is written in as many bytes as its
width says; so an offset is where the item's bytes begin.
-/

namespace ClassWeave

namespace Layout

variable {reach : Reach} {xs : List (LayoutItem × Bool)}

/-! ## Rounds of widening -/

theorem length_widen : (widen reach xs).length = xs.length := by
  unfold widen
  rw [List.length_map, List.length_zipIdx]

theorem getElem?_widen (k : Nat) :
    (widen reach xs)[k]? = xs[k]?.map fun entry =>
      (entry.1, entry.2 || isFar reach (offsetsOf xs) (offsetAt (offsetsOf xs) k) entry.1) := by
  unfold widen
  rw [List.getElem?_map, List.getElem?_zipIdx, Option.map_map]
  cases xs[k]? with
  | none => rfl
  | some entry => rw [Nat.zero_add]; rfl

theorem map_fst_widen : (widen reach xs).map Prod.fst = xs.map Prod.fst := by
  apply List.ext_getElem?
  intro k
  rw [List.getElem?_map, List.getElem?_map, getElem?_widen, Option.map_map]
  rfl

theorem map_fst_iterate : ∀ n : Nat, ((widen reach)^[n] xs).map Prod.fst = xs.map Prod.fst
  | 0 => rfl
  | n + 1 => by rw [Function.iterate_succ_apply', map_fst_widen, map_fst_iterate n]

theorem map_fst_settle : ∀ (rounds : Nat) (xs : List (LayoutItem × Bool)),
    (settle reach rounds xs).map Prod.fst = xs.map Prod.fst
  | 0, _ => rfl
  | rounds + 1, xs => by
    unfold settle
    dsimp only
    split_ifs
    · rfl
    · rw [map_fst_settle rounds, map_fst_widen]

/-- Flags that only get set, and do not stay the same, count more. -/
theorem count_lt_of_ne : ∀ {ys zs : List (LayoutItem × Bool)}, ys.length = zs.length →
    (∀ (k : Nat) (y z : LayoutItem × Bool), ys[k]? = some y → zs[k]? = some z → y.2 = true → z.2 = true) →
    ys.countP Prod.snd ≤ zs.countP Prod.snd ∧
      (zs.map Prod.snd ≠ ys.map Prod.snd → ys.countP Prod.snd < zs.countP Prod.snd)
  | [], [], _, _ => ⟨Nat.le_refl _, fun hne => absurd rfl hne⟩
  | y :: ys, z :: zs, hlen, hmono => by
    obtain ⟨hle, hlt⟩ := count_lt_of_ne (Nat.succ.inj hlen) fun k => hmono (k + 1)
    have hhead := hmono 0 y z rfl rfl
    have htail : y.2 = z.2 → (z :: zs).map Prod.snd ≠ (y :: ys).map Prod.snd →
        zs.map Prod.snd ≠ ys.map Prod.snd := by
      intro hyz hne heq
      exact hne (by rw [List.map_cons, List.map_cons, hyz, heq])
    rw [List.countP_cons, List.countP_cons]
    cases hy : y.2 with
    | true =>
      -- what is wide stays so, and the difference is in the rest
      have hz := hhead hy
      rw [hz]
      refine ⟨by omega, fun hne => ?_⟩
      have := hlt (htail (hy.trans hz.symm) hne)
      omega
    | false =>
      cases hz : z.2 with
      | true =>
        simp only [if_true, Bool.false_eq_true, if_false]
        exact ⟨by omega, fun _ => by omega⟩
      | false =>
        refine ⟨by omega, fun hne => ?_⟩
        have := hlt (htail (hy.trans hz.symm) hne)
        omega

/-- A round that changes something makes an item wide. -/
theorem count_lt_widen (h : (widen reach xs).map Prod.snd ≠ xs.map Prod.snd) :
    xs.countP Prod.snd < (widen reach xs).countP Prod.snd := by
  refine (count_lt_of_ne length_widen.symm ?_).2 h
  intro k y z hy hz hwide
  rw [getElem?_widen, hy] at hz
  cases hz
  change (y.2 || _) = true
  rw [hwide, Bool.true_or]

/-- Enough rounds end where one more changes nothing. -/
theorem widen_settle : ∀ (rounds : Nat) (xs : List (LayoutItem × Bool)),
    xs.length ≤ xs.countP Prod.snd + rounds →
      (widen reach (settle reach rounds xs)).map Prod.snd = (settle reach rounds xs).map Prod.snd
  | 0, xs, h => by
    change (widen reach xs).map Prod.snd = xs.map Prod.snd
    by_contra hne
    have h1 := count_lt_widen hne
    have h2 : (widen reach xs).countP Prod.snd ≤ (widen reach xs).length := List.countP_le_length
    rw [length_widen] at h2
    omega
  | rounds + 1, xs, h => by
    unfold settle
    dsimp only
    split_ifs with heq
    · exact heq
    · have h1 := count_lt_widen heq
      exact widen_settle rounds _ (by rw [length_widen]; omega)

/-- Settling is widening some number of times. -/
theorem settle_eq_iterate : ∀ (rounds : Nat) (xs : List (LayoutItem × Bool)),
    ∃ n ≤ rounds, settle reach rounds xs = (widen reach)^[n] xs
  | 0, _ => ⟨0, Nat.le_refl _, rfl⟩
  | rounds + 1, xs => by
    unfold settle
    dsimp only
    split_ifs
    · exact ⟨0, Nat.zero_le _, rfl⟩
    · obtain ⟨n, hn, heq⟩ := settle_eq_iterate rounds (widen reach xs)
      exact ⟨n + 1, Nat.succ_le_succ hn, heq⟩

/-- The items of a settled layout, each with whether it is wide. -/
def settled (reach : Reach) (items : List LayoutItem) : List (LayoutItem × Bool) :=
  settle reach items.length (items.map fun item => (item, false))

theorem map_fst_settled (items : List LayoutItem) : (settled reach items).map Prod.fst = items := by
  unfold settled
  rw [map_fst_settle, List.map_map]
  exact List.map_id items

theorem length_settled (items : List LayoutItem) : (settled reach items).length = items.length := by
  rw [← List.length_map Prod.fst, map_fst_settled]

theorem getElem?_settled {items : List LayoutItem} {k : Nat} {entry : LayoutItem × Bool}
    (h : (settled reach items)[k]? = some entry) : items[k]? = some entry.1 := by
  have hmap := congrArg (fun l : List LayoutItem => l[k]?) (@map_fst_settled reach items)
  simp only [List.getElem?_map, h] at hmap
  exact hmap.symm

/-- Settling decides on a width for every item. -/
theorem exists_settled {items : List LayoutItem} {k : Nat} {item : LayoutItem} (hk : items[k]? = some item) :
    ∃ wide, (settled reach items)[k]? = some (item, wide) := by
  have hlt : k < (settled reach items).length := by
    rw [length_settled]
    exact (List.getElem?_eq_some_iff.mp hk).1
  have hget := List.getElem?_eq_getElem hlt
  have hitem := getElem?_settled hget
  rw [hk] at hitem
  exact ⟨_, hget.trans (congrArg some (Prod.ext (Option.some.inj hitem).symm rfl))⟩

/-- In a settled layout what is narrow is near its target. -/
theorem near_of_settled {items : List LayoutItem} {k : Nat} {item : LayoutItem}
    (h : (settled reach items)[k]? = some (item, false)) :
    isFar reach (offsetsOf (settled reach items)) (offsetAt (offsetsOf (settled reach items)) k) item =
    false := by
  have hfix : (widen reach (settled reach items)).map Prod.snd = (settled reach items).map Prod.snd :=
    widen_settle items.length _ (by rw [List.length_map]; omega)
  have hk := congrArg (fun l : List Bool => l[k]?) hfix
  simp only [List.getElem?_map, getElem?_widen, h, Option.map_some] at hk
  simpa using hk

/-- In some round of widening an item did not reach its target. -/
def WasFar (reach : Reach) (items : List LayoutItem) (k : Nat) : Prop :=
  ∃ rounds item, items[k]? = some item ∧
    isFar reach (offsetsOf ((widen reach)^[rounds] (items.map fun item => (item, false))))
      (offsetAt (offsetsOf ((widen reach)^[rounds] (items.map fun item => (item, false)))) k) item = true

/-- No item is wide before some round finds it too far from its target. -/
theorem wasFar_of_iterate {items : List LayoutItem} {k : Nat} {item : LayoutItem} : ∀ {rounds : Nat},
    ((widen reach)^[rounds] (items.map fun item => (item, false)))[k]? = some (item, true) →
    WasFar reach items k
  | 0, h => by
    rw [Function.iterate_zero_apply, List.getElem?_map, Option.map_eq_some_iff] at h
    obtain ⟨_, -, heq⟩ := h
    cases heq
  | rounds + 1, h => by
    rw [Function.iterate_succ_apply', getElem?_widen, Option.map_eq_some_iff] at h
    obtain ⟨⟨item', wide⟩, hbefore, heq⟩ := h
    obtain ⟨rfl, hwide⟩ := Prod.mk.inj heq
    rcases Bool.or_eq_true_iff.mp hwide with rfl | hfar
    · exact wasFar_of_iterate hbefore
    · have hitems := @map_fst_iterate reach (items.map fun item => (item, false)) rounds
      rw [List.map_map] at hitems
      refine ⟨rounds, item', ?_, hfar⟩
      rw [← show _ = items from hitems.trans (List.map_id items), List.getElem?_map, hbefore]
      rfl

/-- What is wide in a settled layout was too far from its target in some round. -/
theorem wasFar_of_settled {items : List LayoutItem} {k : Nat} {item : LayoutItem}
    (h : (settled reach items)[k]? = some (item, true)) : WasFar reach items k := by
  obtain ⟨rounds, -, hrounds⟩ := @settle_eq_iterate reach items.length (items.map fun item => (item, false))
  unfold settled at h
  rw [hrounds] at h
  exact wasFar_of_iterate h

/-! ## Offsets -/

theorem getElem?_offsetsFrom_zero (offset : Nat) (xs : List (LayoutItem × Bool)) :
    (offsetsFrom offset xs)[0]? = some offset := by
  cases xs <;> rfl

theorem getElem?_offsetsFrom_succ : ∀ {offset : Nat} {xs : List (LayoutItem × Bool)} {k : Nat}
    {entry : LayoutItem × Bool}, xs[k]? = some entry →
      ∃ at' : Nat, (offsetsFrom offset xs)[k]? = some at' ∧
        (offsetsFrom offset xs)[k + 1]? = some (at' + entry.1.width at' entry.2)
  | offset, x :: xs, 0, entry, h => by
    cases h
    exact ⟨offset, rfl, getElem?_offsetsFrom_zero _ xs⟩
  | offset, x :: xs, k + 1, entry, h => by
    obtain ⟨at', h1, h2⟩ := getElem?_offsetsFrom_succ (show xs[k]? = some entry from h)
    exact ⟨at', h1, h2⟩

theorem offsetAt_zero (xs : List (LayoutItem × Bool)) : offsetAt (offsetsOf xs) 0 = 0 := by
  unfold offsetAt offsetsOf
  rw [List.getElem?_toArray, getElem?_offsetsFrom_zero]
  rfl

/-- Each item begins where the one before ends. -/
theorem offsetAt_succ {k : Nat} {entry : LayoutItem × Bool} (h : xs[k]? = some entry) :
    offsetAt (offsetsOf xs) (k + 1) =
      offsetAt (offsetsOf xs) k + entry.1.width (offsetAt (offsetsOf xs) k) entry.2 := by
  obtain ⟨at', h1, h2⟩ := @getElem?_offsetsFrom_succ 0 _ _ _ h
  unfold offsetAt offsetsOf
  rw [List.getElem?_toArray, List.getElem?_toArray, h1, h2]
  rfl

end Layout

/-! ## Widths -/

namespace Branch

theorem length_encodeLong (offsets : Array Nat) (offset target : Nat) :
    (encodeLong offsets offset target).length = 4 := rfl

theorem length_encode (offsets : Array Nat) (offset : Nat) (wide : Bool) (b : Branch Nat) :
    (b.encode offsets offset wide).length = b.width offset wide := by
  cases b with
  | conditional condition target => cases wide <;> rfl
  | jump kind target => cases wide <;> rfl
  | ret slot =>
    change (if slot ≤ 0xFF then [0xa9, slot.toUInt8] else wideOpcode :: 0xa9 :: Bytes.ofUInt16 slot).length =
      if slot ≤ 0xFF then 2 else 4
    split_ifs <;> rfl
  | tableSwitch otherwise low targets =>
    have h := Lists.length_flatMap_const (length_encodeLong offsets offset) targets
    simp only [encode, width, List.length_append, List.length_cons, List.length_replicate, length_encodeLong, h,
      Bytes.ofInt32, Bytes.length_ofUInt32]
    omega
  | lookupSwitch otherwise cases =>
    -- a case is a key and a target, four bytes each
    have h1 : ∀ c : Int32 × Nat, (Bytes.ofInt32 c.1 ++ encodeLong offsets offset c.2).length = 8 := by
      intro c
      rw [List.length_append, length_encodeLong]
      rfl
    simp only [encode, width, List.length_append, List.length_cons, List.length_replicate, length_encodeLong,
      Lists.length_flatMap_const h1 cases]
    simp only [Bytes.ofInt32, Bytes.length_ofUInt32]
    omega
  | returnValue kind => rfl
  | returnVoid => rfl
  | athrow => rfl

end Branch

theorem LayoutItem.length_encode (offsets : Array Nat) (offset : Nat) (wide : Bool) (item : LayoutItem) :
    (item.encode offsets offset wide).length = item.width offset wide := by
  cases item with
  | encoded bytes => rfl
  | branch b => exact b.length_encode offsets offset wide

end ClassWeave
