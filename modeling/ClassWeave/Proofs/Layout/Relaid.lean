import ClassWeave.Proofs.Layout.Respelled

/-!
# Laid-out code that is laid out again

What is read of laid-out code (`Layout.Respells`) is laid out in the same way: what is near a target is near it
again, and a jump that was skipped is as far from its target as it was. So each item gets the width that it had,
a widened branch that of its two parts, and the code is the same (`Layout.Respells.code_eq`). A switch may take
more bytes where it begins earlier, and then a branch over it is wide that reaches its target in the end. So code
with switches is left out, unless nothing was widened.
-/

namespace ClassWeave

/-- Whether the bytes that the branch takes depend on where it is. -/
def Branch.isSwitch {τ : Type} : Branch τ → Bool
  | .tableSwitch _ _ _ | .lookupSwitch _ _ => true
  | _ => false

/-- Whether the entry is such a branch. -/
def CodeOp.isSwitch {τ : Type} : CodeOp τ → Bool
  | .plain _ => false
  | .branch b => b.isSwitch

namespace LayoutItem

/-- Whether the bytes that the item takes depend on where it is. -/
def isSwitch : LayoutItem → Bool
  | .encoded _ => false
  | .branch b => b.isSwitch

/-- The item with its targets moved. -/
def mapTargets (move : Nat → Nat) : LayoutItem → LayoutItem
  | .encoded bytes => .encoded bytes
  | .branch b => .branch (b.mapTargets move)

theorem width_mapTargets (move : Nat → Nat) (offset : Nat) (wide : Bool) (item : LayoutItem) :
    (item.mapTargets move).width offset wide = item.width offset wide := by
  cases item with
  | encoded bytes => rfl
  | branch b => cases b <;> simp [mapTargets, Branch.mapTargets, width, Branch.width]

theorem isConditional_mapTargets (move : Nat → Nat) (item : LayoutItem) :
    (item.mapTargets move).isConditional = item.isConditional := by
  cases item with
  | encoded bytes => rfl
  | branch b => cases b <;> rfl

/-- An item is written alike where the targets have moved and their offsets are the same. -/
theorem encode_mapTargets {offsets offsets' : Array Nat} {move : Nat → Nat}
    (h : ∀ t, Layout.offsetAt offsets' (move t) = Layout.offsetAt offsets t) (offset : Nat) (wide : Bool)
    (item : LayoutItem) :
    (item.mapTargets move).encode offsets' offset wide = item.encode offsets offset wide := by
  have hshort : ∀ t, Branch.encodeShort offsets' offset (move t) = Branch.encodeShort offsets offset t := by
    intro t
    unfold Branch.encodeShort Layout.distance
    rw [h]
  have hlong : ∀ at' t, Branch.encodeLong offsets' at' (move t) = Branch.encodeLong offsets at' t := by
    intro at' t
    unfold Branch.encodeLong Layout.distance
    rw [h]
  cases item with
  | encoded bytes => rfl
  | branch b =>
    cases b with
    | conditional _ _ | jump _ _ =>
      simp only [mapTargets, Branch.mapTargets, encode, Branch.encode, hshort, hlong]
    | tableSwitch _ _ _ | lookupSwitch _ _ =>
      simp only [mapTargets, Branch.mapTargets, encode, Branch.encode, hlong, List.length_map, List.flatMap_map]
    | _ => rfl

/-- An item that is no switch takes no more bytes elsewhere, unless it is wide there. -/
theorem width_le_width {item : LayoutItem} (h : item.isSwitch = false) {wide wide' : Bool}
    (hwide : wide = true → wide' = true) (offset offset' : Nat) :
    item.width offset wide ≤ item.width offset' wide' := by
  cases item with
  | encoded bytes => exact Nat.le_refl _
  | branch b =>
    cases b with
    | conditional _ _ | jump _ _ =>
      simp only [width, Branch.width]
      split_ifs with hw hw'
      · exact Nat.le_refl _
      · exact absurd (hwide hw) hw'
      · omega
      · exact Nat.le_refl _
    | tableSwitch _ _ _ | lookupSwitch _ _ => cases h
    | _ => exact Nat.le_refl _

end LayoutItem

namespace Layout

/-! ## Items that are read again -/

/-- The second items are the first ones as they are read again: each at its place, and each of `widened` as the
negated branch over a jump. -/
structure Respells (widened : List Nat) (items items' : List LayoutItem) : Prop where
  length : items'.length = place widened items.length
  narrow : ∀ {k item}, items[k]? = some item → k ∉ widened →
    items'[place widened k]? = some (item.mapTargets (place widened))
  wide : ∀ {k}, k ∈ widened → ∃ condition target, items[k]? = some (.branch (.conditional condition target)) ∧
    items'[place widened k]? = some (.branch (.conditional condition.negate (place widened k + 2))) ∧
      items'[place widened k + 1]? = some (.branch (.goto (place widened target)))

/-- The position of what jumps to the target of an item when it is read again. -/
def jumpPlace (widened : List Nat) (position : Nat) : Nat :=
  place widened position + if position ∈ widened then 1 else 0

/-! ## Items by position -/

/-- Whether an item is wide. -/
def isWideAt (xs : List (LayoutItem × Bool)) (position : Nat) : Bool :=
  ((xs[position]?).map Prod.snd).getD false

section Positions

variable {reach : Reach} {items : List LayoutItem} {xs : List (LayoutItem × Bool)}
  (hxs : xs.map Prod.fst = items) {k : Nat} {item : LayoutItem} (hk : items[k]? = some item)

include hxs hk

theorem getElem?_of_items : xs[k]? = some (item, isWideAt xs k) := by
  subst hxs
  rw [List.getElem?_map, Option.map_eq_some_iff] at hk
  obtain ⟨⟨item, wide⟩, hget, rfl⟩ := hk
  unfold isWideAt
  rw [hget]
  rfl

/-- The next item begins where this one ends. -/
theorem offsetAt_next : offsetAt (offsetsOf xs) (k + 1) =
    offsetAt (offsetsOf xs) k + item.width (offsetAt (offsetsOf xs) k) (isWideAt xs k) :=
  offsetAt_succ (getElem?_of_items hxs hk)

theorem isWideAt_widen : isWideAt (widen reach xs) k =
    (isWideAt xs k || isFar reach (offsetsOf xs) (offsetAt (offsetsOf xs) k) item) := by
  have hget := @getElem?_widen reach xs k
  rw [getElem?_of_items hxs hk] at hget
  unfold isWideAt at hget ⊢
  rw [hget]
  rfl

end Positions

/-- What is not wide in a settled layout reaches its target. -/
theorem covers_of_isWideAt {items : List LayoutItem} {k t : Nat} {b : Branch Nat}
    (hk : items[k]? = some (.branch b)) (hnarrow : isWideAt (settled .signed16 items) k = false)
    (ht : b.reachTarget? = some t) :
    Reach.signed16.covers (distance (ofItems items).offsets ((ofItems items).offset k) t) = true := by
  have hget := getElem?_of_items (@map_fst_settled .signed16 items) hk
  rw [hnarrow] at hget
  exact covers_of_narrow hget ht

/-! ## Spans -/

theorem covers_signed16 {distance : Int} :
    Reach.signed16.covers distance = true ↔ -32768 ≤ distance ∧ distance ≤ 32767 := by
  unfold Reach.covers Reach.signed16
  rw [Bool.and_eq_true, decide_eq_true_iff, decide_eq_true_iff]

/-- What does not shrink from step to step does not shrink over several steps. -/
theorem span_le_of_steps {f g : Nat → Nat} {count : Nat} (h : ∀ k < count, f (k + 1) + g k ≤ g (k + 1) + f k)
    {j k : Nat} (hjk : j ≤ k) (hk : k ≤ count) : f k + g j ≤ g k + f j := by
  induction k, hjk using Nat.le_induction with
  | base => omega
  | succ k _ ih =>
    have hstep := h k hk
    have hbefore := ih (Nat.le_of_succ_le hk)
    omega

/-- Offsets do not decrease. -/
theorem offsetAt_mono {items : List LayoutItem} {xs : List (LayoutItem × Bool)} (hxs : xs.map Prod.fst = items)
    {j k : Nat} (hjk : j ≤ k) (hk : k ≤ items.length) :
    offsetAt (offsetsOf xs) j ≤ offsetAt (offsetsOf xs) k := by
  have hspan := @span_le_of_steps (fun _ => 0) (offsetAt (offsetsOf xs)) items.length (fun i hi => by
    rw [offsetAt_next hxs (List.getElem?_eq_getElem hi)]
    omega) j k hjk hk
  omega

namespace Respells

variable {widened : List Nat} {items items' : List LayoutItem} {xs ys : List (LayoutItem × Bool)}
  (h : Respells widened items items') (hxs : xs.map Prod.fst = items) (hys : ys.map Prod.fst = items')

include h

theorem lt_of_mem {k : Nat} (hk : k ∈ widened) : k < items.length := by
  obtain ⟨_, _, hitem, -, -⟩ := h.wide hk
  exact (List.getElem?_eq_some_iff.mp hitem).1

include hys in
/-- An item that was not widened takes as many bytes in its place. -/
theorem offsetAt_narrow {k : Nat} {item : LayoutItem} (hk : items[k]? = some item) (hnarrow : k ∉ widened) :
    offsetAt (offsetsOf ys) (place widened (k + 1)) = offsetAt (offsetsOf ys) (place widened k) +
      item.width (offsetAt (offsetsOf ys) (place widened k)) (isWideAt ys (place widened k)) := by
  rw [place_narrow hnarrow, offsetAt_next hys (h.narrow hk hnarrow), LayoutItem.width_mapTargets]

include hys in
/-- One that was widened takes the bytes of its two parts. -/
theorem offsetAt_wide {k : Nat} (hwide : k ∈ widened) :
    offsetAt (offsetsOf ys) (place widened k + 1) =
        offsetAt (offsetsOf ys) (place widened k) + (if isWideAt ys (place widened k) then 8 else 3) ∧
      offsetAt (offsetsOf ys) (place widened (k + 1)) =
        offsetAt (offsetsOf ys) (place widened k + 1) +
        (if isWideAt ys (place widened k + 1) then 5 else 3) := by
  obtain ⟨condition, target, -, hnegated, hjump⟩ := h.wide hwide
  rw [place_wide hwide]
  exact ⟨offsetAt_next hys hnegated, offsetAt_next hys hjump⟩

/-! ## Rounds of the first layout -/

/-- What is wide is wide when it is read again. -/
def StaysWide (widened : List Nat) (items : List LayoutItem) (xs ys : List (LayoutItem × Bool)) : Prop :=
  ∀ k < items.length, isWideAt xs k = true → isWideAt ys (jumpPlace widened k) = true

include hxs hys in
/-- Then spans between instructions have not become shorter. -/
theorem span_le (hrigid : ∀ item ∈ items, item.isSwitch = false) (hwide : StaysWide widened items xs ys)
    {j k : Nat} (hjk : j ≤ k) (hk : k ≤ items.length) :
    offsetAt (offsetsOf xs) k + offsetAt (offsetsOf ys) (place widened j) ≤
      offsetAt (offsetsOf ys) (place widened k) + offsetAt (offsetsOf xs) j := by
  refine @span_le_of_steps (offsetAt (offsetsOf xs)) (fun i => offsetAt (offsetsOf ys) (place widened i))
    items.length (fun i hi => ?_) j k hjk hk
  have hitem := List.getElem?_eq_getElem hi
  have hflag := hwide i hi
  -- what was widened takes its two parts, at least as much as when it was narrow
  by_cases hmem : i ∈ widened
  · obtain ⟨condition, target, hcond, -, -⟩ := h.wide hmem
    obtain ⟨hfirst, hsecond⟩ := h.offsetAt_wide hys hmem
    have hnext := offsetAt_next hxs hcond
    rw [jumpPlace, if_pos hmem] at hflag
    rw [hsecond, hfirst, hnext]
    simp only [LayoutItem.width, Branch.width]
    cases hw : isWideAt xs i with
    | true =>
      rw [hflag hw, if_pos rfl, if_pos rfl]
      split_ifs <;> omega
    | false =>
      rw [if_neg Bool.false_ne_true]
      split_ifs <;> omega
  · rw [jumpPlace, if_neg hmem, Nat.add_zero] at hflag
    have hle := LayoutItem.width_le_width (hrigid _ (List.getElem_mem hi)) hflag
      (offsetAt (offsetsOf xs) i) (offsetAt (offsetsOf ys) (place widened i))
    rw [h.offsetAt_narrow hys hitem hmem, offsetAt_next hxs hitem]
    omega

/-- Items whose targets are inside the code, or at its end. -/
def TargetsInside (items : List LayoutItem) : Prop :=
  ∀ {k t : Nat} {b : Branch Nat}, items[k]? = some (.branch b) → b.reachTarget? = some t → t ≤ items.length

omit h in
theorem reachTarget?_mapTargets (move : Nat → Nat) (b : Branch Nat) :
    (b.mapTargets move).reachTarget? = b.reachTarget?.map move := by
  cases b <;> rfl

/-- What jumps to the target of an item when it is read again. -/
theorem exists_jump {k t : Nat} {b : Branch Nat} (hk : items[k]? = some (.branch b))
    (ht : b.reachTarget? = some t) : ∃ b', items'[jumpPlace widened k]? = some (.branch b') ∧
      b'.reachTarget? = some (place widened t) := by
  unfold jumpPlace
  by_cases hmem : k ∈ widened
  · obtain ⟨condition, target, hcond, -, hjump⟩ := h.wide hmem
    obtain rfl := LayoutItem.branch.inj (Option.some.inj (hk.symm.trans hcond))
    cases ht
    rw [if_pos hmem]
    exact ⟨_, hjump, rfl⟩
  · rw [if_neg hmem]
    exact ⟨b.mapTargets (place widened), h.narrow hk hmem, by rw [reachTarget?_mapTargets, ht]; rfl⟩

include hxs hys in
/-- A jump that is read again is as far from its target as the item was, or farther. -/
theorem covers_of_jump (hrigid : ∀ item ∈ items, item.isSwitch = false) (hwide : StaysWide widened items xs ys)
    {k t : Nat} (hk : k < items.length) (hflag : isWideAt xs k = false) (ht : t ≤ items.length)
    (hcovers : Reach.signed16.covers
      (distance (offsetsOf ys) (offsetAt (offsetsOf ys) (jumpPlace widened k)) (place widened t)) = true) :
    Reach.signed16.covers (distance (offsetsOf xs) (offsetAt (offsetsOf xs) k) t) = true := by
  rw [covers_signed16] at hcovers ⊢
  unfold distance at hcovers ⊢
  rcases Nat.lt_or_ge k t with hlt | hge
  · -- forward: the span from behind the item, and what the item and its jump take
    have hbehind := h.span_le hxs hys hrigid hwide (Nat.succ_le_of_lt hlt) ht
    have hat := h.span_le hxs hys hrigid hwide (Nat.le_succ k) hk
    have hmono := offsetAt_mono hxs (Nat.le_of_lt hlt) ht
    have hjump : offsetAt (offsetsOf xs) (k + 1) + offsetAt (offsetsOf ys) (jumpPlace widened k) ≤
        offsetAt (offsetsOf ys) (place widened (k + 1)) + offsetAt (offsetsOf xs) k := by
      unfold jumpPlace
      split_ifs with hmem
      · obtain ⟨condition, target, hcond, -, -⟩ := h.wide hmem
        obtain ⟨-, hsecond⟩ := h.offsetAt_wide hys hmem
        rw [offsetAt_next hxs hcond, hflag, hsecond]
        simp only [LayoutItem.width, Branch.width]
        rw [if_neg Bool.false_ne_true]
        split_ifs <;> omega
      · exact hat
    simp only [Nat.succ_eq_add_one] at hbehind
    omega
  · -- backward: the jump stands where the item stood or behind it
    have hspan := h.span_le hxs hys hrigid hwide hge (Nat.le_of_lt hk)
    have hmono := offsetAt_mono hxs hge (Nat.le_of_lt hk)
    have hjump : offsetAt (offsetsOf ys) (place widened k) ≤ offsetAt (offsetsOf ys) (jumpPlace widened k) := by
      unfold jumpPlace
      split_ifs with hmem
      · rw [(h.offsetAt_wide hys hmem).1]
        exact Nat.le_add_right _ _
      · exact Nat.le_refl _
    omega

include hxs hys in
/-- The step lemma: a round of the first layout makes nothing wide that is not wide when it is read again, if what
is read again is settled. -/
theorem staysWide_widen (hrigid : ∀ item ∈ items, item.isSwitch = false) (htargets : TargetsInside items)
    (hnear : ∀ {p t : Nat} {b : Branch Nat}, items'[p]? = some (.branch b) → isWideAt ys p = false →
      b.reachTarget? = some t → Reach.signed16.covers
        (distance (offsetsOf ys) (offsetAt (offsetsOf ys) p) t) = true)
    (hwide : StaysWide widened items xs ys) : StaysWide widened items (widen .signed16 xs) ys := by
  intro k hk hflag
  rw [isWideAt_widen hxs (List.getElem?_eq_getElem hk), Bool.or_eq_true] at hflag
  by_cases hbefore : isWideAt xs k = true
  · exact hwide k hk hbefore
  have hfar := hflag.resolve_left hbefore
  by_contra hnarrow
  cases hitem : items[k] with
  | encoded bytes =>
    rw [hitem] at hfar
    cases hfar
  | branch b =>
    have hget : items[k]? = some (.branch b) := by rw [List.getElem?_eq_getElem hk, hitem]
    rw [hitem] at hfar
    unfold isFar at hfar
    cases ht : b.reachTarget? with
    | none =>
      simp only [ht] at hfar
      cases hfar
    | some t =>
      simp only [ht, Bool.not_eq_true'] at hfar
      -- if the jump reached the target narrow, so would the item here
      obtain ⟨b', hjump, ht'⟩ := h.exists_jump hget ht
      have hcovers := h.covers_of_jump hxs hys hrigid hwide hk (Bool.eq_false_iff.mpr hbefore)
        (htargets hget ht) (hnear hjump (Bool.eq_false_iff.mpr hnarrow) ht')
      rw [hcovers] at hfar
      cases hfar

/-! ## Rounds of the second layout -/

/-- What is read again is no wider than it was, and of the parts of what was widened the first is narrow. -/
structure NoWider (widened : List Nat) (items : List LayoutItem) (xs ys : List (LayoutItem × Bool)) : Prop where
  narrow : ∀ {k}, k < items.length → k ∉ widened → isWideAt ys (place widened k) = true → isWideAt xs k = true
  wide : ∀ {k}, k ∈ widened → isWideAt ys (place widened k) = false ∧ isWideAt xs k = true

include hxs hys in
/-- Then spans between instructions have not become longer. -/
theorem span_ge (hrigid : ∀ item ∈ items, item.isSwitch = false) (hwide : NoWider widened items xs ys)
    {j k : Nat} (hjk : j ≤ k) (hk : k ≤ items.length) :
    offsetAt (offsetsOf ys) (place widened k) + offsetAt (offsetsOf xs) j ≤
      offsetAt (offsetsOf xs) k + offsetAt (offsetsOf ys) (place widened j) := by
  refine @span_le_of_steps (fun i => offsetAt (offsetsOf ys) (place widened i)) (offsetAt (offsetsOf xs))
    items.length (fun i hi => ?_) j k hjk hk
  have hitem := List.getElem?_eq_getElem hi
  by_cases hmem : i ∈ widened
  · obtain ⟨condition, target, hcond, -, -⟩ := h.wide hmem
    obtain ⟨hfirst, hsecond⟩ := h.offsetAt_wide hys hmem
    obtain ⟨hnegated, hflag⟩ := hwide.wide hmem
    rw [hsecond, hfirst, offsetAt_next hxs hcond, hnegated, hflag]
    simp only [LayoutItem.width, Branch.width, Bool.false_eq_true, if_true, if_false]
    split_ifs <;> omega
  · have hle := LayoutItem.width_le_width (hrigid _ (List.getElem_mem hi)) (hwide.narrow hi hmem)
      (offsetAt (offsetsOf ys) (place widened i)) (offsetAt (offsetsOf xs) i)
    rw [h.offsetAt_narrow hys hitem hmem, offsetAt_next hxs hitem]
    omega

theorem place_le_length {k : Nat} (hk : k ≤ items.length) : place widened k ≤ items'.length := by
  rw [h.length]
  exact place_le hk

include hxs hys in
/-- What reaches its target reaches it when it is read again. -/
theorem covers_place (hrigid : ∀ item ∈ items, item.isSwitch = false) (hwide : NoWider widened items xs ys)
    {k t : Nat} (hk : k < items.length) (ht : t ≤ items.length)
    (hcovers : Reach.signed16.covers (distance (offsetsOf xs) (offsetAt (offsetsOf xs) k) t) = true) :
    Reach.signed16.covers
      (distance (offsetsOf ys) (offsetAt (offsetsOf ys) (place widened k)) (place widened t)) = true := by
  rw [covers_signed16] at hcovers ⊢
  unfold distance at hcovers ⊢
  rcases Nat.le_total k t with hle | hge
  · have hspan := h.span_ge hxs hys hrigid hwide hle ht
    have hmono := offsetAt_mono hys (place_le hle) (h.place_le_length ht)
    omega
  · have hspan := h.span_ge hxs hys hrigid hwide hge (Nat.le_of_lt hk)
    have hmono := offsetAt_mono hys (place_le hge) (h.place_le_length (Nat.le_of_lt hk))
    omega

include hxs hys in
/-- The step lemma: a round of the second layout makes nothing wider than it was, if what was laid out is
settled. -/
theorem noWider_widen (hrigid : ∀ item ∈ items, item.isSwitch = false) (htargets : TargetsInside items)
    (hnear : ∀ {k t : Nat} {b : Branch Nat}, items[k]? = some (.branch b) → isWideAt xs k = false →
      b.reachTarget? = some t → Reach.signed16.covers
        (distance (offsetsOf xs) (offsetAt (offsetsOf xs) k) t) = true)
    (hwide : NoWider widened items xs ys) : NoWider widened items xs (widen .signed16 ys) where
  narrow := fun {k} hk hmem hflag => by
    have hget := List.getElem?_eq_getElem hk
    rw [isWideAt_widen hys (h.narrow hget hmem), Bool.or_eq_true] at hflag
    rcases hflag with hbefore | hfar
    · exact hwide.narrow hk hmem hbefore
    by_contra hnarrow
    cases hitem : items[k] with
    | encoded bytes =>
      rw [hitem] at hfar
      cases hfar
    | branch b =>
      rw [hitem] at hget hfar
      unfold isFar LayoutItem.mapTargets at hfar
      dsimp only at hfar
      rw [reachTarget?_mapTargets] at hfar
      cases ht : b.reachTarget? with
      | none =>
        simp only [ht, Option.map_none] at hfar
        cases hfar
      | some t =>
        simp only [ht, Option.map_some, Bool.not_eq_true'] at hfar
        have hcovers := h.covers_place hxs hys hrigid hwide hk (htargets hget ht)
          (hnear hget (Bool.eq_false_iff.mpr hnarrow) ht)
        rw [hcovers] at hfar
        cases hfar
  wide := fun {k} hmem => by
    obtain ⟨hnegated, hflag⟩ := hwide.wide hmem
    refine ⟨?_, hflag⟩
    obtain ⟨condition, target, -, hfirst, -⟩ := h.wide hmem
    -- the negated branch skips the jump and no more than that
    have hcovers : Reach.signed16.covers (distance (offsetsOf ys) (offsetAt (offsetsOf ys) (place widened k))
        (place widened k + 2)) = true := by
      obtain ⟨hat, hend⟩ := h.offsetAt_wide hys hmem
      rw [place_wide hmem] at hend
      rw [hnegated, if_neg Bool.false_ne_true] at hat
      rw [covers_signed16]
      unfold distance
      rw [hend, hat]
      split_ifs <;> omega
    rw [isWideAt_widen hys hfirst, hnegated, Bool.false_or]
    unfold isFar
    simp only [Branch.reachTarget?, hcovers, Bool.not_true]

end Respells

/-! ## Settled layouts -/

/-- Nothing is wide before the first round. -/
theorem isWideAt_start (items : List LayoutItem) (k : Nat) :
    isWideAt (items.map fun item => (item, false)) k = false := by
  unfold isWideAt
  rw [List.getElem?_map]
  cases items[k]? <;> rfl

/-- What is kept by every round of widening holds of the settled layout. -/
theorem settled_induction {P : List (LayoutItem × Bool) → Prop} {items : List LayoutItem}
    (hstart : P (items.map fun item => (item, false)))
    (hstep : ∀ xs : List (LayoutItem × Bool), xs.map Prod.fst = items → P xs → P (widen .signed16 xs)) :
    P (settled .signed16 items) := by
  obtain ⟨rounds, -, heq⟩ := @settle_eq_iterate .signed16 items.length (items.map fun item => (item, false))
  unfold settled
  rw [heq]
  clear heq
  induction rounds with
  | zero => exact hstart
  | succ rounds ih =>
    rw [Function.iterate_succ_apply']
    refine hstep _ ?_ ih
    rw [map_fst_iterate, List.map_map]
    exact List.map_id items

theorem mem_widened_iff {items : List LayoutItem} {k : Nat} {item : LayoutItem} (hk : items[k]? = some item)
    (hcond : item.isConditional = true) :
    k ∈ (ofItems items).widened ↔ isWideAt (settled .signed16 items) k = true := by
  have hget := getElem?_of_items (@map_fst_settled .signed16 items) hk
  rw [mem_widened]
  constructor
  · rintro ⟨_, hwide, -⟩
    exact congrArg Prod.snd (Option.some.inj (hget.symm.trans hwide))
  · intro hwide
    rw [hwide] at hget
    exact ⟨item, hget, hcond⟩

namespace Respells

variable {items items' : List LayoutItem} (h : Respells (ofItems items).widened items items')
  (hrigid : ∀ item ∈ items, item.isSwitch = false) (htargets : TargetsInside items)

include h hrigid htargets

/-- What is wide in a layout is wide when it is read again and laid out. -/
theorem staysWide : StaysWide (ofItems items).widened items (settled .signed16 items)
    (settled .signed16 items') :=
  settled_induction (P := fun xs => StaysWide (ofItems items).widened items xs (settled .signed16 items'))
    (fun k _ hwide => by
      rw [isWideAt_start] at hwide
      cases hwide)
    fun _ hxs hwide => h.staysWide_widen hxs (map_fst_settled items') hrigid htargets covers_of_isWideAt hwide

/-- Nothing else becomes wide. -/
theorem noWider : NoWider (ofItems items).widened items (settled .signed16 items)
    (settled .signed16 items') := by
  refine settled_induction (P := NoWider (ofItems items).widened items (settled .signed16 items))
    ⟨fun _ _ hwide => ?_, fun hmem => ?_⟩
    fun _ hys hwide => h.noWider_widen (map_fst_settled items) hys hrigid htargets covers_of_isWideAt hwide
  · rw [isWideAt_start] at hwide
    cases hwide
  · obtain ⟨_, _, hcond, -, -⟩ := h.wide hmem
    exact ⟨isWideAt_start items' _, (mem_widened_iff hcond rfl).mp hmem⟩

theorem isWideAt_place {k : Nat} (hk : k < items.length) (hnarrow : k ∉ (ofItems items).widened) :
    isWideAt (settled .signed16 items') (place (ofItems items).widened k) =
      isWideAt (settled .signed16 items) k := by
  have hstays := h.staysWide hrigid htargets k hk
  rw [jumpPlace, if_neg hnarrow, Nat.add_zero] at hstays
  exact Bool.eq_iff_iff.mpr ⟨(h.noWider hrigid htargets).narrow hk hnarrow, hstays⟩

/-- Of what was widened the negated branch is narrow, and the jump is wide. -/
theorem isWideAt_parts {k : Nat} (hwide : k ∈ (ofItems items).widened) :
    isWideAt (settled .signed16 items') (place (ofItems items).widened k) = false ∧
      isWideAt (settled .signed16 items') (place (ofItems items).widened k + 1) = true := by
  obtain ⟨hnegated, hflag⟩ := (h.noWider hrigid htargets).wide hwide
  have hstays := h.staysWide hrigid htargets k (h.lt_of_mem hwide) hflag
  rw [jumpPlace, if_pos hwide] at hstays
  exact ⟨hnegated, hstays⟩

/-- Instructions begin where they did. -/
theorem offset_place : ∀ {k : Nat}, k ≤ items.length →
    (ofItems items').offset (place (ofItems items).widened k) = (ofItems items).offset k
  | 0, _ => by
    rw [place_zero]
    exact (offsetAt_zero _).trans (offsetAt_zero _).symm
  | k + 1, hk => by
    have hys := @map_fst_settled .signed16 items'
    have ih : offsetAt (offsetsOf (settled .signed16 items')) (place (ofItems items).widened k) =
        offsetAt (offsetsOf (settled .signed16 items)) k := offset_place (Nat.le_of_succ_le hk)
    change offsetAt (offsetsOf (settled .signed16 items')) _ = offsetAt (offsetsOf (settled .signed16 items)) _
    by_cases hmem : k ∈ (ofItems items).widened
    · obtain ⟨condition, target, hcond, -, -⟩ := h.wide hmem
      obtain ⟨hfirst, hsecond⟩ := h.offsetAt_wide hys hmem
      obtain ⟨hnegated, hjump⟩ := h.isWideAt_parts hrigid htargets hmem
      rw [hsecond, hfirst, hnegated, hjump, ih, offsetAt_next (map_fst_settled items) hcond,
        (mem_widened_iff hcond rfl).mp hmem]
      rfl
    · have hitem := List.getElem?_eq_getElem hk
      rw [h.offsetAt_narrow hys hitem hmem, h.isWideAt_place hrigid htargets hk hmem, ih,
        offsetAt_next (map_fst_settled items) hitem]

/-- Nothing is widened that was read again. -/
theorem widened_eq_nil : (ofItems items').widened = [] := by
  refine List.eq_nil_iff_forall_not_mem.mpr fun p hp => ?_
  obtain ⟨item', hget', hcond⟩ := mem_widened.mp hp
  have hitem' := getElem?_settled hget'
  have hflag := (mem_widened_iff hitem' hcond).mp hp
  have hlt := (List.getElem?_eq_some_iff.mp hitem').1
  rw [h.length] at hlt
  obtain ⟨k, hk, rfl | ⟨hmem, rfl⟩⟩ := place_cases hlt
  · by_cases hmem : k ∈ (ofItems items).widened
    · rw [(h.isWideAt_parts hrigid htargets hmem).1] at hflag
      cases hflag
    · have hitem := List.getElem?_eq_getElem hk
      rw [h.isWideAt_place hrigid htargets hk hmem] at hflag
      obtain rfl : item' = _ := Option.some.inj (hitem'.symm.trans (h.narrow hitem hmem))
      rw [LayoutItem.isConditional_mapTargets] at hcond
      exact hmem ((mem_widened_iff hitem hcond).mpr hflag)
  · obtain ⟨_, _, -, -, hjump⟩ := h.wide hmem
    cases hitem'.symm.trans hjump
    cases hcond

end Respells

/-! ## Code -/

/-- There is nothing behind the end of the code. -/
theorem offset_eq_zero {items : List LayoutItem} {k : Nat} (hk : items.length < k) :
    (ofItems items).offset k = 0 := by
  have hlength : ∀ (offset : Nat) (xs : List (LayoutItem × Bool)), (offsetsFrom offset xs).length =
      xs.length + 1 := by
    intro offset xs
    induction xs generalizing offset with
    | nil => rfl
    | cons _ _ ih => exact congrArg Nat.succ (ih _)
  change ((offsetsOf (settled .signed16 items))[k]?).getD 0 = 0
  unfold offsetsOf
  rw [List.getElem?_toArray, List.getElem?_eq_none]
  · rfl
  · rw [hlength, length_settled]
    exact hk

/-- The bytes of an item. -/
def pieceAt (items : List LayoutItem) (position : Nat) : Bytes :=
  (items[position]?).elim [] fun item => item.encode (ofItems items).offsets ((ofItems items).offset position)
    (isWideAt (settled .signed16 items) position)

theorem code_eq_pieces (items : List LayoutItem) :
    (ofItems items).code = (List.range items.length).flatMap (pieceAt items) := by
  rw [code_eq, Lists.flatMap_zipIdx, length_settled]
  refine List.flatMap_congr fun k hk => ?_
  have hitem := List.getElem?_eq_getElem (List.mem_range.mp hk)
  unfold pieceAt
  rw [getElem?_of_items (map_fst_settled items) hitem, hitem]
  rfl

/-- Items that are laid out as the others were: each begins where it did, and their code is the same. -/
structure Relaid (items items' : List LayoutItem) : Prop where
  offset_eq : ∀ k, (ofItems items').offset (place (ofItems items).widened k) = (ofItems items).offset k
  code_eq : (ofItems items').code = (ofItems items).code
  widened_eq : (ofItems items').widened = []

namespace Respells

variable {items items' : List LayoutItem}

/-- The bytes of a wide branch are those of the negated branch, and then those of the jump. -/
theorem pieceAt_parts (h : Respells (ofItems items).widened items items')
    (hrigid : ∀ item ∈ items, item.isSwitch = false) (htargets : TargetsInside items)
    (hoffset : ∀ k, (ofItems items').offset (place (ofItems items).widened k) = (ofItems items).offset k)
    {k : Nat} (hwide : k ∈ (ofItems items).widened) :
    pieceAt items' (place (ofItems items).widened k) ++ pieceAt items' (place (ofItems items).widened k + 1) =
      pieceAt items k := by
  obtain ⟨condition, target, hcond, hnegated, hjump⟩ := h.wide hwide
  obtain ⟨hflag, hflag'⟩ := h.isWideAt_parts hrigid htargets hwide
  have hys := @map_fst_settled .signed16 items'
  have hat := hoffset k
  have hfirst : (ofItems items').offset (place (ofItems items).widened k + 1) =
      (ofItems items).offset k + 3 := by
    rw [← hat]
    have hparts := (h.offsetAt_wide hys hwide).1
    rwa [hflag, if_neg Bool.false_ne_true] at hparts
  have hskip : (ofItems items').offset (place (ofItems items).widened k + 2) =
      (ofItems items).offset k + 8 := by
    have hparts := (h.offsetAt_wide hys hwide).2
    rw [hflag', if_pos rfl, place_wide hwide] at hparts
    change (ofItems items').offset _ = (ofItems items').offset _ + 5 at hparts
    rw [hparts, hfirst]
  unfold pieceAt
  rw [hnegated, hjump, hcond, hflag, hflag', (mem_widened_iff hcond rfl).mp hwide, hfirst, hat]
  -- the test skips itself and the jump, three bytes and five
  have hshort : Branch.encodeShort (ofItems items').offsets ((ofItems items).offset k)
      (place (ofItems items).widened k + 2) = Bytes.ofInt16 8 := by
    have hdistance : distance (ofItems items').offsets ((ofItems items).offset k)
        (place (ofItems items).widened k + 2) = 8 := by
      change ((ofItems items').offset _ : Int) - _ = 8
      rw [hskip]
      omega
    unfold Branch.encodeShort
    rw [hdistance]
    rfl
  -- the jump is as far from the target as the wide form was behind its test
  have hlong : Branch.encodeLong (ofItems items').offsets ((ofItems items).offset k + 3)
      (place (ofItems items).widened target) =
        Branch.encodeLong (ofItems items).offsets ((ofItems items).offset k + 3) target := by
    unfold Branch.encodeLong distance
    rw [show offsetAt (ofItems items').offsets _ = _ from hoffset target]
    rfl
  simp only [Option.elim_some, LayoutItem.encode, Branch.encode, hshort, hlong]
  rfl

/-- Items that are read again are laid out as they were. -/
theorem relaid (h : Respells (ofItems items).widened items items')
    (hrigid : ∀ item ∈ items, item.isSwitch = false) (htargets : TargetsInside items) :
    Relaid items items' := by
  have hoffset : ∀ k, (ofItems items').offset (place (ofItems items).widened k) = (ofItems items).offset k := by
    intro k
    rcases Nat.lt_or_ge items.length k with hlt | hge
    · rw [offset_eq_zero hlt, offset_eq_zero]
      rw [h.length]
      exact place_lt hlt
    · exact h.offset_place hrigid htargets hge
  refine ⟨hoffset, ?_, h.widened_eq_nil hrigid htargets⟩
  rw [code_eq_pieces, code_eq_pieces, h.length]
  refine flatMap_place (fun k hk hmem => ?_) fun k _ hmem => h.pieceAt_parts hrigid htargets hoffset hmem
  have hitem := List.getElem?_eq_getElem hk
  unfold pieceAt
  rw [h.narrow hitem hmem, hitem, hoffset, h.isWideAt_place hrigid htargets hk hmem]
  exact LayoutItem.encode_mapTargets hoffset _ _ _

/-- Where nothing was widened, what is read again are the same items. -/
theorem relaid_of_nil (h : Respells (ofItems items).widened items items')
    (hnil : (ofItems items).widened = []) :
    Relaid items items' := by
  have hsame : items' = items := by
    have hplace : place (ofItems items).widened = id := by
      rw [hnil]
      exact funext place_nil
    have hlength := h.length
    rw [hplace] at hlength
    refine List.ext_getElem? fun k => ?_
    rcases Nat.lt_or_ge k items.length with hlt | hge
    · have hget := List.getElem?_eq_getElem hlt
      have hnarrow := h.narrow hget (by rw [hnil]; exact List.not_mem_nil)
      rw [hplace] at hnarrow
      rw [hget, show items'[k]? = _ from hnarrow]
      cases items[k] with
      | encoded bytes => rfl
      | branch b => exact congrArg (fun b => some (LayoutItem.branch b)) b.mapTargets_id
    · rw [List.getElem?_eq_none hge, List.getElem?_eq_none (hlength.le.trans hge)]
  subst hsame
  exact ⟨fun k => by rw [hnil, place_nil], rfl, hnil⟩

end Respells

/-- Code that is read again is laid out as it was, if nothing was widened or there are no switches in it. -/
theorem Encoding.relaid {items items' : List LayoutItem} {pool : Pool} {ops : List (CodeOp Nat)}
    (he : Encoding pool ops items) (h : Respells (ofItems items).widened items items')
    (htargets : ∀ op ∈ ops, ∀ t ∈ op.targets, t ≤ ops.length)
    (hrigid : (ofItems items).widened ≠ [] → ∀ op ∈ ops, op.isSwitch = false) : Relaid items items' := by
  by_cases hnil : (ofItems items).widened = []
  · exact h.relaid_of_nil hnil
  refine h.relaid (fun item hitem => ?_) fun {k t b} hb ht => ?_
  · -- an item is a switch if its instruction is
    obtain ⟨op, hop, hencoded⟩ := Lists.exists_mem_of_forall₂ he.flip hitem
    have hswitch := hrigid hnil op hop
    cases op with
    | plain instruction =>
      cases item with
      | encoded bytes => rfl
      | branch b => cases hencoded
    | branch b =>
      cases item with
      | encoded bytes => rfl
      | branch b' =>
        cases hencoded
        exact hswitch
  · obtain ⟨op, hop, hencoded⟩ := Lists.getElem?_of_forall₂ he.flip hb
    rw [← he.length_eq]
    cases op with
    | plain instruction => cases hencoded
    | branch b' =>
      cases hencoded
      refine htargets _ (List.mem_of_getElem? hop) t ?_
      cases b with
      | conditional _ _ | jump _ _ =>
        cases ht
        exact List.mem_singleton_self _
      | _ => cases ht

end Layout

end ClassWeave
