import ClassWeave.Proofs.Method.Readable

/-!
# Short bodies

In code of less than 32 KiB every branch reaches its target, so nothing is widened
(`Layout.widened_eq_nil_of_short`). A body that takes no more bytes than that has nothing that cannot be counted
(`MethodCode.Stored.rereadable_of_short`).
-/

namespace ClassWeave

/-! ## Offsets of narrow items -/

namespace Layout

/-- What follows a switch does not begin earlier if the switch begins later. -/
theorem switchPadding_le {offset offset' : Nat} (h : offset ≤ offset') :
    offset + 1 + switchPadding offset ≤ offset' + 1 + switchPadding offset' := by
  unfold switchPadding
  omega

/-- An item ends no earlier if it begins later or becomes wide. -/
theorem width_le {offset offset' : Nat} {wide wide' : Bool} (h : offset ≤ offset')
    (hwide : wide = true → wide' = true) (item : LayoutItem) :
    offset + item.width offset wide ≤ offset' + item.width offset' wide' := by
  have hswitch := switchPadding_le h
  cases item with
  | encoded bytes => exact Nat.add_le_add_right h _
  | branch b =>
    cases b with
    | conditional _ _ | jump _ _ =>
      simp only [LayoutItem.width, Branch.width]
      split_ifs with hw hw'
      · omega
      · exact absurd (hwide hw) hw'
      · omega
      · omega
    | tableSwitch _ _ _ | lookupSwitch _ _ =>
      simp only [LayoutItem.width, Branch.width]
      omega
    | _ => exact Nat.add_le_add_right h _

/-- Offsets are no larger if fewer items are wide. -/
theorem offsetsFrom_le {xs ys : List (LayoutItem × Bool)}
    (h : List.Forall₂ (fun x y => x.1 = y.1 ∧ (x.2 = true → y.2 = true)) xs ys) : ∀ {offset offset' : Nat},
      offset ≤ offset' → List.Forall₂ (· ≤ ·) (offsetsFrom offset xs) (offsetsFrom offset' ys) := by
  induction h with
  | nil => exact fun hle => .cons hle .nil
  | @cons x y _ _ hfirst _ ih =>
    obtain ⟨item, wide⟩ := x
    obtain ⟨_, wide'⟩ := y
    obtain ⟨rfl, hwide⟩ := hfirst
    exact fun hle => .cons hle (ih (width_le hle hwide item))

theorem length_offsetsFrom : ∀ (offset : Nat) (xs : List (LayoutItem × Bool)),
    (offsetsFrom offset xs).length = xs.length + 1
  | _, [] => rfl
  | _, _ :: xs => congrArg Nat.succ (length_offsetsFrom _ xs)

variable {items : List LayoutItem}

/-- All positions are inside the code or at its end. -/
theorem offset_le_length {k : Nat} (hk : k ≤ items.length) :
    (ofItems items).offset k ≤ (ofItems items).code.length := by
  rw [← offset_length]
  induction hk using Nat.decreasingInduction with
  | self => exact Nat.le_refl _
  | of_succ j hj ih =>
    obtain ⟨wide, hget⟩ := exists_settled (List.getElem?_eq_getElem hj)
    rw [offset_succ hget] at ih
    exact Nat.le_trans (Nat.le_add_right _ _) ih

/-- The items before any of them is wide. -/
def narrow (items : List LayoutItem) : List (LayoutItem × Bool) :=
  items.map fun item => (item, false)

/-- Where nothing is wide, no offset is larger than the code is long. -/
theorem offsetAt_narrow_le (k : Nat) : offsetAt (offsetsOf (narrow items)) k ≤ (ofItems items).code.length := by
  -- nothing is wide on the one side, so offsets on the other are not smaller
  have hless : List.Forall₂ (fun x y : LayoutItem × Bool => x.1 = y.1 ∧ (x.2 = true → y.2 = true))
      (narrow items) (settled Reach.signed16 items) := by
    refine List.forall₂_map_left_iff.mpr ?_
    rw [← @map_fst_settled Reach.signed16 items, List.forall₂_map_left_iff]
    rw [map_fst_settled]
    exact List.forall₂_same.mpr fun _ _ => ⟨rfl, fun h => absurd h Bool.false_ne_true⟩
  have hoffsets := offsetsFrom_le hless (Nat.le_refl 0)
  unfold offsetAt offsetsOf
  rw [List.getElem?_toArray]
  cases hk : (offsetsFrom 0 (narrow items))[k]? with
  | none => exact Nat.zero_le _
  | some offset =>
    obtain ⟨later, hlater, hle⟩ := Lists.getElem?_of_forall₂ hoffsets hk
    have hlt := (List.getElem?_eq_some_iff.mp hk).1
    rw [length_offsetsFrom, narrow, List.length_map] at hlt
    have hend := @offset_le_length items k (by omega)
    have hat : (ofItems items).offset k = later := by
      change ((offsetsFrom 0 (settled Reach.signed16 items)).toArray[k]?).getD 0 = later
      rw [List.getElem?_toArray, hlater]
      rfl
    exact Nat.le_trans hle (hat ▸ hend)

/-- In short code nothing is too far from its target while nothing is wide. -/
theorem isFar_narrow (hshort : (ofItems items).code.length < 2 ^ 15) (k : Nat) (item : LayoutItem) :
    isFar Reach.signed16 (offsetsOf (narrow items)) (offsetAt (offsetsOf (narrow items)) k) item = false := by
  unfold isFar
  cases item with
  | encoded bytes => rfl
  | branch b =>
    dsimp only
    cases b.reachTarget? with
    | none => rfl
    | some target =>
      -- both ends lie in code shorter than the reach of a branch
      have hfrom := @offsetAt_narrow_le items k
      have hto := @offsetAt_narrow_le items target
      have hlowest : (-32768 : Int) ≤ distance (offsetsOf (narrow items))
          (offsetAt (offsetsOf (narrow items)) k)
          target := by
        unfold distance
        omega
      have hhighest : distance (offsetsOf (narrow items)) (offsetAt (offsetsOf (narrow items)) k) target ≤
          32767 := by
        unfold distance
        omega
      dsimp only
      unfold Reach.covers Reach.signed16
      rw [decide_eq_true hlowest, decide_eq_true hhighest]
      rfl

/-- In short code nothing is widened. -/
theorem widened_eq_nil_of_short (hshort : (ofItems items).code.length < 2 ^ 15) :
    (ofItems items).widened = [] := by
  have hsame : widen Reach.signed16 (narrow items) = narrow items := by
    apply List.ext_getElem?
    intro k
    rw [getElem?_widen]
    cases hk : (narrow items)[k]? with
    | none => rfl
    | some entry => rw [Option.map_some, isFar_narrow hshort, Bool.or_false]
  by_contra hne
  obtain ⟨k, hk⟩ := List.exists_mem_of_ne_nil _ hne
  obtain ⟨rounds, item, -, hfar⟩ := wasFar_of_widened hk
  rw [show items.map (fun item => (item, false)) = narrow items from rfl,
    Function.iterate_fixed hsame rounds, isFar_narrow hshort] at hfar
  cases hfar

end Layout

/-! ## Bodies that can be counted -/

/-- A table has no more entries than bytes, if no entry takes none. -/
theorem Bytes.length_le_ofTable {α : Type} {encode : α → Bytes} (h : ∀ a, encode a ≠ []) (entries : List α) :
    entries.length ≤ (Bytes.ofTable encode entries).length := by
  have hflat : entries.length ≤ (entries.flatMap encode).length := by
    induction entries with
    | nil => exact Nat.le_refl 0
    | cons a rest ih =>
      have hpos := List.length_pos_iff.mpr (h a)
      rw [List.flatMap_cons, List.length_append, List.length_cons]
      omega
  unfold Bytes.ofTable
  rw [List.length_append]
  omega

theorem StackMapEntry.encodeDelta_ne_nil (base extended : UInt8) (delta : UInt16) :
    encodeDelta base extended delta ≠ [] := by
  unfold encodeDelta
  split_ifs <;> simp

theorem StackMapEntry.encode_ne_nil (entry : StackMapEntry) : entry.encode ≠ [] := by
  unfold encode
  cases entry.change with
  | same => exact encodeDelta_ne_nil _ _ _
  | sameStack type => exact List.append_ne_nil_of_left_ne_nil (encodeDelta_ne_nil _ _ _) _
  | _ => simp

theorem StoredTable.count_le_length (table : StoredTable) : table.count ≤ table.contents.length := by
  cases table with
  | frames entries => exact Bytes.length_le_ofTable StackMapEntry.encode_ne_nil entries
  | lines entries => exact Bytes.length_le_ofTable (fun _ => by simp [LineEntry.encode, Bytes.ofUInt16]) entries
  | locals entries | signatures entries =>
    exact Bytes.length_le_ofTable (fun _ => by simp [VariableEntry.encode, Bytes.ofUInt16]) entries

namespace CodeAttribute

variable {attr : CodeAttribute}

theorem length_code_le : attr.code.length ≤ attr.encode.length := by
  simp only [encode, List.length_append]
  omega

theorem length_handlers_le : attr.handlers.length ≤ attr.encode.length := by
  have hle := @Bytes.length_le_ofTable _ encodeHandler
    (fun _ => by simp [encodeHandler, Bytes.ofUInt16]) attr.handlers
  simp only [encode, List.length_append]
  omega

theorem length_info_le {entry : Attribute UInt16} (h : entry ∈ attr.attributes) :
    entry.info.length ≤ attr.encode.length := by
  have hentry : entry.info.length ≤ (attr.attributes.flatMap Attribute.encode).length := by
    rw [List.length_flatMap]
    refine Nat.le_trans ?_ (List.single_le_sum (fun _ _ => Nat.zero_le _) _ (List.mem_map_of_mem h))
    simp only [Attribute.encode, List.length_append]
    omega
  simp only [encode, Bytes.ofTable, List.length_append]
  omega

end CodeAttribute

/-- A body that takes less than 32 KiB has no more than its counts can say. -/
theorem MethodCode.Stored.rereadable_of_short {code : MethodCode} {context : MethodContext} {pool : Pool}
    {attr : CodeAttribute} {placed : MethodBody} {items : List LayoutItem} {entries : BodyEntries}
    (h : code.Stored context pool attr placed items entries) (hcode : attr.code = (Layout.ofItems items).code)
    (hshort : attr.encode.length < 2 ^ 15)
    (harrays : context.strict = true → ∀ element, .plain (.newRefArray element) ∈ code.ops →
      element.depth < maxDimensions) : code.Rereadable context attr placed items entries where
  handlers := by
    have := @CodeAttribute.length_handlers_le attr
    omega
  tables := fun table htable => by
    obtain ⟨entry, hentry, hstands⟩ := Lists.exists_mem_of_forall₂ h.attributes.flip htable
    have hinfo := CodeAttribute.length_info_le hentry
    have hcount := table.count_le_length
    rw [← hstands.info] at hcount
    omega
  arrays := harrays
  skipped := fun _ k hk => by
    have hlength := @CodeAttribute.length_code_le attr
    rw [hcode] at hlength
    rw [Layout.widened_eq_nil_of_short (by omega)] at hk
    cases hk

end ClassWeave
