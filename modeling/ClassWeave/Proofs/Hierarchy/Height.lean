import ClassWeave.Analysis
import ClassWeave.Proofs.Hierarchy

/-!
# How far a type can rise

The height of a reference type counts the dimensions of an array and the chain of the class that is left. A join
that is not the type itself is strictly lower, also where the hierarchy has cycles, so a type that is merged
again and again changes only so often.
-/

namespace ClassWeave

namespace Hierarchy

variable {h : Hierarchy} {a b : BinaryName} {s t : RefType}

/-! ## Heights -/

/-- The steps that a class can take up its chain, and one to the root class. -/
def classHeight (h : Hierarchy) (name : BinaryName) : Nat :=
  if name = .object then 1 else 1 + (h.superclassChain name).length

/-- The height of what an array holds. -/
def leafHeight (h : Hierarchy) : ArrayLeaf → Nat
  | .base _ => 1
  | .object name => h.classHeight name

/-- The height of a reference type. -/
def height (h : Hierarchy) : RefType → Nat
  | .object name => h.classHeight name
  | .array inner leaf => inner + 1 + h.leafHeight leaf

theorem classHeight_object (h : Hierarchy) : h.classHeight .object = 1 := if_pos rfl

theorem one_lt_classHeight (hne : a ≠ .object) : 1 < h.classHeight a := by
  unfold classHeight
  rw [if_neg hne]
  have := List.length_pos_of_mem (mem_superclassChain.mpr (.refl : h.Extends a a))
  omega

theorem one_le_leafHeight (leaf : ArrayLeaf) : 1 ≤ h.leafHeight leaf := by
  cases leaf with
  | base type => exact Nat.le_refl 1
  | object name =>
    by_cases hobject : name = .object
    · rw [hobject]
      exact Nat.le_of_eq h.classHeight_object.symm
    · exact Nat.le_of_lt (one_lt_classHeight hobject)

theorem classHeight_le (h : Hierarchy) (a : BinaryName) : h.classHeight a ≤ h.classes.size + 2 := by
  have := h.length_superclassChain_le a
  unfold classHeight
  split_ifs <;> omega

theorem height_le (h : Hierarchy) (s : RefType) : h.height s ≤ h.classes.size + s.depth + 2 := by
  cases s with
  | object name =>
    have := h.classHeight_le name
    change h.classHeight name ≤ h.classes.size + 0 + 2
    omega
  | array inner leaf =>
    have hleaf : h.leafHeight leaf ≤ h.classes.size + 2 := by
      cases leaf with
      | base type => change 1 ≤ _; omega
      | object name => exact h.classHeight_le name
    change inner + 1 + h.leafHeight leaf ≤ h.classes.size + (inner + 1) + 2
    omega

/-! ## Joins are lower -/

/-- A common superclass other than the class itself is lower. -/
theorem classHeight_commonSuperclass (hr : h.Rooted) (hne : h.commonSuperclass a b ≠ a) :
    h.classHeight (h.commonSuperclass a b) < h.classHeight a := by
  have hroot : a ≠ .object := by
    rintro rfl
    rcases h.commonSuperclass_cases .object b with ⟨-, heq⟩ | heq | hfind
    · exact hne heq
    · exact hne heq
    · exact hne (hr.extends_object (extends_of_find? hfind).1)
  rcases h.commonSuperclass_cases a b with ⟨-, heq⟩ | heq | hfind
  · exact absurd heq hne
  · rw [heq, classHeight_object]
    exact one_lt_classHeight hroot
  · generalize h.commonSuperclass a b = c at hne hfind ⊢
    obtain ⟨hac, hbc⟩ := extends_of_find? hfind
    by_cases hobject : c = .object
    · rw [hobject, classHeight_object]
      exact one_lt_classHeight hroot
    -- in a cycle the class itself would have been the first on its chain that the other extends
    have hca : ¬ h.Extends c a := by
      intro hca
      have hmem : a ∈ h.superclassChain b := mem_superclassChain.mpr (hbc.trans hca)
      obtain ⟨rest, hrest⟩ : ∃ rest, h.superclassChain a = a :: rest := h.superclassChain_head a
      rw [hrest, List.find?_cons, decide_eq_true hmem] at hfind
      cases hfind
      exact hne rfl
    unfold classHeight
    rw [if_neg hobject, if_neg hroot]
    have := length_superclassChain_lt hac hca
    omega

theorem height_arrayOf (h : Hierarchy) (s : RefType) : h.height (.arrayOf (.ref s)) = h.height s + 1 := by
  cases s with
  | object name =>
    change 0 + 1 + h.classHeight name = h.classHeight name + 1
    omega
  | array inner leaf =>
    change inner + 1 + 1 + h.leafHeight leaf = inner + 1 + h.leafHeight leaf + 1
    omega

theorem depth_arrayOf (s : RefType) : (RefType.arrayOf (.ref s)).depth = s.depth + 1 := by
  cases s <;> rfl

theorem height_joinLeaves (hr : h.Rooted) {x y : ArrayLeaf} (hne : h.joinLeaves x y ≠ .array 0 x) :
    h.height (h.joinLeaves x y) < h.height (.array 0 x) := by
  -- leaves that differ in kind are joined to the root
  have hroot : h.height (.object .object) < h.height (.array 0 x) := by
    have := @one_le_leafHeight h x
    change h.classHeight .object < 0 + 1 + h.leafHeight x
    rw [classHeight_object]
    omega
  cases x with
  | base s =>
    cases y with
    | base t =>
      unfold joinLeaves at hne ⊢
      dsimp only at hne ⊢
      split_ifs at hne ⊢
      · exact absurd rfl hne
      · exact hroot
    | object name => exact hroot
  | object a =>
    cases y with
    | base t => exact hroot
    | object b =>
      have hne' : h.commonSuperclass a b ≠ a := by
        intro heq
        apply hne
        change RefType.array 0 (.object (h.commonSuperclass a b)) = _
        rw [heq]
      have := classHeight_commonSuperclass hr hne'
      change 0 + 1 + h.classHeight (h.commonSuperclass a b) < 0 + 1 + h.classHeight a
      omega

theorem height_joinArrays (hr : h.Rooted) : ∀ {m n : Nat} {x y : ArrayLeaf}, h.joinArrays m n x y ≠ .array m x →
    h.height (h.joinArrays m n x y) < h.height (.array m x)
  | m + 1, n + 1, x, y, hne => by
    have hne' : h.joinArrays m n x y ≠ .array m x := by
      intro heq
      apply hne
      change RefType.arrayOf (.ref (h.joinArrays m n x y)) = _
      rw [heq]
      rfl
    have ih := height_joinArrays hr hne'
    change h.height (.arrayOf (.ref (h.joinArrays m n x y))) < h.height (.arrayOf (.ref (.array m x)))
    rw [height_arrayOf, height_arrayOf]
    omega
  | 0, 0, _, _, hne => height_joinLeaves hr hne
  -- arrays of different dimensions meet in the root class, or in arrays of it
  | 0, n + 1, x, y, hne => by
    cases x with
    | base s =>
      change h.classHeight .object < 0 + 1 + 1
      rw [classHeight_object]
      omega
    | object a =>
      have hobject : a ≠ .object := by
        rintro rfl
        exact hne rfl
      have := @one_lt_classHeight h _ hobject
      change 0 + 1 + h.classHeight .object < 0 + 1 + h.classHeight a
      rw [classHeight_object]
      omega
  | m + 1, 0, x, y, hne => by
    have := @one_le_leafHeight h x
    cases y with
    | base s =>
      change h.classHeight .object < m + 1 + 1 + h.leafHeight x
      rw [classHeight_object]
      omega
    | object a =>
      change 0 + 1 + h.classHeight .object < m + 1 + 1 + h.leafHeight x
      rw [classHeight_object]
      omega

/-- A join that is not the type itself is lower. -/
theorem height_join (hr : h.Rooted) (hne : h.join s t ≠ s) : h.height (h.join s t) < h.height s := by
  cases s with
  | object a =>
    cases t with
    | object b =>
      refine classHeight_commonSuperclass hr fun heq => hne ?_
      change RefType.object (h.commonSuperclass a b) = _
      rw [heq]
    | array n y =>
      -- the join is the root, so the class is not
      have hobject : a ≠ .object := by
        rintro rfl
        exact hne rfl
      have := @one_lt_classHeight h _ hobject
      change h.classHeight .object < h.classHeight a
      rw [classHeight_object]
      omega
  | array m x =>
    cases t with
    | object b =>
      have := @one_le_leafHeight h x
      change h.classHeight .object < m + 1 + h.leafHeight x
      rw [classHeight_object]
      omega
    | array n y => exact height_joinArrays hr hne

/-! ## Joins are no deeper -/

theorem depth_joinArrays (h : Hierarchy) : ∀ (m n : Nat) (x y : ArrayLeaf), (h.joinArrays m n x y).depth ≤ m + 1
  | m + 1, n + 1, x, y => by
    have ih := depth_joinArrays h m n x y
    change (RefType.arrayOf (.ref (h.joinArrays m n x y))).depth ≤ _
    rw [depth_arrayOf]
    omega
  -- the leaves may still become an object
  | 0, 0, x, y => by
    change (h.joinLeaves x y).depth ≤ 1
    unfold joinLeaves
    split
    · exact Nat.le_refl 1
    · split_ifs
      · exact Nat.le_refl 1
      · exact Nat.zero_le 1
    · exact Nat.zero_le 1
  | 0, n + 1, x, y => by
    cases x with
    | base s => exact Nat.zero_le 1
    | object a => exact Nat.le_refl 1
  | m + 1, 0, x, y => by
    cases y with
    | base s => exact Nat.zero_le _
    | object a => exact Nat.succ_le_succ (Nat.zero_le _)

/-- A join has no more dimensions than the type itself. -/
theorem depth_join_le (h : Hierarchy) (s t : RefType) : (h.join s t).depth ≤ s.depth := by
  cases s with
  | object a => cases t <;> exact Nat.le_refl 0
  | array m x =>
    cases t with
    | object b => exact Nat.zero_le _
    | array n y => exact h.depth_joinArrays m n x y

end Hierarchy

end ClassWeave
