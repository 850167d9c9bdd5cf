import ClassWeave.Proofs.Frame.Below
import Mathlib.Order.Lattice

/-!
# Merges are least upper bounds

In ordered hierarchies reference types are a semilattice, with `Hierarchy.Under` for its order and
`Hierarchy.join` for its join. The types of locals are one as well, where types without a merge meet in the
unusable type. So it does not matter in which order types are merged, or how often.
-/

namespace ClassWeave

namespace Hierarchy

variable {h : Hierarchy} {a b c : BinaryName} {r s t : RefType}

/-! ## Classes -/

/-- The common superclass of two different classes is on the chains of both, or it is the root class. -/
theorem mem_chains_commonSuperclass (hne : a ≠ b) (ha : h.isKnownInterface a = false)
    (hb : h.isKnownInterface b = false) :
    (h.commonSuperclass a b ∈ h.superclassChain a ∧ h.commonSuperclass a b ∈ h.superclassChain b) ∨
      h.commonSuperclass a b = .object := by
  rw [commonSuperclass_of_classes hne ha hb]
  cases hfind : (h.superclassChain a).find? fun x => decide (x ∈ h.superclassChain b) with
  | none => exact .inr rfl
  | some d =>
    obtain ⟨had, hbd⟩ := extends_of_find? hfind
    exact .inl ⟨mem_superclassChain.mpr had, mem_superclassChain.mpr hbd⟩

/-- No class on both chains is more specific than the common superclass. -/
theorem mem_chain_of_commonSuperclass (hne : a ≠ b) (ha : h.isKnownInterface a = false)
    (hb : h.isKnownInterface b = false) (hca : c ∈ h.superclassChain a) (hcb : c ∈ h.superclassChain b) :
    c ∈ h.superclassChain (h.commonSuperclass a b) := by
  rw [commonSuperclass_of_classes hne ha hb]
  cases hfind : (h.superclassChain a).find? fun x => decide (x ∈ h.superclassChain b) with
  | none => exact absurd (decide_eq_true hcb) (List.find?_eq_none.mp hfind c hca)
  | some d =>
    exact mem_superclassChain.mpr
      (extends_of_first hfind (mem_superclassChain.mp hca) (mem_superclassChain.mp hcb))

/-! ## Reference types -/

/-- The reference types of an ordered hierarchy. -/
abbrev semilattice (hh : h.Ordered) : SemilatticeSup RefType where
  le := h.Under
  le_refl := .refl
  le_trans _ _ _ hrs hst := hrs.trans hh hst
  le_antisymm _ _ hst hts := hst.antisymm hh hts
  sup := h.join
  le_sup_left s t := (h.under_join s t).1
  le_sup_right s t := (h.under_join s t).2
  sup_le _ _ _ hrt hst := join_least hh hrt hst

/-- Exactly what two types are under, their join is under. -/
theorem join_under_iff (hh : h.Ordered) : h.Under (h.join r s) t ↔ h.Under r t ∧ h.Under s t :=
  letI := semilattice hh
  show r ⊔ s ≤ t ↔ r ≤ t ∧ s ≤ t from sup_le_iff

theorem commutative_join (hh : h.Ordered) : Std.Commutative h.join :=
  letI := semilattice hh
  inferInstanceAs (Std.Commutative fun s t : RefType => s ⊔ t)

theorem associative_join (hh : h.Ordered) : Std.Associative h.join :=
  letI := semilattice hh
  inferInstanceAs (Std.Associative fun s t : RefType => s ⊔ t)

theorem idempotent_join (h : Hierarchy) : Std.IdempotentOp h.join :=
  ⟨h.join_self⟩

end Hierarchy

/-! ## Types of locals -/

namespace VerificationType

variable {h : Hierarchy} {r s t : AnalysisType}

/-- The merge of two types that nothing is suggested for, and the unusable type if there is none. -/
def mergeOrTop (h : Hierarchy) (s t : AnalysisType) : AnalysisType :=
  (merge? h none s t).getD .top

/-- The type of a value that is `null`, an object or an array. -/
def IsReference (t : AnalysisType) : Prop :=
  t = .null ∨ ∃ type, t = .object type

/-- The types of locals in an ordered hierarchy. -/
abbrev semilattice (hh : h.Ordered) : SemilatticeSup AnalysisType where
  le := BelowTop h
  le_refl := .refl h
  le_trans _ _ _ hrs hst := hrs.trans hh hst
  le_antisymm _ _ hst hts := hst.antisymm hh hts
  sup := mergeOrTop h
  le_sup_left s t := (belowTop_merge? hh s t).1
  le_sup_right s t := (belowTop_merge? hh s t).2
  sup_le _ _ _ hrt hst := merge?_getD_least hh hrt hst

/-- Exactly what two types are below, their merge is below. -/
theorem mergeOrTop_belowTop_iff (hh : h.Ordered) :
    BelowTop h (mergeOrTop h r s) t ↔ BelowTop h r t ∧ BelowTop h s t :=
  letI := semilattice hh
  show r ⊔ s ≤ t ↔ r ≤ t ∧ s ≤ t from sup_le_iff

theorem commutative_mergeOrTop (hh : h.Ordered) : Std.Commutative (mergeOrTop h) :=
  letI := semilattice hh
  inferInstanceAs (Std.Commutative fun s t : AnalysisType => s ⊔ t)

theorem associative_mergeOrTop (hh : h.Ordered) : Std.Associative (mergeOrTop h) :=
  letI := semilattice hh
  inferInstanceAs (Std.Associative fun s t : AnalysisType => s ⊔ t)

theorem mergeOrTop_self (h : Hierarchy) (t : AnalysisType) : mergeOrTop h t t = t := by
  simp [mergeOrTop, merge?]

theorem idempotent_mergeOrTop (h : Hierarchy) : Std.IdempotentOp (mergeOrTop h) :=
  ⟨mergeOrTop_self h⟩

/-- Merging with `null` leaves a reference as it is. -/
theorem mergeOrTop_null (h : Hierarchy) (ht : t.IsReference) : mergeOrTop h .null t = t := by
  rcases ht with rfl | ⟨type, rfl⟩
  · exact mergeOrTop_self h _
  · rfl

theorem mergeOrTop_objects (h : Hierarchy) (s t : RefType) :
    mergeOrTop h (.object s) (.object t) = .object (h.join s t) := by
  by_cases heq : s = t
  · rw [heq, mergeOrTop_self, h.join_self]
  · simp [mergeOrTop, merge?, heq]

/-- Merging with the root class leaves nothing else of a reference. -/
theorem mergeOrTop_root (hh : h.Ordered) (ht : t.IsReference) :
    mergeOrTop h (.object (.object .object)) t = .object (.object .object) := by
  rcases ht with rfl | ⟨type, rfl⟩
  · rfl
  · rw [mergeOrTop_objects, (h.join_object hh type).1]

end VerificationType

open VerificationType (BelowTop mergeOrTop)

/-! ## The laws of merges -/

/-- In regular hierarchies two different classes have the most specific class on both of their chains in common,
or the root class. Joins of reference types and merges of types are least upper bounds: they do not depend on
the order of the types or on repetitions, the root class absorbs all references, and `null` changes none. -/
theorem Hierarchy.merges_least {h : Hierarchy} (hh : h.Regular) :
    (∀ {a b}, a ≠ b → h.isKnownInterface a = false → h.isKnownInterface b = false →
      ((h.commonSuperclass a b ∈ h.superclassChain a ∧ h.commonSuperclass a b ∈ h.superclassChain b) ∨
        h.commonSuperclass a b = .object) ∧
      ∀ c ∈ h.superclassChain a, c ∈ h.superclassChain b → c ∈ h.superclassChain (h.commonSuperclass a b)) ∧
    (∀ {a b}, a ≠ b → h.isKnownInterface a = true ∨ h.isKnownInterface b = true →
      h.commonSuperclass a b = .object) ∧
    ((∀ r s t, h.Under (h.join r s) t ↔ h.Under r t ∧ h.Under s t) ∧
      Std.Commutative h.join ∧ Std.Associative h.join ∧ Std.IdempotentOp h.join ∧
      ∀ s, h.join (.object .object) s = .object .object ∧ h.join s (.object .object) = .object .object) ∧
    (∀ r s t, BelowTop h (mergeOrTop h r s) t ↔ BelowTop h r t ∧ BelowTop h s t) ∧
      Std.Commutative (mergeOrTop h) ∧ Std.Associative (mergeOrTop h) ∧ Std.IdempotentOp (mergeOrTop h) ∧
      ∀ t : AnalysisType, t.IsReference →
        (mergeOrTop h (.object (.object .object)) t = .object (.object .object) ∧
          mergeOrTop h t (.object (.object .object)) = .object (.object .object)) ∧
        mergeOrTop h .null t = t ∧ mergeOrTop h t .null = t := by
  have hcomm := VerificationType.commutative_mergeOrTop (h := h) hh
  refine ⟨fun hne ha hb => ⟨mem_chains_commonSuperclass hne ha hb,
    fun c => mem_chain_of_commonSuperclass hne ha hb⟩, commonSuperclass_of_interface,
    ⟨fun r s t => join_under_iff hh, commutative_join hh, associative_join hh,
    idempotent_join h, join_object hh⟩, fun r s t => VerificationType.mergeOrTop_belowTop_iff hh, hcomm,
    VerificationType.associative_mergeOrTop hh, VerificationType.idempotent_mergeOrTop h, fun t ht => ?_⟩
  -- the root and `null` on the one side, and on the other since merging commutes
  have hroot := VerificationType.mergeOrTop_root (h := h) hh ht
  have hnull := VerificationType.mergeOrTop_null h ht
  exact ⟨⟨hroot, (hcomm.comm _ _).trans hroot⟩, hnull, (hcomm.comm _ _).trans hnull⟩

/-! ## A hierarchy with an interface and an unknown class -/

namespace Hierarchy

theorem superclass?_add (h : Hierarchy) (info : ClassInfo) (a : BinaryName) : (h.add info).superclass? a =
    if info.name = a ∧ h.get? info.name = none then info.superclass else h.superclass? a := by
  unfold superclass?
  rw [get?_add]
  split_ifs <;> rfl

theorem isKnownInterface_add (h : Hierarchy) (info : ClassInfo) (a : BinaryName) :
    (h.add info).isKnownInterface a = if info.name = a ∧ h.get? info.name = none then info.isInterface else
    h.isKnownInterface a := by
  unfold isKnownInterface
  rw [get?_add]
  split_ifs <;> rfl

/-- A class that no other extends can be added below another class. -/
theorem Regular.add {h : Hierarchy} (hh : h.Regular) {info : ClassInfo} (hname : info.name ≠ .object)
    (hself : info.superclass ≠ some info.name) (hnew : h.get? info.name = none)
    (hleaf : ∀ a, h.superclass? a ≠ some info.name)
    (hsuper : ∀ b, info.superclass = some b → h.isKnownInterface b = false) : (h.add info).Regular := by
  have hne : ∀ {a b}, (h.add info).superclass? a = some b → info.name ≠ b := by
    rintro a b hb rfl
    rw [superclass?_add] at hb
    split_ifs at hb
    · exact hself hb
    · exact hleaf a hb
  -- steps from other classes are those there were
  have hold : ∀ {a b}, (h.add info).superclass? a = some b → info.name ≠ a → h.superclass? a = some b := by
    intro a b hb ha
    rwa [superclass?_add, if_neg fun hboth => ha hboth.1] at hb
  have hobject : ¬ (info.name = .object ∧ h.get? info.name = none) := fun hboth => hname hboth.1
  refine ⟨fun a hcycle => hh.acyclic a ?_, ?_, ?_, fun {a b} hb => ?_⟩
  · -- the new class is never arrived at, so that a cycle is one of the old hierarchy
    have hsteps : ∀ {x y}, Relation.TransGen (fun x y => (h.add info).superclass? x = some y) x y →
        info.name ≠ x → Relation.TransGen (fun x y => h.superclass? x = some y) x y ∧ info.name ≠ y := by
      intro x y hxy hx
      induction hxy with
      | single hstep => exact ⟨.single (hold hstep hx), hne hstep⟩
      | tail _ hstep ih => exact ⟨ih.1.tail (hold hstep ih.2), hne hstep⟩
    obtain ⟨b, -, hba⟩ := Relation.TransGen.tail'_iff.mp hcycle
    exact (hsteps hcycle (hne hba)).1
  · show (h.add info).superclass? .object = none
    rw [superclass?_add, if_neg hobject]
    exact hh.rooted
  · rw [isKnownInterface_add, if_neg hobject]
    exact hh.rootClass
  · rw [isKnownInterface_add, if_neg fun hboth => hne hb hboth.1]
    by_cases ha : info.name = a
    · rw [superclass?_add, if_pos ⟨ha, hnew⟩] at hb
      exact hsuper b hb
    · exact hh.superclasses (hold hb ha)

theorem regular_empty : empty.Regular := by
  refine ⟨ordered_empty.acyclic, rooted_empty, ?_, ordered_empty.superclasses⟩
  unfold isKnownInterface
  rw [get?_empty]
  rfl

/-- An interface, and a class that extends another, whose own superclass is not known. -/
def partialHierarchy : Hierarchy :=
  ((empty.add ⟨⟨"I", Eq.refl true⟩, some .object, [], true⟩).add
    ⟨⟨"A", Eq.refl true⟩, some ⟨"M", Eq.refl true⟩, [], false⟩).add
    ⟨⟨"B", Eq.refl true⟩, some ⟨"A", Eq.refl true⟩, [], false⟩

theorem regular_partialHierarchy : partialHierarchy.Regular := by
  refine Regular.add (Regular.add (Regular.add regular_empty ?_ ?_ ?_ ?_ ?_) ?_ ?_ ?_ ?_ ?_) ?_ ?_ ?_ ?_ ?_
  all_goals simp [superclass?, get?_add, isKnownInterface]
  case refine_9 | refine_14 =>
    intro a
    split_ifs <;> decide
  all_goals decide

/-- Two classes whose common superclass is not known, and the interface. -/
theorem merges_least_partial : partialHierarchy.Regular ∧
    (⟨"M", Eq.refl true⟩ : BinaryName) ∈ partialHierarchy.superclassChain
      (partialHierarchy.commonSuperclass ⟨"A", Eq.refl true⟩ ⟨"B", Eq.refl true⟩) ∧
    partialHierarchy.commonSuperclass ⟨"B", Eq.refl true⟩ ⟨"I", Eq.refl true⟩ = .object ∧
    mergeOrTop partialHierarchy .null (.object (.array 1 (.object ⟨"B", Eq.refl true⟩))) =
      .object (.array 1 (.object ⟨"B", Eq.refl true⟩)) := by
  obtain ⟨hclasses, hinterfaces, -, -, -, -, -, hreferences⟩ := merges_least regular_partialHierarchy
  refine ⟨regular_partialHierarchy, (hclasses (by decide) ?_ ?_).2 _ ?_ ?_, hinterfaces (by decide) (.inr ?_),
    (hreferences _ (.inr ⟨_, rfl⟩)).2.1⟩
  · simp only [partialHierarchy, isKnownInterface, get?_add, get?_empty]
    decide
  · simp only [partialHierarchy, isKnownInterface, get?_add, get?_empty]
    decide
  · -- `A` is just below `M`, and `B` below `A`
    refine mem_superclassChain.mpr (.single ?_)
    simp only [partialHierarchy, superclass?, get?_add, get?_empty]
    decide
  · refine mem_superclassChain.mpr (.tail (.single (b := ⟨"A", Eq.refl true⟩) ?_) ?_)
    · simp only [partialHierarchy, superclass?, get?_add, get?_empty]
      decide
    · simp only [partialHierarchy, superclass?, get?_add, get?_empty]
      decide
  · simp only [partialHierarchy, isKnownInterface, get?_add, get?_empty]
    decide

end Hierarchy

end ClassWeave
