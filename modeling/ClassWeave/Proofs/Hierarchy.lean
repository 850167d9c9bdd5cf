import ClassWeave.Hierarchy
import Mathlib.Data.List.Nodup
import Mathlib.Data.List.Perm.Subperm
import Mathlib.Logic.Relation

/-!
# The order of reference types

A class is below those it extends, everything is below the root class, and arrays are below arrays of what their
elements are below (`Hierarchy.Below`). The chain of a class lists exactly what it extends, cycles and missing
classes included, and the join of two types lies above both.
-/

namespace ClassWeave

namespace Hierarchy

variable {h : Hierarchy} {a b c : BinaryName}

/-! ## Superclasses -/

/-- One class is another or extends it, in any number of steps. -/
def Extends (h : Hierarchy) : BinaryName → BinaryName → Prop :=
  Relation.ReflTransGen fun x y => h.superclass? x = some y

/-- The root class extends nothing. -/
def Rooted (h : Hierarchy) : Prop :=
  h.superclass? .object = none

@[simp]
theorem get?_empty (a : BinaryName) : empty.get? a = none := by
  unfold get? empty
  exact Std.HashMap.getElem?_empty

/-- What was added under a name first is found. -/
theorem get?_add (h : Hierarchy) (info : ClassInfo) (a : BinaryName) :
    (h.add info).get? a = if info.name = a ∧ h.get? info.name = none then some info else h.get? a := by
  have hmem : info.name ∉ h.classes ↔ h.classes[info.name]? = none := by
    rw [Std.HashMap.mem_iff_isSome_getElem?, Option.not_isSome_iff_eq_none]
  unfold get? add
  rw [Std.HashMap.getElem?_insertIfNew]
  simp only [beq_iff_eq, hmem]

theorem rooted_empty : empty.Rooted := by
  unfold Rooted superclass?
  rw [get?_empty]
  rfl

/-- A class can be added, unless it gives the root class a superclass. -/
theorem rooted_add (hr : h.Rooted) {info : ClassInfo} (hinfo : info.name = .object → info.superclass = none) :
    (h.add info).Rooted := by
  unfold Rooted superclass? at hr ⊢
  rw [get?_add]
  split_ifs with hnew
  · exact hinfo hnew.1
  · exact hr

/-- The root class is known to extend nothing. -/
def KnowsRoot (h : Hierarchy) : Prop :=
  ∃ info, h.get? .object = some info ∧ info.superclass = none

theorem KnowsRoot.rooted (hr : h.KnowsRoot) : h.Rooted := by
  obtain ⟨info, hinfo, hnone⟩ := hr
  unfold Rooted superclass?
  rw [hinfo]
  exact hnone

/-- Whatever is added, what is known of the root class stays. -/
theorem KnowsRoot.add (hr : h.KnowsRoot) (info : ClassInfo) : (h.add info).KnowsRoot := by
  obtain ⟨root, hroot, hnone⟩ := hr
  refine ⟨root, ?_, hnone⟩
  rw [get?_add, if_neg]
  · exact hroot
  · rintro ⟨hname, hnew⟩
    rw [hname, hroot] at hnew
    cases hnew

theorem knowsRoot_foldl {α : Type} {step : Hierarchy → α → Hierarchy}
    (hstep : ∀ h a, h.KnowsRoot → (step h a).KnowsRoot) : ∀ (xs : List α) {start : Hierarchy}, start.KnowsRoot →
      (xs.foldl step start).KnowsRoot
  | [], _, hr => hr
  | x :: xs, start, hr => knowsRoot_foldl hstep xs (hstep start x hr)

theorem Rooted.extends_object (hr : h.Rooted) (hb : h.Extends .object b) : b = .object := by
  rcases Relation.ReflTransGen.cases_head hb with heq | ⟨x, hx, -⟩
  · exact heq.symm
  · unfold Rooted at hr
    rw [hr] at hx
    cases hx

/-- A class with a superclass is known. -/
theorem mem_classes_of_superclass? (ha : h.superclass? a = some b) : a ∈ h.classes := by
  by_contra hn
  unfold superclass? get? at ha
  rw [Std.HashMap.getElem?_eq_none hn] at ha
  cases ha

/-- A chain on its way: distinct classes that `start` extends, each with its superclass but for the last. -/
structure Chain (h : Hierarchy) (start : BinaryName) (chain : List BinaryName) (last : BinaryName) : Prop where
  nodup : chain.Nodup
  start_mem : start ∈ chain
  last_mem : last ∈ chain
  extends' : ∀ x ∈ chain, h.Extends start x
  known : ∀ x ∈ chain, x ≠ last → x ∈ h.classes
  closed : ∀ x ∈ chain, x ≠ last → ∀ y, h.superclass? x = some y → y ∈ chain

theorem Chain.single (h : Hierarchy) (a : BinaryName) : h.Chain a [a] a where
  nodup := List.nodup_singleton a
  start_mem := List.mem_singleton_self a
  last_mem := List.mem_singleton_self a
  extends' := fun x hx => by
    rw [List.mem_singleton.mp hx]
    exact .refl
  known := fun x hx hne => absurd (List.mem_singleton.mp hx) hne
  closed := fun x hx hne => absurd (List.mem_singleton.mp hx) hne

theorem Chain.append {chain : List BinaryName} {last superclass : BinaryName} (hc : h.Chain a chain last)
    (hs : h.superclass? last = some superclass) (hnew : superclass ∉ chain) :
    h.Chain a (chain ++ [superclass]) superclass where
  nodup := List.nodup_append.mpr ⟨hc.nodup, List.nodup_singleton _, fun x hx y hy heq =>
    hnew (by rw [← List.mem_singleton.mp hy, ← heq]; exact hx)⟩
  start_mem := List.mem_append_left _ hc.start_mem
  last_mem := List.mem_append_right _ (List.mem_singleton_self _)
  extends' := fun x hx => by
    rcases List.mem_append.mp hx with hx | hx
    · exact hc.extends' x hx
    · rw [List.mem_singleton.mp hx]
      exact (hc.extends' last hc.last_mem).tail hs
  -- the last class of the chain is known now, since it has a superclass
  known := fun x hx hne => by
    rcases List.mem_append.mp hx with hx | hx
    · by_cases hlast : x = last
      · rw [hlast]
        exact mem_classes_of_superclass? hs
      · exact hc.known x hx hlast
    · exact absurd (List.mem_singleton.mp hx) hne
  closed := fun x hx hne y hy => by
    rcases List.mem_append.mp hx with hx | hx
    · by_cases hlast : x = last
      · rw [hlast, hs] at hy
        cases hy
        exact List.mem_append_right _ (List.mem_singleton_self _)
      · exact List.mem_append_left _ (hc.closed x hx hlast y hy)
    · exact absurd (List.mem_singleton.mp hx) hne

/-- Distinct known classes are no more than there are. -/
theorem length_le_size {xs : List BinaryName} (hn : xs.Nodup) (hk : ∀ x ∈ xs, x ∈ h.classes) :
    xs.length ≤ h.classes.size := by
  rw [← Std.HashMap.length_keys]
  exact (hn.subperm fun x hx => Std.HashMap.mem_keys.mpr (hk x hx)).length_le

/-- All that is known of a finished chain. -/
structure IsClosure (h : Hierarchy) (start : BinaryName) (chain : List BinaryName) : Prop where
  nodup : chain.Nodup
  mem_iff : ∀ x, x ∈ chain ↔ h.Extends start x

theorem Chain.isClosure {chain : List BinaryName} {last : BinaryName} (hc : h.Chain a chain last)
    (hlast : ∀ y, h.superclass? last = some y → y ∈ chain) : h.IsClosure a chain where
  nodup := hc.nodup
  mem_iff := fun x => by
    refine ⟨hc.extends' x, fun hx => ?_⟩
    induction hx with
    | refl => exact hc.start_mem
    | @tail y z _ hyz ih =>
      by_cases hy : y = last
      · exact hlast z (hy ▸ hyz)
      · exact hc.closed y ih hy z hyz

theorem isClosure_extendChain : ∀ {rounds : Nat} {chain : List BinaryName} {last : BinaryName},
    h.Chain a chain last → h.classes.size + 1 ≤ chain.length + rounds →
      h.IsClosure a (h.extendChain rounds chain last)
  | 0, chain, last, hc, hrounds => by
    refine hc.isClosure fun y hy => ?_
    -- were the superclass missing, the chain would list more classes than are known
    have hknown : ∀ x ∈ chain, x ∈ h.classes := by
      intro x hx
      by_cases hlast : x = last
      · rw [hlast]
        exact mem_classes_of_superclass? hy
      · exact hc.known x hx hlast
    have hle := length_le_size hc.nodup hknown
    omega
  | rounds + 1, chain, last, hc, hrounds => by
    unfold extendChain
    cases hs : h.superclass? last with
    | none => exact hc.isClosure fun y hy => by rw [hs] at hy; cases hy
    | some superclass =>
      dsimp only
      split_ifs with hmem
      · exact hc.isClosure fun y hy => by
          rw [hs] at hy
          cases hy
          exact hmem
      · refine isClosure_extendChain (hc.append hs hmem) ?_
        rw [List.length_append, List.length_singleton]
        omega

/-- The chain of a class lists what it extends, each class once. -/
theorem isClosure_superclassChain (h : Hierarchy) (a : BinaryName) : h.IsClosure a (h.superclassChain a) :=
  isClosure_extendChain (.single h a) (by rw [List.length_singleton]; omega)

theorem mem_superclassChain : b ∈ h.superclassChain a ↔ h.Extends a b :=
  (h.isClosure_superclassChain a).mem_iff b

theorem length_extendChain_le : ∀ (rounds : Nat) (chain : List BinaryName) (last : BinaryName),
    (h.extendChain rounds chain last).length ≤ chain.length + rounds
  | 0, _, _ => Nat.le_refl _
  | rounds + 1, chain, last => by
    unfold extendChain
    split
    · split_ifs
      · omega
      · have := length_extendChain_le rounds (chain ++ [‹_›]) ‹_›
        rw [List.length_append, List.length_singleton] at this
        omega
    · omega

theorem length_superclassChain_le (h : Hierarchy) (a : BinaryName) :
    (h.superclassChain a).length ≤ h.classes.size + 1 := by
  have := @length_extendChain_le h h.classes.size [a] a
  rw [List.length_singleton] at this
  unfold superclassChain
  omega

theorem extendChain_head : ∀ (rounds : Nat) (chain : List BinaryName) (last : BinaryName),
    (∃ rest, chain = a :: rest) → ∃ rest, h.extendChain rounds chain last = a :: rest
  | 0, _, _, hchain => hchain
  | rounds + 1, chain, last, hchain => by
    unfold extendChain
    split
    · split_ifs
      · exact hchain
      · refine extendChain_head rounds _ _ ?_
        obtain ⟨rest, rfl⟩ := hchain
        exact ⟨rest ++ _, rfl⟩
    · exact hchain

/-- The chain of a class starts with the class. -/
theorem superclassChain_head (h : Hierarchy) (a : BinaryName) : ∃ rest, h.superclassChain a = a :: rest :=
  extendChain_head _ _ _ ⟨[], rfl⟩

/-- What a class extends without being extended by it has a shorter chain. -/
theorem length_superclassChain_lt (hac : h.Extends a c) (hca : ¬ h.Extends c a) :
    (h.superclassChain c).length < (h.superclassChain a).length := by
  have hnodup : (a :: h.superclassChain c).Nodup :=
    List.nodup_cons.mpr ⟨fun hmem => hca (mem_superclassChain.mp hmem), (h.isClosure_superclassChain c).nodup⟩
  have hsub : a :: h.superclassChain c ⊆ h.superclassChain a := by
    intro x hx
    rcases List.mem_cons.mp hx with rfl | hx
    · exact mem_superclassChain.mpr .refl
    · exact mem_superclassChain.mpr (hac.trans (mem_superclassChain.mp hx))
  exact (hnodup.subperm hsub).length_le

/-! ## Common superclasses -/

/-- The common superclass of two different classes is the root class, or the first on the chain of one that the
other extends as well. -/
theorem commonSuperclass_cases (h : Hierarchy) (a b : BinaryName) :
    (a = b ∧ h.commonSuperclass a b = a) ∨ h.commonSuperclass a b = .object ∨
      (h.superclassChain a).find? (fun c => decide (c ∈ h.superclassChain b)) =
      some (h.commonSuperclass a b) := by
  unfold commonSuperclass
  split_ifs with heq hinterface
  · exact .inl ⟨heq, rfl⟩
  · exact .inr (.inl rfl)
  · dsimp only
    cases (h.superclassChain a).find? fun c => decide (c ∈ h.superclassChain b) with
    | none => exact .inr (.inl rfl)
    | some c => exact .inr (.inr rfl)

theorem extends_of_find? (hfind : (h.superclassChain a).find?
    (fun c => decide (c ∈ h.superclassChain b)) = some c) : h.Extends a c ∧ h.Extends b c :=
  ⟨mem_superclassChain.mp (List.mem_of_find?_eq_some hfind),
    mem_superclassChain.mp (by simpa using List.find?_some hfind)⟩

/-! ## Reference types -/

/-- A reference type is below another: the types are the same, the other is the root class, one class extends the
other, or both are arrays and so it is with their elements. -/
inductive Below (h : Hierarchy) : RefType → RefType → Prop where
  | refl (s : RefType) : Below h s s
  | root (s : RefType) : Below h s (.object .object)
  | classes {a b : BinaryName} : h.Extends a b → Below h (.object a) (.object b)
  | arrays {s t : RefType} : Below h s t → Below h (.arrayOf (.ref s)) (.arrayOf (.ref t))

variable {r s t : RefType}

theorem eq_arrayOf_of_element? {type : FieldType} (he : t.element? = some type) : t = .arrayOf type := by
  match t, he with
  | .array 0 (.base b), he => cases he; rfl
  | .array 0 (.object name), he => cases he; rfl
  | .array (inner + 1) leaf, he => cases he; rfl

/-- What is below an array of references is an array of references. -/
theorem Below.element? (hst : h.Below s t) {e : RefType} (he : t.element? = some (.ref e)) :
    ∃ d, s.element? = some (.ref d) ∧ h.Below d e := by
  cases hst with
  | refl => exact ⟨e, he, .refl e⟩
  | root => cases he
  | classes _ => cases he
  | @arrays s' t' hst' =>
    rw [RefType.element?_arrayOf] at he
    cases he
    exact ⟨s', RefType.element?_arrayOf _, hst'⟩

/-- What is below a class is the class, extends it, or finds it to be the root. -/
theorem Below.object_cases (hst : h.Below s (.object b)) :
    b = .object ∨ ∃ a, s = .object a ∧ h.Extends a b := by
  generalize ht : RefType.object b = t at hst
  cases hst with
  | refl => exact .inr ⟨b, ht.symm, .refl⟩
  | root => cases ht; exact .inl rfl
  | @classes a _ hab => cases ht; exact .inr ⟨a, rfl, hab⟩
  | @arrays s' t' _ =>
    have he := RefType.element?_arrayOf (.ref t')
    rw [← ht] at he
    cases he

/-- No class is an array. -/
theorem not_below_array {a : BinaryName} {inner : Nat} {leaf : ArrayLeaf} :
    ¬ h.Below (.object a) (.array inner leaf) := by
  intro hbelow
  generalize hs : RefType.object a = s at hbelow
  generalize ht : RefType.array inner leaf = t at hbelow
  cases hbelow with
  | refl => rw [← hs] at ht; cases ht
  | root => cases ht
  | classes _ => cases ht
  | @arrays s t _ =>
    cases s <;> cases hs

theorem Below.trans (hr : h.Rooted) (hrs : h.Below r s) (hst : h.Below s t) : h.Below r t := by
  induction hst generalizing r with
  | refl => exact hrs
  | root => exact .root r
  | @classes a b hab =>
    rcases hrs.object_cases with rfl | ⟨c, rfl, hca⟩
    · rw [hr.extends_object hab]
      exact .root r
    · exact .classes (hca.trans hab)
  | @arrays s' t' _ ih =>
    obtain ⟨d, hd, hds⟩ := hrs.element? (RefType.element?_arrayOf (.ref s'))
    rw [eq_arrayOf_of_element? hd]
    exact .arrays (ih hds)

/-! ## Joins -/

theorem below_commonSuperclass (h : Hierarchy) (a b : BinaryName) :
    h.Below (.object a) (.object (h.commonSuperclass a b)) ∧ h.Below (.object b)
    (.object (h.commonSuperclass a b)) := by
  rcases h.commonSuperclass_cases a b with ⟨rfl, heq⟩ | heq | hfind
  · rw [heq]
    exact ⟨.refl _, .refl _⟩
  · rw [heq]
    exact ⟨.root _, .root _⟩
  · obtain ⟨ha, hb⟩ := extends_of_find? hfind
    exact ⟨.classes ha, .classes hb⟩

theorem below_joinLeaves (h : Hierarchy) (a b : ArrayLeaf) :
    h.Below (.array 0 a) (h.joinLeaves a b) ∧ h.Below (.array 0 b) (h.joinLeaves a b) := by
  cases a with
  | base s =>
    cases b with
    | base t =>
      unfold joinLeaves
      dsimp only
      split_ifs with heq
      · rw [heq]
        exact ⟨.refl _, .refl _⟩
      · exact ⟨.root _, .root _⟩
    | object name => exact ⟨.root _, .root _⟩
  | object a =>
    cases b with
    | base t => exact ⟨.root _, .root _⟩
    | object b =>
      obtain ⟨ha, hb⟩ := h.below_commonSuperclass a b
      exact ⟨.arrays ha, .arrays hb⟩

/-- A flat array and an array of arrays are below the join of the two. -/
theorem below_joinLeafWithArray (a : ArrayLeaf) (inner : Nat) (leaf : ArrayLeaf) :
    h.Below (.array 0 a) (joinLeafWithArray a) ∧ h.Below (.array (inner + 1) leaf) (joinLeafWithArray a) := by
  cases a with
  | base s => exact ⟨.root _, .root _⟩
  | object name => exact ⟨.arrays (.root (.object name)), .arrays (.root (.array inner leaf))⟩

theorem below_joinArrays (h : Hierarchy) : ∀ (m n : Nat) (a b : ArrayLeaf),
    h.Below (.array m a) (h.joinArrays m n a b) ∧ h.Below (.array n b) (h.joinArrays m n a b)
  | m + 1, n + 1, a, b => by
    obtain ⟨ha, hb⟩ := below_joinArrays h m n a b
    exact ⟨.arrays ha, .arrays hb⟩
  | 0, 0, a, b => h.below_joinLeaves a b
  | 0, n + 1, a, b => below_joinLeafWithArray a n b
  | m + 1, 0, a, b => (below_joinLeafWithArray b m a).symm

/-- The join of two types lies above both. -/
theorem below_join (h : Hierarchy) (s t : RefType) : h.Below s (h.join s t) ∧ h.Below t (h.join s t) := by
  cases s with
  | object a =>
    cases t with
    | object b => exact h.below_commonSuperclass a b
    | array n b => exact ⟨.root _, .root _⟩
  | array m a =>
    cases t with
    | object b => exact ⟨.root _, .root _⟩
    | array n b => exact h.below_joinArrays m n a b

end Hierarchy

end ClassWeave
