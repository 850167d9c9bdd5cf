import ClassWeave.Proofs.Hierarchy

/-!
# Joins are least upper bounds

Where superclasses are as the language has them (`Hierarchy.Ordered`), a type is under another if the join of
the two is the other one (`Hierarchy.Under`). This is a partial order, and the join of two types is the least
that both are under. The order is finer than `Below`: an interface is only under itself and the root class,
whatever its superclass.
-/

namespace ClassWeave

namespace Hierarchy

variable {h : Hierarchy} {a b c : BinaryName} {r s t : RefType}

/-! ## Ordered hierarchies -/

/-- No class is its own ancestor. -/
def Acyclic (h : Hierarchy) : Prop :=
  ∀ a, ¬ Relation.TransGen (fun x y => h.superclass? x = some y) a a

/-- Superclasses have no cycles and are no interfaces, and the root class has no superclass. -/
structure Ordered (h : Hierarchy) : Prop where
  acyclic : h.Acyclic
  rooted : h.Rooted
  superclasses : ∀ {a b}, h.superclass? a = some b → h.isKnownInterface b = false

/-- Superclasses have no cycles and are no interfaces, and the root class is a class without a superclass. -/
structure Regular (h : Hierarchy) : Prop where
  acyclic : h.Acyclic
  rooted : h.Rooted
  rootClass : h.isKnownInterface .object = false
  superclasses : ∀ {a b}, h.superclass? a = some b → h.isKnownInterface b = false

theorem Regular.ordered (hh : h.Regular) : h.Ordered :=
  ⟨hh.acyclic, hh.rooted, hh.superclasses⟩

instance : Coe h.Regular h.Ordered :=
  ⟨Regular.ordered⟩

theorem ordered_empty : empty.Ordered := by
  have hnone : ∀ a, empty.superclass? a = none := fun a => by
    unfold superclass?
    rw [get?_empty]
    rfl
  refine ⟨fun a hcycle => ?_, rooted_empty, fun {a b} hb => ?_⟩
  · obtain ⟨b, hb, -⟩ := Relation.TransGen.head'_iff.mp hcycle
    rw [hnone] at hb
    cases hb
  · rw [hnone] at hb
    cases hb

theorem Ordered.extends_antisymm (hh : h.Ordered) (hab : h.Extends a b) (hba : h.Extends b a) : a = b := by
  rcases Relation.reflTransGen_iff_eq_or_transGen.mp hab with heq | hstep
  · exact heq.symm
  · exact absurd (hstep.trans_left hba) (hh.acyclic a)

/-- What a class other than itself extends is no interface. -/
theorem Ordered.class_of_extends (hh : h.Ordered) (hab : h.Extends a b) (hne : a ≠ b) :
    h.isKnownInterface b = false := by
  rcases Relation.ReflTransGen.cases_tail hab with heq | ⟨x, -, hx⟩
  · exact absurd heq.symm hne
  · exact hh.superclasses hx

/-! ## Classes -/

/-- A class is under itself, the root class, and what it extends if it is no interface. -/
def ClassUnder (h : Hierarchy) (a b : BinaryName) : Prop :=
  a = b ∨ b = .object ∨ (h.isKnownInterface a = false ∧ h.Extends a b)

theorem ClassUnder.refl (h : Hierarchy) (a : BinaryName) : h.ClassUnder a a := .inl rfl

theorem ClassUnder.root (h : Hierarchy) (a : BinaryName) : h.ClassUnder a .object := .inr (.inl rfl)

theorem ClassUnder.eq_of_object (hh : h.Ordered) (hb : h.ClassUnder .object b) : b = .object := by
  rcases hb with heq | heq | ⟨-, hextends⟩
  · exact heq.symm
  · exact heq
  · exact hh.rooted.extends_object hextends

theorem ClassUnder.trans (hh : h.Ordered) (hab : h.ClassUnder a b) (hbc : h.ClassUnder b c) :
    h.ClassUnder a c := by
  rcases hab with rfl | rfl | ⟨hclass, hab⟩
  · exact hbc
  · rw [hbc.eq_of_object hh]
    exact .root h a
  · rcases hbc with rfl | rfl | ⟨-, hbc⟩
    · exact .inr (.inr ⟨hclass, hab⟩)
    · exact .root h a
    · exact .inr (.inr ⟨hclass, hab.trans hbc⟩)

theorem ClassUnder.antisymm (hh : h.Ordered) (hab : h.ClassUnder a b) (hba : h.ClassUnder b a) : a = b := by
  rcases hab with heq | rfl | ⟨-, hab⟩
  · exact heq
  · exact hba.eq_of_object hh
  · rcases hba with heq | rfl | ⟨-, hba⟩
    · exact heq.symm
    · exact (hh.rooted.extends_object hab).symm
    · exact hh.extends_antisymm hab hba

/-! ## The common superclass -/

theorem pairwise_extendChain : ∀ (rounds : Nat) {chain : List BinaryName} {last : BinaryName},
    chain.Pairwise h.Extends → (∀ x ∈ chain, h.Extends x last) →
    (h.extendChain rounds chain last).Pairwise h.Extends
  | 0, _, _, hchain, _ => hchain
  | rounds + 1, chain, last, hchain, hlast => by
    unfold extendChain
    cases hs : h.superclass? last with
    | none => exact hchain
    | some superclass =>
      dsimp only
      split_ifs
      · exact hchain
      · have hstep : ∀ x ∈ chain, h.Extends x superclass := fun x hx => (hlast x hx).tail hs
        refine pairwise_extendChain rounds ?_ fun x hx => ?_
        · refine List.pairwise_append.mpr ⟨hchain, List.pairwise_singleton _ _, fun x hx y hy => ?_⟩
          rw [List.mem_singleton.mp hy]
          exact hstep x hx
        · rcases List.mem_append.mp hx with hx | hx
          · exact hstep x hx
          · rw [List.mem_singleton.mp hx]
            exact .refl

/-- Each class on a chain extends those that follow it. -/
theorem pairwise_superclassChain (h : Hierarchy) (a : BinaryName) :
    (h.superclassChain a).Pairwise h.Extends := by
  refine pairwise_extendChain _ (List.pairwise_singleton _ _) fun x hx => ?_
  rw [List.mem_singleton.mp hx]
  exact .refl

/-- The first class on the chain of one that the other extends comes before all others like it. -/
theorem extends_of_first (hfind : (h.superclassChain a).find?
    (fun x => decide (x ∈ h.superclassChain b)) = some c) {d : BinaryName} (had : h.Extends a d)
    (hbd : h.Extends b d) : h.Extends c d := by
  obtain ⟨-, before, after, hchain, hbefore⟩ := List.find?_eq_some_iff_append.mp hfind
  have hmem : d ∈ before ++ c :: after := by
    rw [← hchain]
    exact mem_superclassChain.mpr had
  rcases List.mem_append.mp hmem with hd | hd
  · have hnot := hbefore d hd
    rw [decide_eq_true (mem_superclassChain.mpr hbd)] at hnot
    cases hnot
  · rcases List.mem_cons.mp hd with rfl | hd
    · exact .refl
    · have hpairs := h.pairwise_superclassChain a
      rw [hchain] at hpairs
      exact (List.pairwise_cons.mp (List.pairwise_append.mp hpairs).2.1).1 d hd

theorem commonSuperclass_self (h : Hierarchy) (a : BinaryName) : h.commonSuperclass a a = a := if_pos rfl

/-- With an interface, the common superclass of two different classes is the root class. -/
theorem commonSuperclass_of_interface (hne : a ≠ b)
    (hinterface : h.isKnownInterface a = true ∨ h.isKnownInterface b = true) :
    h.commonSuperclass a b = .object := by
  unfold commonSuperclass
  rw [if_neg hne, if_pos (Bool.or_eq_true _ _ ▸ hinterface)]

/-- Two different classes: the first on one chain that is on the other, or the root class. -/
theorem commonSuperclass_of_classes (hne : a ≠ b) (ha : h.isKnownInterface a = false)
    (hb : h.isKnownInterface b = false) : h.commonSuperclass a b =
      ((h.superclassChain a).find? fun x => decide (x ∈ h.superclassChain b)).getD .object := by
  unfold commonSuperclass
  rw [if_neg hne, if_neg]
  rw [ha, hb]
  exact Bool.false_ne_true

theorem classUnder_commonSuperclass (h : Hierarchy) (a b : BinaryName) :
    h.ClassUnder a (h.commonSuperclass a b) ∧ h.ClassUnder b (h.commonSuperclass a b) := by
  by_cases hne : a = b
  · rw [hne, commonSuperclass_self]
    exact ⟨.refl h b, .refl h b⟩
  cases ha : h.isKnownInterface a with
  | true =>
    rw [commonSuperclass_of_interface hne (.inl ha)]
    exact ⟨.root h a, .root h b⟩
  | false =>
    cases hb : h.isKnownInterface b with
    | true =>
      rw [commonSuperclass_of_interface hne (.inr hb)]
      exact ⟨.root h a, .root h b⟩
    | false =>
      rw [commonSuperclass_of_classes hne ha hb]
      cases hfind : (h.superclassChain a).find? fun x => decide (x ∈ h.superclassChain b) with
      | none => exact ⟨.root h a, .root h b⟩
      | some d =>
        obtain ⟨had, hbd⟩ := extends_of_find? hfind
        exact ⟨.inr (.inr ⟨ha, had⟩), .inr (.inr ⟨hb, hbd⟩)⟩

/-- What two classes are under, their common superclass is under. -/
theorem commonSuperclass_least (hh : h.Ordered) (hac : h.ClassUnder a c) (hbc : h.ClassUnder b c) :
    h.ClassUnder (h.commonSuperclass a b) c := by
  by_cases hroot : c = .object
  · rw [hroot]
    exact .root h _
  by_cases hne : a = b
  · rw [hne, commonSuperclass_self]
    exact hbc
  -- an interface is only under itself here, and nothing else is under an interface
  have hclass : ∀ {x y : BinaryName}, x ≠ y → h.ClassUnder x c → h.ClassUnder y c →
      h.isKnownInterface x = false := by
    intro x y hxy hxc hyc
    rcases hxc with rfl | heq | ⟨hx, -⟩
    · rcases hyc with heq | heq | ⟨-, hyx⟩
      · exact absurd heq.symm hxy
      · exact absurd heq hroot
      · exact hh.class_of_extends hyx hxy.symm
    · exact absurd heq hroot
    · exact hx
  have hextends : ∀ {x : BinaryName}, h.ClassUnder x c → h.Extends x c := by
    intro x hxc
    rcases hxc with rfl | heq | ⟨-, hxc⟩
    · exact .refl
    · exact absurd heq hroot
    · exact hxc
  have ha := hclass hne hac hbc
  have hb := hclass (Ne.symm hne) hbc hac
  rw [commonSuperclass_of_classes hne ha hb]
  cases hfind : (h.superclassChain a).find? fun x => decide (x ∈ h.superclassChain b) with
  | none =>
    have hnone := List.find?_eq_none.mp hfind c (mem_superclassChain.mpr (hextends hac))
    exact absurd (decide_eq_true (mem_superclassChain.mpr (hextends hbc))) hnone
  | some d =>
    have hdc := extends_of_first hfind (hextends hac) (hextends hbc)
    refine .inr (.inr ⟨?_, hdc⟩)
    change h.isKnownInterface d = false
    by_cases had : a = d
    · rw [← had]
      exact ha
    · exact hh.class_of_extends (extends_of_find? hfind).1 had

/-! ## Reference types -/

/-- A type is under another: classes as `ClassUnder` says, everything under the root class, and arrays under
arrays if their elements are. -/
inductive Under (h : Hierarchy) : RefType → RefType → Prop where
  | refl (s : RefType) : Under h s s
  | root (s : RefType) : Under h s (.object .object)
  | classes {a b : BinaryName} : h.ClassUnder a b → Under h (.object a) (.object b)
  | arrays {s t : RefType} : Under h s t → Under h (.arrayOf (.ref s)) (.arrayOf (.ref t))

/-- What is under an array of references is an array of references. -/
theorem Under.element? (hst : h.Under s t) {e : RefType} (he : t.element? = some (.ref e)) :
    ∃ d, s.element? = some (.ref d) ∧ h.Under d e := by
  cases hst with
  | refl => exact ⟨e, he, .refl e⟩
  | root => cases he
  | classes _ => cases he
  | @arrays s' t' hst' =>
    rw [RefType.element?_arrayOf] at he
    cases he
    exact ⟨s', RefType.element?_arrayOf _, hst'⟩

/-- What is under a class is a class under it, or finds it to be the root. -/
theorem Under.object_cases (hst : h.Under s (.object b)) :
    b = .object ∨ ∃ a, s = .object a ∧ h.ClassUnder a b := by
  generalize ht : RefType.object b = t at hst
  cases hst with
  | refl => exact .inr ⟨b, ht.symm, .refl h b⟩
  | root => cases ht; exact .inl rfl
  | @classes a _ hab => cases ht; exact .inr ⟨a, rfl, hab⟩
  | @arrays s' t' _ =>
    have he := RefType.element?_arrayOf (.ref t')
    rw [← ht] at he
    cases he

theorem Under.eq_of_object (hh : h.Ordered) (ht : h.Under (.object .object) t) : t = .object .object := by
  generalize hs : RefType.object .object = s at ht
  cases ht with
  | refl => rfl
  | root => exact hs
  | @classes a b hab => cases hs; rw [hab.eq_of_object hh]
  | @arrays s' t' _ =>
    have he := RefType.element?_arrayOf (.ref s')
    rw [← hs] at he
    cases he

theorem Under.trans (hh : h.Ordered) (hrs : h.Under r s) (hst : h.Under s t) : h.Under r t := by
  induction hst generalizing r with
  | refl => exact hrs
  | root => exact .root r
  | @classes a b hab =>
    rcases hrs.object_cases with rfl | ⟨c, rfl, hca⟩
    · rw [hab.eq_of_object hh]
      exact .root r
    · exact .classes (hca.trans hh hab)
  | @arrays s' t' _ ih =>
    obtain ⟨d, hd, hds⟩ := hrs.element? (RefType.element?_arrayOf (.ref s'))
    rw [eq_arrayOf_of_element? hd]
    exact .arrays (ih hds)

theorem Under.antisymm (hh : h.Ordered) (hst : h.Under s t) (hts : h.Under t s) : s = t := by
  induction hst with
  | refl => rfl
  | root => exact hts.eq_of_object hh
  | @classes a b hab =>
    rcases hts.object_cases with rfl | ⟨c, hc, hba⟩
    · rw [hab.eq_of_object hh]
    · cases hc
      rw [hab.antisymm hh hba]
  | @arrays s' t' _ ih =>
    obtain ⟨d, hd, hds⟩ := hts.element? (RefType.element?_arrayOf (.ref s'))
    rw [RefType.element?_arrayOf] at hd
    cases hd
    rw [ih hds]

/-! ## The join -/

/-- Arrays of references join element by element. -/
theorem join_arrayOf (h : Hierarchy) (s t : RefType) :
    h.join (.arrayOf (.ref s)) (.arrayOf (.ref t)) = .arrayOf (.ref (h.join s t)) := by
  cases s <;> cases t <;> rfl

theorem join_self (h : Hierarchy) (s : RefType) : h.join s s = s := by
  cases s with
  | object a => exact congrArg RefType.object (h.commonSuperclass_self a)
  | array inner leaf =>
    induction inner with
    | zero =>
      cases leaf with
      | base type => exact if_pos rfl
      | object a => exact congrArg (fun name => RefType.array 0 (.object name)) (h.commonSuperclass_self a)
    | succ inner ih => exact (h.join_arrayOf (.array inner leaf) (.array inner leaf)).trans (by rw [ih]; rfl)

theorem under_joinLeaves (h : Hierarchy) (x y : ArrayLeaf) :
    h.Under (.array 0 x) (h.joinLeaves x y) ∧ h.Under (.array 0 y) (h.joinLeaves x y) := by
  cases x with
  | base s =>
    cases y with
    | base t =>
      unfold joinLeaves
      dsimp only
      split_ifs with heq
      · rw [heq]
        exact ⟨.refl _, .refl _⟩
      · exact ⟨.root _, .root _⟩
    | object name => exact ⟨.root _, .root _⟩
  | object a =>
    cases y with
    | base t => exact ⟨.root _, .root _⟩
    | object b =>
      obtain ⟨ha, hb⟩ := h.classUnder_commonSuperclass a b
      exact ⟨.arrays (.classes ha), .arrays (.classes hb)⟩

/-- A flat array and an array of arrays are under the join of the two. -/
theorem under_joinLeafWithArray (x : ArrayLeaf) (inner : Nat) (leaf : ArrayLeaf) :
    h.Under (.array 0 x) (joinLeafWithArray x) ∧ h.Under (.array (inner + 1) leaf) (joinLeafWithArray x) := by
  cases x with
  | base s => exact ⟨.root _, .root _⟩
  | object name => exact ⟨.arrays (.root (.object name)), .arrays (.root (.array inner leaf))⟩

theorem under_joinArrays (h : Hierarchy) : ∀ (m n : Nat) (x y : ArrayLeaf),
    h.Under (.array m x) (h.joinArrays m n x y) ∧ h.Under (.array n y) (h.joinArrays m n x y)
  | m + 1, n + 1, x, y => by
    obtain ⟨hx, hy⟩ := under_joinArrays h m n x y
    exact ⟨.arrays hx, .arrays hy⟩
  | 0, 0, x, y => h.under_joinLeaves x y
  | 0, n + 1, x, y => under_joinLeafWithArray x n y
  | m + 1, 0, x, y => (under_joinLeafWithArray y m x).symm

/-- Both types are under their join. -/
theorem under_join (h : Hierarchy) (s t : RefType) : h.Under s (h.join s t) ∧ h.Under t (h.join s t) := by
  cases s with
  | object a =>
    cases t with
    | object b =>
      obtain ⟨ha, hb⟩ := h.classUnder_commonSuperclass a b
      exact ⟨.classes ha, .classes hb⟩
    | array n y => exact ⟨.root _, .root _⟩
  | array m x =>
    cases t with
    | object b => exact ⟨.root _, .root _⟩
    | array n y => exact h.under_joinArrays m n x y

/-- The join with the root class is the root class. -/
theorem join_object (hh : h.Ordered) (s : RefType) :
    h.join (.object .object) s = .object .object ∧ h.join s (.object .object) = .object .object :=
  ⟨(h.under_join _ s).1.eq_of_object hh, (h.under_join s _).2.eq_of_object hh⟩

/-- What two types are under, their join is under. -/
theorem join_least (hh : h.Ordered) (hrt : h.Under r t) (hst : h.Under s t) : h.Under (h.join r s) t := by
  induction hrt generalizing s with
  | refl r =>
    induction hst with
    | refl s =>
      rw [join_self]
      exact .refl s
    | root s =>
      rw [(join_object hh s).1]
      exact .root _
    | @classes b c hbc => exact .classes (commonSuperclass_least hh (.refl h c) hbc)
    | @arrays s' t' _ ih =>
      rw [join_arrayOf]
      exact .arrays ih
  | root r => exact .root _
  | @classes a c hac =>
    rcases hst.object_cases with rfl | ⟨b, rfl, hbc⟩
    · exact .root _
    · exact .classes (commonSuperclass_least hh hac hbc)
  -- types below an array of references are arrays of references, and their elements are joined
  | @arrays r' t' _ ih =>
    obtain ⟨s', hs', hst'⟩ := hst.element? (RefType.element?_arrayOf (.ref t'))
    rw [eq_arrayOf_of_element? hs', join_arrayOf]
    exact .arrays (ih hst')

/-- A type is under another exactly if their join is the other. -/
theorem under_iff_join (hh : h.Ordered) : h.Under s t ↔ h.join s t = t := by
  constructor
  · intro hst
    exact (join_least hh hst (.refl t)).antisymm hh (h.under_join s t).2
  · intro hjoin
    rw [← hjoin]
    exact (h.under_join s t).1

end Hierarchy

end ClassWeave
