import ClassWeave.Pool.Format
import ClassWeave.Proofs.Outcome
import ClassWeave.Proofs.Text.ModifiedUtf8
import Mathlib.Data.List.Infix

/-!
# Pools only grow

A pool is well formed if it was built of constants one by one, its next index is within the limit, and every
reference between entries leads to an entry of the right kind. Interning keeps a pool well formed and only adds
to it (`Pool.Grows`), so whatever an index resolves to, it does for good.
-/

namespace ClassWeave

/-- The slots that a constant takes. -/
def Constant.slots (c : Constant) : List (Option Constant) :=
  if c.width = 2 then [some c, none] else [some c]

namespace Pool

/-- The pool of some constants, in order. -/
def ofConstants (cs : List Constant) : Pool :=
  cs.foldl push empty

/-- What holds of every pool that was read or built by interning. -/
structure WellFormed (pool : Pool) : Prop where
  built : ∃ cs, pool = ofConstants cs
  bounded : pool.nextIndex ≤ limit
  closed : ∀ (i : UInt16) (c : Constant), pool.get? i = some c → pool.checkReferences c = .ok ()

/-- The later pool is the earlier one with more constants. -/
def Grows (earlier later : Pool) : Prop :=
  ∃ cs : List Constant, later = cs.foldl push earlier

variable {p q r : Pool}

theorem Grows.refl (p : Pool) : p.Grows p :=
  ⟨[], rfl⟩

theorem Grows.trans (h : p.Grows q) (h' : q.Grows r) : p.Grows r := by
  obtain ⟨cs, rfl⟩ := h
  obtain ⟨ds, rfl⟩ := h'
  exact ⟨cs ++ ds, List.foldl_append.symm⟩

theorem grows_push (p : Pool) (c : Constant) : p.Grows (p.push c) :=
  ⟨[c], rfl⟩

/-! ## Slots -/

theorem push_slots (p : Pool) (c : Constant) : (p.push c).slots.toList = p.slots.toList ++ c.slots := by
  rcases p with ⟨slots, lowest⟩
  change (if c.width = 2 then (slots.push (some c)).push none else slots.push (some c)).toList = _
  unfold Constant.slots
  split_ifs <;> simp

theorem foldl_push_slots : ∀ (cs : List Constant) (p : Pool),
    (cs.foldl push p).slots.toList = p.slots.toList ++ cs.flatMap Constant.slots
  | [], _ => (List.append_nil _).symm
  | c :: cs, p => by
    rw [List.foldl_cons, foldl_push_slots cs, push_slots, List.flatMap_cons, List.append_assoc]

theorem ofConstants_slots (cs : List Constant) :
    (ofConstants cs).slots.toList = none :: cs.flatMap Constant.slots :=
  foldl_push_slots cs empty

theorem Grows.slots_prefix (h : p.Grows q) : p.slots.toList <+: q.slots.toList := by
  obtain ⟨cs, rfl⟩ := h
  rw [foldl_push_slots]
  exact List.prefix_append _ _

/-! ## Look-ups stay -/

theorem Grows.get? (h : p.Grows q) {i : UInt16} {c : Constant} (hc : p.get? i = some c) :
    q.get? i = some c := by
  obtain ⟨more, hmore⟩ := h.slots_prefix
  unfold Pool.get? at hc ⊢
  rw [← Array.getElem?_toList] at hc ⊢
  have hlt : i.toNat < p.slots.toList.length := by
    by_contra hge
    rw [List.getElem?_eq_none (Nat.le_of_not_lt hge)] at hc
    cases hc
  rw [← hmore, List.getElem?_append_left hlt]
  exact hc

theorem get_eq_ok {i : UInt16} {c : Constant} : p.get i = .ok c ↔ p.get? i = some c := by
  unfold Pool.get
  cases p.get? i with
  | none => exact ⟨fun h => (by cases h), fun h => (by cases h)⟩
  | some d =>
    constructor
    · intro h
      cases h
      rfl
    · intro h
      cases h
      rfl

theorem expect_eq_ok {i : UInt16} {kind : ConstantKind} {test : Constant → Bool} :
    p.expect i kind test = .ok () ↔ ∃ c, p.get? i = some c ∧ test c = true := by
  unfold Pool.expect
  rw [Outcome.except_bind]
  constructor
  · rintro ⟨c, hc, h⟩
    refine ⟨c, get_eq_ok.mp hc, ?_⟩
    by_contra hn
    rw [if_neg hn] at h
    cases h
  · rintro ⟨c, hc, h⟩
    exact ⟨c, get_eq_ok.mpr hc, if_pos h⟩

/-- The references of a constant that is no method handle. -/
theorem checkReferences_eq_ok {c : Constant} (hc : ∀ kind member, c ≠ .methodHandle kind member) :
    p.checkReferences c = .ok () ↔
      ∀ reference ∈ c.references, ∃ d, p.get? reference.1 = some d ∧ reference.2.accepts d = true := by
  have h : p.checkReferences c =
      c.references.forM fun reference => p.expect reference.1 reference.2 reference.2.accepts := by
    unfold checkReferences
    split
    · exact absurd rfl (hc _ _)
    · rfl
  rw [h, Outcome.except_forM]
  exact forall₂_congr fun reference _ => expect_eq_ok

theorem checkReferences_methodHandle {kind : HandleKind} {member : UInt16} :
    p.checkReferences (.methodHandle kind member) = .ok () ↔ ∃ d, p.get? member = some d ∧
    kind.accepts d = true :=
  expect_eq_ok

theorem Grows.checkReferences (h : p.Grows q) {c : Constant} (hc : p.checkReferences c = .ok ()) :
    q.checkReferences c = .ok () := by
  by_cases hh : ∃ kind member, c = .methodHandle kind member
  · obtain ⟨kind, member, rfl⟩ := hh
    obtain ⟨d, hd, ha⟩ := checkReferences_methodHandle.mp hc
    exact checkReferences_methodHandle.mpr ⟨d, h.get? hd, ha⟩
  · have hn : ∀ kind member, c ≠ .methodHandle kind member := fun kind member heq => hh ⟨kind, member, heq⟩
    rw [checkReferences_eq_ok hn] at hc ⊢
    intro reference href
    obtain ⟨d, hd, ha⟩ := hc reference href
    exact ⟨d, h.get? hd, ha⟩

/-! ## Pushing -/

theorem push_lowest (p : Pool) (c : Constant) :
    (p.push c).lowest = p.lowest.insertIfNew c p.nextIndex.toUInt16 := rfl

theorem length_slots (c : Constant) : c.slots.length = c.width := by
  cases c <;> rfl

theorem nextIndex_push (p : Pool) (c : Constant) : (p.push c).nextIndex = p.nextIndex + c.width := by
  unfold nextIndex
  rw [← Array.length_toList, push_slots, List.length_append, length_slots, Array.length_toList]

theorem get?_nextIndex_push (p : Pool) (c : Constant) (h : p.nextIndex ≤ limit) :
    (p.push c).get? p.nextIndex.toUInt16 = some c := by
  have hidx : p.nextIndex.toUInt16.toNat = p.slots.toList.length := by
    have hlt : p.slots.size ≤ 65535 := h
    rw [UInt16.toNat_ofNat', Array.length_toList]
    exact Nat.mod_eq_of_lt (by change p.slots.size < _; omega)
  unfold Pool.get?
  rw [← Array.getElem?_toList, push_slots, hidx, List.getElem?_append_right (Nat.le_refl _), Nat.sub_self]
  unfold Constant.slots
  split_ifs <;> rfl

/-- An entry of a pool after a push is the new one or was there before. -/
theorem get?_push {p : Pool} {c d : Constant} {i : UInt16} (h : (p.push c).get? i = some d) :
    d = c ∨ p.get? i = some d := by
  unfold Pool.get? at h ⊢
  rw [← Array.getElem?_toList, push_slots] at h
  rw [← Array.getElem?_toList]
  by_cases hlt : i.toNat < p.slots.toList.length
  · rw [List.getElem?_append_left hlt] at h
    exact .inr h
  · -- the index is one of the slots that were added
    rw [List.getElem?_append_right (Nat.le_of_not_lt hlt)] at h
    left
    have hmem : some d ∈ c.slots := by
      cases hslot : c.slots[i.toNat - p.slots.toList.length]? with
      | none => rw [hslot] at h; cases h
      | some o =>
        rw [hslot] at h
        change o = some d at h
        rw [h] at hslot
        exact List.mem_of_getElem? hslot
    unfold Constant.slots at hmem
    split_ifs at hmem
    · simpa using hmem
    · simpa using hmem

/-- What a pool knows of lowest indices is true. -/
theorem lowest_get : ∀ {cs : List Constant} {p : Pool}, (∀ c i, p.lowest[c]? = some i → p.get? i = some c) →
    (cs.foldl push p).nextIndex ≤ limit →
      ∀ c i, (cs.foldl push p).lowest[c]? = some i → (cs.foldl push p).get? i = some c
  | [], _, hp, _ => hp
  | c :: cs, p, hp, hbound => by
    refine @lowest_get cs (p.push c) (fun d i hd => ?_) hbound
    rw [push_lowest, Std.HashMap.getElem?_insertIfNew] at hd
    split_ifs at hd with hnew
    · cases hd
      rw [← LawfulBEq.eq_of_beq hnew.1]
      refine get?_nextIndex_push p c ?_
      have hle := (Grows.slots_prefix ⟨c :: cs, rfl⟩ : p.slots.toList <+:
        ((c :: cs).foldl push p).slots.toList).length_le
      rw [Array.length_toList, Array.length_toList] at hle
      exact Nat.le_trans hle hbound
    · exact (grows_push p c).get? (hp d i hd)

theorem WellFormed.lowest_get (hp : p.WellFormed) {c : Constant} {i : UInt16} (h : p.lowest[c]? = some i) :
    p.get? i = some c := by
  obtain ⟨cs, rfl⟩ := hp.built
  refine Pool.lowest_get (fun c i h => ?_) hp.bounded c i h
  unfold empty at h
  simp at h

/-- A push within the limit, of a constant whose references are right, keeps a pool well formed. -/
theorem WellFormed.push (hp : p.WellFormed) {c : Constant} (hroom : p.nextIndex + c.width ≤ limit)
    (hrefs : p.checkReferences c = .ok ()) : (p.push c).WellFormed where
  built := by
    obtain ⟨cs, rfl⟩ := hp.built
    refine ⟨cs ++ [c], ?_⟩
    unfold ofConstants
    rw [List.foldl_append]
    rfl
  bounded := by rw [nextIndex_push]; exact hroom
  closed := by
    intro i d hd
    rcases get?_push hd with rfl | hd
    · exact (grows_push p d).checkReferences hrefs
    · exact (grows_push p c).checkReferences (hp.closed i d hd)

/-- Nothing stands at index 0. -/
theorem WellFormed.get?_zero (hp : p.WellFormed) : p.get? 0 = none := by
  obtain ⟨cs, rfl⟩ := hp.built
  unfold Pool.get?
  rw [← Array.getElem?_toList, Pool.ofConstants_slots]
  rfl

theorem wellFormed_empty : empty.WellFormed where
  built := ⟨[], rfl⟩
  bounded := by decide
  closed := by
    intro i c h
    unfold Pool.get? empty at h
    rw [← Array.getElem?_toList] at h
    cases hi : i.toNat with
    | zero => rw [hi] at h; cases h
    | succ n => rw [hi] at h; cases h

end Pool

/-! ## Interning -/

namespace Interning

variable {p q : Pool}

/-- What an action that succeeds leaves behind: a well-formed pool that has grown, in which `post` holds. -/
structure Result (p q : Pool) (post : Prop) : Prop where
  wellFormed : q.WellFormed
  grows : p.Grows q
  post : post

theorem intern_ok (hp : p.WellFormed) {c : Constant} (hrefs : p.checkReferences c = .ok ()) {i : UInt16}
    (h : intern c p = .ok i q) : Result p q (q.get? i = some c) := by
  unfold intern at h
  split at h
  · rename_i index hlow
    cases h
    exact ⟨hp, Pool.Grows.refl _, hp.lowest_get hlow⟩
  · split_ifs at h with hroom
    cases h
    exact ⟨hp.push hroom hrefs, Pool.grows_push p c, Pool.get?_nextIndex_push p c hp.bounded⟩

/-- A traversal of a list leaves behind what each of its steps does. -/
theorem mapM_ok {ε α β : Type} {f : α → EStateM ε Pool β} {post : α → β → Pool → Prop}
    (hmono : ∀ a b p q, p.Grows q → post a b p → post a b q) :
    ∀ {xs : List α} {ys : List β} {p q : Pool}, p.WellFormed →
      (∀ x ∈ xs, ∀ p q y, p.WellFormed → f x p = .ok y q → Result p q (post x y q)) →
      xs.mapM f p = .ok ys q → Result p q (List.Forall₂ (fun x y => post x y q) xs ys)
  | [], ys, p, q, hp, _, h => by
    rw [List.mapM_nil, Outcome.estate_pure] at h
    obtain ⟨rfl, rfl⟩ := h
    exact ⟨hp, Pool.Grows.refl _, .nil⟩
  | x :: xs, ys, p, q, hp, hstep, h => by
    rw [List.mapM_cons, Outcome.estate_bind] at h
    obtain ⟨y, p1, hy, h⟩ := h
    obtain ⟨zs, p2, hzs, h⟩ := Outcome.estate_bind.mp h
    obtain ⟨rfl, rfl⟩ := Outcome.estate_pure.mp h
    have r1 := hstep x List.mem_cons_self _ _ _ hp hy
    have r2 := mapM_ok hmono r1.wellFormed (fun x' hx' => hstep x' (List.mem_cons_of_mem _ hx')) hzs
    exact ⟨r2.wellFormed, r1.grows.trans r2.grows, .cons (hmono _ _ _ _ r2.grows r1.post) r2.post⟩

end Interning

end ClassWeave
