import ClassWeave.Instruction.Encode
import ClassWeave.Proofs.Outcome
import ClassWeave.Proofs.Pool.Growth

/-!
# Interning again

Entries never move, and a constant that has an index keeps it. So whatever adds constants to a pool adds nothing
when it is done again, on the pool that it left or on a larger one, and comes to the same result (`Repeatable`).
Every action that interns is repeatable, as it is made of repeatable ones.
-/

namespace ClassWeave

variable {ε α β : Type}

/-- The action only adds constants. Done again where its constants are, it gives the same and adds nothing. -/
def Repeatable (action : EStateM ε Pool α) : Prop :=
  ∀ p q a, action p = .ok a q → p.Grows q ∧ ∀ r, q.Grows r → action r = .ok a r

/-- The lowest index of a constant stays. -/
theorem Pool.Grows.lowest {p q : Pool} (h : p.Grows q) {c : Constant} {i : UInt16}
    (hc : p.lowest[c]? = some i) : q.lowest[c]? = some i := by
  obtain ⟨cs, rfl⟩ := h
  induction cs generalizing p with
  | nil => exact hc
  | cons d cs ih =>
    refine ih ?_
    have hmem : c ∈ p.lowest := by
      rw [Std.HashMap.mem_iff_isSome_getElem?, hc]
      rfl
    rw [Pool.push_lowest, Std.HashMap.getElem?_insertIfNew, if_neg]
    · exact hc
    · rintro ⟨heq, hnot⟩
      rw [eq_of_beq heq] at hnot
      exact hnot hmem

namespace Repeatable

variable {x : EStateM ε Pool α} {f : α → EStateM ε Pool β}

theorem pure (a : α) : Repeatable (pure a : EStateM ε Pool α) := by
  intro p q b h
  obtain ⟨rfl, rfl⟩ := Outcome.estate_pure.mp h
  exact ⟨.refl _, fun _ _ => rfl⟩

theorem throw (e : ε) : Repeatable (throw e : EStateM ε Pool α) := by
  intro p q a h
  cases h

theorem bind (hx : Repeatable x) (hf : ∀ a, Repeatable (f a)) : Repeatable (x >>= f) := by
  intro p q b h
  obtain ⟨a, p1, ha, hb⟩ := Outcome.estate_bind.mp h
  obtain ⟨hgrows, hagain⟩ := hx p p1 a ha
  obtain ⟨hgrows', hagain'⟩ := hf a p1 q b hb
  refine ⟨hgrows.trans hgrows', fun r hr => ?_⟩
  exact Outcome.estate_bind.mpr ⟨a, r, hagain r (hgrows'.trans hr), hagain' r hr⟩

theorem mapM {f : α → EStateM ε Pool β} {xs : List α} (h : ∀ a, Repeatable (f a)) : Repeatable (xs.mapM f) := by
  induction xs with
  | nil =>
    rw [List.mapM_nil]
    exact pure []
  | cons x xs ih =>
    rw [List.mapM_cons]
    exact (h x).bind fun y => ih.bind fun ys => pure (y :: ys)

/-- Where all constants are that a list of actions adds, each of them adds nothing. -/
theorem forall₂_of_mapM {f : α → EStateM ε Pool β} (h : ∀ a, Repeatable (f a)) {r : Pool} :
    ∀ {xs : List α} {ys : List β} {p q : Pool}, xs.mapM f p = .ok ys q → q.Grows r →
      List.Forall₂ (fun x y => f x r = .ok y r) xs ys
  | [], ys, p, q, hmap, _ => by
    rw [List.mapM_nil] at hmap
    obtain ⟨rfl, -⟩ := Outcome.estate_pure.mp hmap
    exact .nil
  | x :: xs, ys, p, q, hmap, hr => by
    rw [List.mapM_cons] at hmap
    obtain ⟨y, p1, hy, hmap⟩ := Outcome.estate_bind.mp hmap
    obtain ⟨zs, p2, hzs, hmap⟩ := Outcome.estate_bind.mp hmap
    obtain ⟨rfl, rfl⟩ := Outcome.estate_pure.mp hmap
    have hgrows := (mapM h _ _ _ hzs).1
    exact .cons ((h x p p1 y hy).2 r (hgrows.trans hr)) (forall₂_of_mapM h hzs hr)

/-! ## Symbols -/

theorem intern (c : Constant) : Repeatable (Interning.intern c) := by
  have hfound : ∀ {r : Pool} {i : UInt16}, r.lowest[c]? = some i → Interning.intern c r = .ok i r := by
    intro r i hi
    simp [Interning.intern, hi]
  intro p q i h
  cases hlowest : p.lowest[c]? with
  | some index =>
    rw [hfound hlowest] at h
    cases h
    exact ⟨.refl p, fun _ hr => hfound (hr.lowest hlowest)⟩
  | none =>
    unfold Interning.intern at h
    rw [hlowest] at h
    dsimp only at h
    split_ifs at h
    cases h
    have hpushed : (p.push c).lowest[c]? = some p.nextIndex.toUInt16 := by
      rw [Pool.push_lowest, Std.HashMap.getElem?_insertIfNew, if_pos]
      exact ⟨beq_self_eq_true c, by simpa using hlowest⟩
    exact ⟨Pool.grows_push p c, fun _ hr => hfound (hr.lowest hpushed)⟩

theorem utf8 (bytes : Bytes) : Repeatable (Interning.utf8 bytes) :=
  intern _

theorem text (text : String) : Repeatable (Interning.text text) :=
  utf8 _

theorem classRef (name : String) : Repeatable (Interning.classRef name) :=
  (text name).bind fun _ => intern _

theorem nameAndType (name descriptor : String) : Repeatable (Interning.nameAndType name descriptor) :=
  (text name).bind fun _ => (text descriptor).bind fun _ => intern _

theorem refType (type : RefType) : Repeatable (Interning.refType type) :=
  classRef _

theorem fieldRef (field : FieldRef) : Repeatable (Interning.fieldRef field) :=
  (classRef _).bind fun _ => (nameAndType _ _).bind fun _ => intern _

theorem methodRef (method : MethodRef) : Repeatable (Interning.methodRef method) :=
  (refType _).bind fun _ => (nameAndType _ _).bind fun _ => intern _

theorem callSite (site : CallSite) : Repeatable (Interning.callSite site) :=
  (nameAndType _ _).bind fun _ => intern _

theorem memberRef (member : MemberRef) : Repeatable (Interning.memberRef member) := by
  cases member with
  | field ref => exact fieldRef ref
  | method ref => exact methodRef ref

theorem loadable (constant : Loadable) : Repeatable (Interning.loadable constant) := by
  cases constant with
  | integer | float | long | double => exact intern _
  | string bytes => exact (utf8 bytes).bind fun _ => intern _
  | classLiteral type => exact refType type
  | methodType descriptor => exact (text _).bind fun _ => intern _
  | methodHandle kind member => exact (memberRef member).bind fun _ => intern _
  | dynamic constant => exact (nameAndType _ _).bind fun _ => intern _

/-! ## Instructions -/

theorem encode (instruction : Instruction) : Repeatable instruction.encode := by
  cases instruction with
  | loadConstant constant => exact (loadable constant).bind fun _ => pure _
  | field access ref => exact (fieldRef ref).bind fun _ => pure _
  | invoke mode method => exact (methodRef method).bind fun _ => pure _
  | invokeDynamic site => exact (callSite site).bind fun _ => pure _
  | newObject type | newRefArray type | checkCast type | instanceOf type | newMultiArray type =>
    exact (refType type).bind fun _ => pure _
  | _ => exact pure _

end Repeatable

end ClassWeave
