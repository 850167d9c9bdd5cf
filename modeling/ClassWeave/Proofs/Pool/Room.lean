import ClassWeave.Pool.Symbol
import ClassWeave.Proofs.Pool.Growth

/-!
# Pools with room

Adding to a pool fails only where there is no room left. `Interning.Needs` bounds the indices that an action
takes, and an action that needs no more than there are succeeds.
-/

namespace ClassWeave

namespace Interning

variable {ε α β : Type} {m n : Nat}

/-- Wherever `count` indices are left the action succeeds, and it takes no more of them. -/
def Needs (count : Nat) (action : EStateM ε Pool α) : Prop :=
  ∀ p : Pool, p.nextIndex + count ≤ Pool.limit → ∃ a q, action p = .ok a q ∧ q.nextIndex ≤ p.nextIndex + count

theorem needs_pure (a : α) : Needs 0 (pure a : EStateM ε Pool α) :=
  fun p _ => ⟨a, p, rfl, Nat.le_refl _⟩

/-- An action that leaves every pool as it is takes nothing. -/
theorem needs_bind_of {x : EStateM ε Pool α} {f : α → EStateM ε Pool β} {a : α} (hx : ∀ p, x p = .ok a p)
    (hf : Needs n (f a)) : Needs n (x >>= f) := by
  intro p hp
  obtain ⟨b, q, hb, hq⟩ := hf p hp
  exact ⟨b, q, Outcome.estate_bind.mpr ⟨a, p, hx p, hb⟩, hq⟩

theorem Needs.bind {x : EStateM ε Pool α} {f : α → EStateM ε Pool β} (hx : Needs m x)
    (hf : ∀ a, Needs n (f a)) : Needs (m + n) (x >>= f) := by
  intro p hp
  obtain ⟨a, q, ha, hq⟩ := hx p (by omega)
  obtain ⟨b, r, hb, hr⟩ := hf a q (by omega)
  exact ⟨b, r, Outcome.estate_bind.mpr ⟨a, q, ha, hb⟩, by omega⟩

theorem Needs.mono {action : EStateM ε Pool α} (h : Needs m action) (hle : m ≤ n) : Needs n action := by
  intro p hp
  obtain ⟨a, q, ha, hq⟩ := h p (by omega)
  exact ⟨a, q, ha, by omega⟩

/-- A list takes what its members take together. -/
theorem needs_mapM {f : α → EStateM ε Pool β} : ∀ {xs : List α}, (∀ x ∈ xs, Needs n (f x)) → Needs
    (n * xs.length) (xs.mapM f)
  | [], _ => needs_pure []
  | x :: xs, h => by
    have hx := h x List.mem_cons_self
    have hxs := needs_mapM fun y hy => h y (List.mem_cons_of_mem x hy)
    rw [List.mapM_cons]
    refine (hx.bind fun y => hxs.bind fun ys => needs_pure (y :: ys)).mono ?_
    rw [List.length_cons, Nat.mul_succ]
    omega

/-- A constant takes its width, or nothing if it is there already. -/
theorem needs_intern (c : Constant) : Needs c.width (intern c) := by
  intro p hp
  unfold intern
  cases hfound : p.lowest[c]? with
  | some index => exact ⟨index, p, rfl, Nat.le_add_right _ _⟩
  | none =>
    dsimp only
    rw [if_pos hp]
    exact ⟨_, _, rfl, Nat.le_of_eq (Pool.nextIndex_push p c)⟩

theorem needs_text (t : String) : Needs 1 (text t) :=
  needs_intern (.utf8 (ModifiedUtf8.encode t))

theorem needs_classRef (name : String) : Needs 2 (classRef name) :=
  (needs_text name).bind fun index => needs_intern (.classRef index)

theorem needs_refType (type : RefType) : Needs 2 (refType type) :=
  needs_classRef type.className

theorem needs_nameAndType (name descriptor : String) : Needs 3 (nameAndType name descriptor) :=
  (needs_text name).bind fun i => (needs_text descriptor).bind fun j => needs_intern (.nameAndType i j)

theorem needs_methodRef (method : MethodRef) : Needs 6 (methodRef method) :=
  (needs_refType method.owner).bind fun owner =>
    (needs_nameAndType method.name.text method.descriptor.render).bind fun member =>
      needs_intern (.methodRef owner member method.isInterface)

end Interning

end ClassWeave
