import Mathlib.Algebra.Order.Ring.Nat
import Mathlib.Data.List.Forall2

/-!
# Runs that succeed

Inversion of sequences in the three monads of the library: results, readers, and actions on a state. A sequence
succeeds exactly when its parts do, one after the other, and so does a traversal of a list.
-/

namespace ClassWeave

variable {ε σ α β γ : Type}

/-! ## Results -/

namespace Outcome

theorem except_bind {x : Except ε α} {f : α → Except ε β} {b : β} :
    (x >>= f) = .ok b ↔ ∃ a, x = .ok a ∧ f a = .ok b := by
  cases x with
  | error e => exact ⟨fun h => (by cases h), fun ⟨a, h, _⟩ => (by cases h)⟩
  | ok a => exact ⟨fun h => ⟨a, rfl, h⟩, fun ⟨a', h, h'⟩ => (by cases h; exact h')⟩

theorem except_mapError {δ : Type} {x : Except ε α} {f : ε → δ} {a : α} : x.mapError f = .ok a ↔ x = .ok a := by
  cases x with
  | error e => exact ⟨fun h => (by cases h), fun h => (by cases h)⟩
  | ok b => exact ⟨fun h => (by cases h; rfl), fun h => (by cases h; rfl)⟩

theorem except_mapM {f : α → Except ε β} :
    ∀ {xs : List α} {ys : List β}, xs.mapM f = .ok ys ↔ List.Forall₂ (fun x y => f x = .ok y) xs ys
  | [], ys => by
    rw [List.mapM_nil]
    constructor
    · intro h
      cases h
      exact .nil
    · intro h
      cases h
      rfl
  | x :: xs, ys => by
    rw [List.mapM_cons, except_bind]
    constructor
    · rintro ⟨y, hy, h⟩
      obtain ⟨zs, hzs, h⟩ := except_bind.mp h
      cases h
      exact .cons hy (except_mapM.mp hzs)
    · intro h
      cases h with
      | cons hy hzs => exact ⟨_, hy, except_bind.mpr ⟨_, except_mapM.mpr hzs, rfl⟩⟩

/-- A traversal succeeds if each of its steps does, and what the steps give is related as they say. -/
theorem exists_mapM {f : β → Except ε γ} {R : α → β → Prop} {S : α → γ → Prop}
    (hstep : ∀ x y, R x y → ∃ z, f y = .ok z ∧ S x z) : ∀ {xs : List α} {ys : List β}, List.Forall₂ R xs ys →
      ∃ zs, ys.mapM f = .ok zs ∧ List.Forall₂ S xs zs
  | [], [], .nil => ⟨[], rfl, .nil⟩
  | x :: xs, y :: ys, .cons hxy hrest => by
    obtain ⟨z, hz, hxz⟩ := hstep x y hxy
    obtain ⟨zs, hzs, hrel⟩ := exists_mapM hstep hrest
    exact ⟨z :: zs, except_mapM.mpr (.cons hz (except_mapM.mp hzs)), .cons hxz hrel⟩

theorem except_forM {f : α → Except ε Unit} : ∀ {xs : List α}, xs.forM f = .ok () ↔ ∀ x ∈ xs, f x = .ok ()
  | [] => ⟨fun _ _ h => (by cases h), fun _ => rfl⟩
  | x :: xs => by
    change (f x >>= fun _ => xs.forM f) = .ok () ↔ _
    rw [except_bind]
    constructor
    · rintro ⟨⟨⟩, hx, hxs⟩ y hy
      rcases List.mem_cons.mp hy with rfl | hy
      · exact hx
      · exact except_forM.mp hxs y hy
    · intro h
      exact ⟨(), h x List.mem_cons_self, except_forM.mpr fun y hy => h y (List.mem_cons_of_mem _ hy)⟩

/-- Whatever `x` gives, `y` gives as well. -/
def Refines (x y : Except ε α) : Prop :=
  ∀ a, x = .ok a → y = .ok a

theorem Refines.refl (x : Except ε α) : Refines x x :=
  fun _ h => h

theorem refines_error (e : ε) (x : Except ε α) : Refines (.error e) x := by
  intro a h
  cases h

theorem Refines.bind {x y : Except ε α} {f g : α → Except ε β} (h : Refines x y)
    (h' : ∀ a, Refines (f a) (g a)) : Refines (x >>= f) (y >>= g) := by
  intro b hb
  obtain ⟨a, ha, hb⟩ := except_bind.mp hb
  exact except_bind.mpr ⟨a, h a ha, h' a b hb⟩

theorem Refines.mapError {δ : Type} {x y : Except ε α} (h : Refines x y) (f : ε → δ) :
    Refines (x.mapError f) (y.mapError f) :=
  fun a ha => except_mapError.mpr (h a (except_mapError.mp ha))

theorem Refines.foldlM {f g : β → α → Except ε β} (h : ∀ b a, Refines (f b a) (g b a)) :
    ∀ (xs : List α) (b : β), Refines (xs.foldlM f b) (xs.foldlM g b)
  | [], b => .refl (pure b)
  | x :: xs, b => by
    rw [List.foldlM_cons, List.foldlM_cons]
    exact (h b x).bind fun b' => Refines.foldlM h xs b'

/-- On the values that are `valid`, `read` undoes `write`, and it gives nothing but those, from what `write`
makes of them. -/
def Inverts (read : β → Except ε α) (write : α → β) (valid : α → Prop) : Prop :=
  ∀ b a, read b = .ok a ↔ valid a ∧ write a = b

theorem inverts_of {read : β → Except ε α} {write : α → β} {valid : α → Prop}
    (hback : ∀ a, valid a → read (write a) = .ok a) (hread : ∀ b a, read b = .ok a → valid a ∧ write a = b) :
    Inverts read write valid := by
  intro b a
  constructor
  · exact hread b a
  · rintro ⟨hvalid, rfl⟩
    exact hback a hvalid

theorem Inverts.read_write {read : β → Except ε α} {write : α → β} {valid : α → Prop}
    (h : Inverts read write valid) {a : α} : read (write a) = .ok a ↔ valid a := by
  rw [h, and_iff_left rfl]

/-! ## Actions on a state -/

theorem estate_bind {x : EStateM ε σ α} {f : α → EStateM ε σ β} {s r : σ} {b : β} :
    (x >>= f) s = .ok b r ↔ ∃ a q, x s = .ok a q ∧ f a q = .ok b r := by
  change EStateM.bind x f s = .ok b r ↔ _
  unfold EStateM.bind
  cases x s with
  | error e q => exact ⟨fun h => (by cases h), fun ⟨_, _, h, _⟩ => (by cases h)⟩
  | ok a q => exact ⟨fun h => ⟨a, q, rfl, h⟩, fun ⟨_, _, h, h'⟩ => (by cases h; exact h')⟩

theorem estate_bind_of {x : EStateM ε σ α} (f : α → EStateM ε σ β) {s q : σ} {a : α} (h : x s = .ok a q) :
    (x >>= f) s = f a q := by
  change EStateM.bind x f s = _
  unfold EStateM.bind
  rw [h]

theorem estate_pure {s r : σ} {a b : α} :
    (pure a : EStateM ε σ α) s = .ok b r ↔ b = a ∧ r = s := by
  change EStateM.Result.ok a s = .ok b r ↔ _
  constructor
  · intro h
    cases h
    exact ⟨rfl, rfl⟩
  · rintro ⟨rfl, rfl⟩
    rfl

/-- Steps that leave the state are made one after the other. -/
theorem estate_mapM_of {f : α → EStateM ε σ β} {s : σ} {xs : List α} {ys : List β}
    (h : List.Forall₂ (fun x y => f x s = .ok y s) xs ys) : xs.mapM f s = .ok ys s := by
  induction h with
  | nil => rfl
  | cons hy _ ih =>
    rw [List.mapM_cons, estate_bind_of _ hy, estate_bind_of _ ih]
    rfl

/-! ## Optional values -/

/-- What follows from a relation follows where the relation holds of two optional values. -/
theorem optionRel_imp {R S : α → β → Prop} (himp : ∀ a b, R a b → S a b) {x : Option α} {y : Option β}
    (h : Option.Rel R x y) : Option.Rel S x y := by
  cases h with
  | none => exact .none
  | some hab => exact .some (himp _ _ hab)

/-! ## Readers -/

theorem reader_bind {x : StateT σ (Except ε) α} {f : α → StateT σ (Except ε) β} {s r : σ} {b : β} :
    (x >>= f) s = .ok (b, r) ↔ ∃ a q, x s = .ok (a, q) ∧ f a q = .ok (b, r) := by
  change (x s >>= fun p => f p.1 p.2) = .ok (b, r) ↔ _
  rw [except_bind]
  exact ⟨fun ⟨p, h, h'⟩ => ⟨p.1, p.2, h, h'⟩, fun ⟨a, q, h, h'⟩ => ⟨(a, q), h, h'⟩⟩

theorem reader_bind_of {x : StateT σ (Except ε) α} {f : α → StateT σ (Except ε) β} {s q : σ} {a : α}
    (h : x s = .ok (a, q)) : (x >>= f) s = f a q := by
  change (x s >>= fun p => f p.1 p.2) = f a q
  rw [h]
  rfl

theorem reader_pure {s r : σ} {a b : α} :
    (pure a : StateT σ (Except ε) α) s = .ok (b, r) ↔ b = a ∧ r = s := by
  change Except.ok (a, s) = .ok (b, r) ↔ _
  constructor
  · intro h
    cases h
    exact ⟨rfl, rfl⟩
  · rintro ⟨rfl, rfl⟩
    rfl

end Outcome

end ClassWeave
