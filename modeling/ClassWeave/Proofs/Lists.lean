import Mathlib.Data.List.Forall2
import Mathlib.Data.List.Induction

/-!
# Lists that go together

Lists whose members are related place by place (`List.Forall₂`), and lengths of lists that are put together of
others. Nothing here is about classes.
-/

namespace ClassWeave

namespace Lists

variable {α β γ : Type} {R : α → β → Prop} {S : β → γ → Prop}

/-! ## Related lists -/

theorem isEmpty_of_forall₂ {xs : List α} {ys : List β} (h : List.Forall₂ R xs ys) :
    xs.isEmpty = ys.isEmpty := by
  cases h <;> rfl

theorem getElem?_of_forall₂ : ∀ {xs : List α} {ys : List β} {place : Nat} {x : α},
    List.Forall₂ R xs ys → xs[place]? = some x → ∃ y, ys[place]? = some y ∧ R x y
  | _, _, 0, _, .cons hxy _, hx => by
    cases hx
    exact ⟨_, rfl, hxy⟩
  | _ :: xs, _ :: ys, place + 1, x, .cons _ h, hx => @getElem?_of_forall₂ xs ys place x h hx

theorem exists_mem_of_forall₂ {xs : List α} {ys : List β} (h : List.Forall₂ R xs ys) {x : α} (hx : x ∈ xs) :
    ∃ y ∈ ys, R x y := by
  obtain ⟨place, hplace⟩ := List.mem_iff_getElem?.mp hx
  obtain ⟨y, hy, hxy⟩ := getElem?_of_forall₂ h hplace
  exact ⟨y, List.mem_of_getElem? hy, hxy⟩

/-- What can be found for each member of a list can be found for the list. -/
theorem exists_forall₂ {xs : List α} (h : ∀ x ∈ xs, ∃ y, R x y) : ∃ ys, List.Forall₂ R xs ys := by
  induction xs with
  | nil => exact ⟨[], .nil⟩
  | cons x xs ih =>
    obtain ⟨y, hy⟩ := h x List.mem_cons_self
    obtain ⟨ys, hys⟩ := ih fun x hx => h x (List.mem_cons_of_mem _ hx)
    exact ⟨y :: ys, .cons hy hys⟩

theorem forall₂_comp : ∀ {xs : List α} {ys : List β} {zs : List γ}, List.Forall₂ R xs ys →
    List.Forall₂ S ys zs → List.Forall₂ (fun x z => ∃ y, R x y ∧ S y z) xs zs
  | [], [], [], .nil, .nil => .nil
  | _ :: _, _ :: _, _ :: _, .cons h hs, .cons h' hs' => .cons ⟨_, h, h'⟩ (forall₂_comp hs hs')

/-- What a list is related to through another list is given by a function if this is so for each of its members. -/
theorem eq_map_of_forall₂ {f : α → γ} : ∀ {xs : List α} {ys : List β} {zs : List γ},
    (∀ x ∈ xs, ∀ y z, R x y → S y z → z = f x) → List.Forall₂ R xs ys → List.Forall₂ S ys zs → zs = xs.map f
  | [], _, _, _, .nil, .nil => rfl
  | x :: _, _, _, hstep, .cons hxy hxys, .cons hyz hyzs => by
    rw [List.map_cons, hstep x List.mem_cons_self _ _ hxy hyz,
      eq_map_of_forall₂ (fun x' hx' => hstep x' (List.mem_cons_of_mem x hx')) hxys hyzs]

/-! ## Lists put together -/

theorem flatten_of_forall₂ {f : β → List α} {parts : List (List α)} {values : List β}
    (h : List.Forall₂ (fun part b => part = f b) parts values) : parts.flatten = values.flatMap f := by
  induction h with
  | nil => rfl
  | cons hpart _ ih => rw [List.flatten_cons, List.flatMap_cons, hpart, ih]

theorem length_flatMap_const {f : α → List β} {n : Nat} (h : ∀ a, (f a).length = n) :
    ∀ xs : List α, (xs.flatMap f).length = n * xs.length
  | [] => rfl
  | x :: xs => by
    rw [List.flatMap_cons, List.length_append, h, length_flatMap_const h xs, List.length_cons, Nat.mul_succ]
    omega

/-- A list that is put together with its positions is put together position by position. -/
theorem flatMap_zipIdx (f : α × Nat → List β) (xs : List α) :
    xs.zipIdx.flatMap f = (List.range xs.length).flatMap fun k => (xs[k]?).elim [] fun x => f (x, k) := by
  induction xs using List.reverseRecOn with
  | nil => rfl
  | append_singleton xs x ih =>
    rw [List.zipIdx_append, List.flatMap_append, ih, List.length_append, List.length_singleton, List.range_succ,
      List.flatMap_append]
    congr 1
    · refine List.flatMap_congr fun k hk => ?_
      rw [List.getElem?_append_left (List.mem_range.mp hk)]
    · simp

end Lists

end ClassWeave
