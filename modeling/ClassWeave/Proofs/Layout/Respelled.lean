import ClassWeave.Proofs.Event.Program
import ClassWeave.Proofs.Layout.Determined

/-!
# Laid-out code as a program

Laid-out code that is read again is what was laid out, but for the conditional branches that were widened: each
of them is the negated branch over a jump, which moves everything behind it by one position (`Layout.place`). So
positions of the code that is read are not those of the code that was laid out, and instructions are respelled
for them (`Layout.respelled`).
-/

namespace ClassWeave

/-! ## Places -/

namespace Layout

/-- The position that an instruction has when the code is read again: every branch before it that was widened
takes two. -/
def place (widened : List Nat) (position : Nat) : Nat :=
  position + (List.range position).countP fun k => decide (k ∈ widened)

variable {widened : List Nat}

theorem place_succ (position : Nat) :
    place widened (position + 1) = place widened position + if position ∈ widened then 2 else 1 := by
  unfold place
  rw [List.range_succ, List.countP_append, List.countP_singleton]
  by_cases hmem : position ∈ widened
  · rw [if_pos (decide_eq_true hmem), if_pos hmem]
    omega
  · rw [if_neg (by rw [decide_eq_true_eq]; exact hmem), if_neg hmem]
    omega

theorem place_narrow {k : Nat} (hk : k ∉ widened) : place widened (k + 1) = place widened k + 1 := by
  rw [place_succ, if_neg hk]

theorem place_wide {k : Nat} (hk : k ∈ widened) : place widened (k + 1) = place widened k + 2 := by
  rw [place_succ, if_pos hk]

theorem place_nil (position : Nat) : place [] position = position := by
  unfold place
  simp

theorem place_lt {j k : Nat} (h : j < k) : place widened j < place widened k := by
  induction k with
  | zero => omega
  | succ k ih =>
    have hstep : place widened k < place widened (k + 1) := by
      rw [place_succ]
      split_ifs <;> omega
    rcases Nat.lt_succ_iff_lt_or_eq.mp h with hlt | rfl
    · exact Nat.lt_trans (ih hlt) hstep
    · exact hstep

theorem place_le {j k : Nat} (h : j ≤ k) : place widened j ≤ place widened k := by
  rcases Nat.lt_or_eq_of_le h with hlt | rfl
  · exact Nat.le_of_lt (place_lt hlt)
  · exact Nat.le_refl _

theorem le_place (position : Nat) : position ≤ place widened position :=
  Nat.le_add_right _ _

theorem place_zero (widened : List Nat) : place widened 0 = 0 := rfl

theorem place_inj {j k : Nat} (h : place widened j = place widened k) : j = k := by
  rcases Nat.lt_trichotomy j k with hlt | heq | hlt
  · exact absurd h (Nat.ne_of_lt (place_lt hlt))
  · exact heq
  · exact absurd h (Nat.ne_of_gt (place_lt hlt))

/-- The second of two positions that a wide branch takes is the place of nothing. -/
theorem place_ne_wide {j k : Nat} (hk : k ∈ widened) : place widened j ≠ place widened k + 1 := by
  intro h
  have hsucc := @place_succ widened k
  rw [if_pos hk] at hsucc
  rcases Nat.lt_or_ge k j with hlt | hge
  · have hbehind := @place_le widened _ _ (Nat.succ_le_of_lt hlt)
    rw [Nat.succ_eq_add_one] at hbehind
    omega
  · have hbefore := @place_le widened _ _ hge
    omega

/-- Each position is the place of an instruction, or right behind that of a wide one. -/
theorem place_cases {p n : Nat} (hp : p < place widened n) : ∃ k < n, p = place widened k ∨
    k ∈ widened ∧ p = place widened k + 1 := by
  induction n with
  | zero => exact absurd hp (Nat.not_lt_zero _)
  | succ n ih =>
    rcases Nat.lt_or_ge p (place widened n) with hlt | hge
    · obtain ⟨k, hk, hcases⟩ := ih hlt
      exact ⟨k, Nat.lt_succ_of_lt hk, hcases⟩
    · refine ⟨n, Nat.lt_succ_self n, ?_⟩
      rw [place_succ] at hp
      split_ifs at hp with hwide
      · rcases Nat.eq_or_lt_of_le hge with heq | hlt
        · exact .inl heq.symm
        · exact .inr ⟨hwide, by omega⟩
      · exact .inl (by omega)

/-- What is put together of places is put together of the positions that they are places of. -/
theorem flatMap_place {α : Type} {at' at'' : Nat → List α} : ∀ {count : Nat},
    (∀ k < count, k ∉ widened → at' (place widened k) = at'' k) →
      (∀ k < count, k ∈ widened → at' (place widened k) ++ at' (place widened k + 1) = at'' k) →
        (List.range (place widened count)).flatMap at' = (List.range count).flatMap at''
  | 0, _, _ => rfl
  | count + 1, hnarrow, hwide => by
    have ih := flatMap_place (fun k hk => hnarrow k (Nat.lt_succ_of_lt hk)) fun k hk =>
      hwide k (Nat.lt_succ_of_lt hk)
    rw [place_succ, List.range_succ, List.flatMap_append, List.flatMap_singleton, ← ih]
    by_cases hmem : count ∈ widened
    · rw [if_pos hmem, ← hwide count (Nat.lt_succ_self _) hmem, ← List.append_assoc, List.range_succ,
        List.range_succ, List.flatMap_append, List.flatMap_append, List.flatMap_singleton, List.flatMap_singleton]
    · rw [if_neg hmem, ← hnarrow count (Nat.lt_succ_self _) hmem, List.range_succ, List.flatMap_append,
        List.flatMap_singleton]

end Layout

/-- What an instruction is when the code is read again. -/
def CodeOp.respelled (widened : List Nat) (position : Nat) : CodeOp Nat → List (CodeOp Nat)
  | .branch (.conditional condition target) =>
    if position ∈ widened then
      [.branch (.conditional condition.negate (Layout.place widened (position + 1))),
        .branch (.goto (Layout.place widened target))]
    else
      [.branch (.conditional condition (Layout.place widened target))]
  | op => [op.mapTargets (Layout.place widened)]

theorem CodeOp.respelled_conditional (widened : List Nat) (position : Nat) (condition : Condition)
    (target : Nat) : CodeOp.respelled widened position (.branch (.conditional condition target)) =
      if position ∈ widened then
        [.branch (.conditional condition.negate (Layout.place widened (position + 1))),
          .branch (.goto (Layout.place widened target))]
      else
        [.branch (.conditional condition (Layout.place widened target))] :=
  rfl

theorem CodeOp.respelled_other {widened : List Nat} {position : Nat} {op : CodeOp Nat}
    (h : ¬ ∃ condition target, op = .branch (.conditional condition target)) :
    op.respelled widened position = [op.mapTargets (Layout.place widened)] := by
  unfold CodeOp.respelled
  split
  · exact absurd ⟨_, _, rfl⟩ h
  · rfl

/-- An instruction stands in some code, with its targets moved. A conditional branch may be spelled as the
negated branch over a jump. -/
inductive CodeOp.Stands (ops : List (CodeOp Nat)) (f : Nat → Nat) (position : Nat) : CodeOp Nat → Prop
  | same {op : CodeOp Nat} : ops[position]? = some (op.mapTargets f) → Stands ops f position op
  | widened {condition : Condition} {target : Nat} :
    ops[position]? = some (.branch (.conditional condition.negate (position + 2))) →
      ops[position + 1]? = some (.branch (.goto (f target))) →
        Stands ops f position (.branch (.conditional condition target))

/-- What stands with moved targets stands where the targets are moved twice. -/
theorem CodeOp.Stands.of_mapTargets {ops : List (CodeOp Nat)} {f g : Nat → Nat} {position : Nat}
    {op : CodeOp Nat} (h : (op.mapTargets g).Stands ops f position) : op.Stands ops (f ∘ g) position := by
  generalize hop : op.mapTargets g = moved at h
  cases h with
  | same h =>
    subst hop
    rw [CodeOp.mapTargets_mapTargets] at h
    exact .same h
  | @widened condition target hbranch hjump =>
    cases op with
    | plain instruction => cases hop
    | branch b =>
      cases b with
      | conditional condition' target' =>
        cases hop
        exact .widened hbranch hjump
      | _ => cases hop

namespace Layout

/-- What code is when it is read again. -/
def respelled (widened : List Nat) (ops : List (CodeOp Nat)) : List (CodeOp Nat) :=
  ops.zipIdx.flatMap fun entry => entry.1.respelled widened entry.2

theorem respelled_nil (ops : List (CodeOp Nat)) : respelled [] ops = ops := by
  have hplace : place [] = id := funext place_nil
  have hsame : ∀ entry : CodeOp Nat × Nat, entry.1.respelled [] entry.2 = [entry.1] := by
    rintro ⟨op, position⟩
    by_cases hconditional : ∃ condition target, op = .branch (.conditional condition target)
    · obtain ⟨condition, target, rfl⟩ := hconditional
      rw [CodeOp.respelled_conditional, if_neg List.not_mem_nil, hplace]
      rfl
    · rw [CodeOp.respelled_other hconditional, hplace, CodeOp.mapTargets_id]
  unfold respelled
  rw [List.flatMap_congr fun entry _ => hsame entry, ← List.map_eq_flatMap, List.zipIdx_map_fst]

/-! ## Where instructions begin -/

variable {items : List LayoutItem} {pool : Pool} {ops : List (CodeOp Nat)} {widened : List Nat}

/-- What was widened is a conditional branch. -/
theorem Encoding.exists_wide (h : Encoding pool ops items) {k : Nat} (hwidened : k ∈ (ofItems items).widened) :
    ∃ condition target, ops[k]? = some (.branch (.conditional condition target)) := by
  obtain ⟨item, hget, hcond⟩ := mem_widened.mp hwidened
  have hk := (List.getElem?_eq_some_iff.mp hget).1
  rw [length_settled] at hk
  obtain ⟨op, item', wide', hop, hget', hrel⟩ := h.entry hk
  rw [hget] at hget'
  cases hget'
  rw [hop]
  cases op with
  | plain instruction =>
    cases item with
    | encoded bytes => cases hcond
    | branch b => cases hrel
  | branch b =>
    cases item with
    | encoded bytes => cases hrel
    | branch b' =>
      cases hrel
      -- of all branches the layout widens conditional ones only
      cases b with
      | conditional condition target => exact ⟨condition, target, rfl⟩
      | _ => cases hcond

theorem Encoding.exists_conditional (h : Encoding pool ops items) {k : Nat} {op : CodeOp Nat}
    (hop : ops[k]? = some op) (hwidened : k ∈ (ofItems items).widened) : ∃ condition target, op = .branch
    (.conditional condition target) := by
  obtain ⟨condition, target, hconditional⟩ := h.exists_wide hwidened
  exact ⟨condition, target, Option.some.inj (hop.symm.trans hconditional)⟩

/-- At the place of an instruction stand as many as it takes positions, and the first begins at its offset. -/
theorem Encoding.placed_cons (h : Encoding pool ops items) {k : Nat} {op : CodeOp Nat}
    (hop : ops[k]? = some op) : ∃ op' others, op.placed
    (ofItems items) k = ((ofItems items).offset k, op') :: others ∧
      (op.placed (ofItems items) k).length = if k ∈ (ofItems items).widened then 2 else 1 := by
  by_cases hwidened : k ∈ (ofItems items).widened
  · obtain ⟨condition, target, rfl⟩ := h.exists_conditional hop hwidened
    rw [placed_conditional, if_pos hwidened, if_pos hwidened]
    exact ⟨_, _, rfl, rfl⟩
  · have single : op.placed (ofItems items) k =
        [((ofItems items).offset k, op.mapTargets (ofItems items).offset)] := by
      cases op with
      | plain instruction => rfl
      | branch b =>
        cases b with
        | conditional condition target => exact if_neg hwidened
        | _ => rfl
    rw [single, if_neg hwidened]
    exact ⟨_, _, rfl, rfl⟩

/-- Parts of a list begin at the places that their lengths add up to. -/
theorem getElem?_flatMap_place {parts : CodeOp Nat × Nat → List (Nat × CodeOp Nat)} {at' : Nat → Nat}
    {last : Nat} : ∀ {xs : List (CodeOp Nat)} {i k : Nat}, k ≤ xs.length → at' (i + xs.length) = last →
      (∀ j op, xs[j]? = some op → ∃ op' others, parts (op, i + j) = (at' (i + j), op') :: others ∧
        (parts (op, i + j)).length = if i + j ∈ widened then 2 else 1) →
      (((xs.zipIdx i).flatMap parts).map Prod.fst ++ [last])[place widened (i + k) - place widened i]? =
        some (at' (i + k))
  | [], i, 0, _, hlast, _ => by
    rw [Nat.add_zero, Nat.sub_self]
    exact congrArg some hlast.symm
  | op :: ops, i, 0, _, _, hparts => by
    obtain ⟨op', others, heq, -⟩ := hparts 0 op rfl
    rw [Nat.add_zero] at heq
    rw [Nat.add_zero, Nat.sub_self, List.zipIdx_cons, List.flatMap_cons, heq]
    rfl
  | op :: ops, i, k + 1, hk, hlast, hparts => by
    -- the parts of the first instruction are passed over, two if it was widened
    obtain ⟨op', others, -, hlen⟩ := hparts 0 op rfl
    have ih := @getElem?_flatMap_place parts at' last ops (i + 1) k (Nat.le_of_succ_le_succ hk)
      (by rw [← hlast, List.length_cons, Nat.add_right_comm]; rfl) (fun j op hop => by
        have := hparts (j + 1) op hop
        rwa [show i + (j + 1) = i + 1 + j by omega] at this)
    rw [Nat.add_zero] at hlen
    have hnext := @place_succ widened i
    have hle : place widened (i + 1) ≤ place widened (i + 1 + k) := by
      rcases Nat.eq_zero_or_pos k with rfl | hpos
      · exact Nat.le_refl _
      · exact Nat.le_of_lt (place_lt (by omega))
    rw [List.zipIdx_cons, List.flatMap_cons, List.map_append, List.append_assoc,
      List.getElem?_append_right (by rw [List.length_map, hlen, show i + (k + 1) = i + 1 + k by omega]; omega),
      List.length_map, hlen, show i + (k + 1) = i + 1 + k by omega, ← ih]
    congr 1
    omega

/-- Instructions that are read begin where they were laid out. -/
theorem Encoding.getElem?_starts (h : Encoding pool ops items) {k : Nat} (hk : k ≤ ops.length) :
    (Code.starts (ofItems items).code ((ofItems items).placedOps ops))[place (ofItems items).widened k]? =
      some ((ofItems items).offset k) := by
  have hlast : (ofItems items).offset (0 + ops.length) = (ofItems items).code.length := by
    rw [Nat.zero_add, h.length_eq, offset_length]
  have hget := @getElem?_flatMap_place (ofItems items).widened
    (fun entry => entry.1.placed (ofItems items) entry.2)
    (ofItems items).offset _ ops 0 k hk hlast fun j op hop => by
      rw [Nat.zero_add]
      exact h.placed_cons hop
  rw [Nat.zero_add] at hget
  exact hget

/-! ## Instructions that are read again -/

/-- An instruction with offsets is read as one with positions. -/
abbrev ReadAt (starts : List Nat) : CodeOp Nat → CodeOp Nat → Prop :=
  CodeOp.Retargeted fun offset position => starts[position]? = some offset

/-- What stands at the place of an instruction is read as what the instruction is respelled as. -/
theorem Encoding.readAt_respelled (h : Encoding pool ops items) {k : Nat} {op : CodeOp Nat}
    (hop : ops[k]? = some op) (htargets : ∀ t ∈ op.targets, t ≤ ops.length) :
    List.Forall₂ (fun placed found =>
    ReadAt (Code.starts (ofItems items).code ((ofItems items).placedOps ops)) placed.2 found)
      (op.placed (ofItems items) k) (op.respelled (ofItems items).widened k) := by
  have hstarts : ∀ t ∈ op.targets, (Code.starts (ofItems items).code ((ofItems items).placedOps ops))[
      place (ofItems items).widened t]? = some ((ofItems items).offset t) :=
    fun t ht => h.getElem?_starts (htargets t ht)
  -- what was not widened is read with its targets at their places
  have hmap : ReadAt (Code.starts (ofItems items).code ((ofItems items).placedOps ops))
      (op.mapTargets (ofItems items).offset) (op.mapTargets (place (ofItems items).widened)) := by
    have hread : op.Retargeted (fun t position =>
        (Code.starts (ofItems items).code ((ofItems items).placedOps ops))[position]? =
        some ((ofItems items).offset t)) (op.mapTargets (place (ofItems items).widened)) :=
      CodeOp.retargeted_of_targets hstarts
    refine ((op.retargeted_mapTargets _).flip.comp hread).imp ?_
    rintro _ position ⟨t, rfl, hposition⟩
    exact hposition
  by_cases hconditional : ∃ condition target, op = .branch (.conditional condition target)
  · obtain ⟨condition, target, rfl⟩ := hconditional
    rw [placed_conditional, CodeOp.respelled_conditional]
    split_ifs with hwidened
    · refine .cons (.branch (.conditional ?_))
        (.cons (.branch (.jump (hstarts target (List.mem_singleton_self _)))) .nil)
      rw [← h.offset_widened hop hwidened]
      exact h.getElem?_starts (List.getElem?_eq_some_iff.mp hop).1
    · exact .cons hmap .nil
  · rw [placed_other _ hconditional, CodeOp.respelled_other hconditional]
    exact .cons hmap .nil

/-- Laid-out code that is read again is what was laid out, respelled. -/
theorem Encoding.eq_respelled (h : Encoding pool ops items)
    (htargets : ∀ op ∈ ops, ∀ t ∈ op.targets, t ≤ ops.length)
    (hd : Code.Decoded pool (ofItems items).code ((ofItems items).placedOps ops)) {found : List (CodeOp Nat)}
    (hfound : List.Forall₂
      (fun placed found => ReadAt (Code.starts (ofItems items).code ((ofItems items).placedOps ops))
      placed.2 found) ((ofItems items).placedOps ops) found) : found =
      respelled (ofItems items).widened ops := by
  have hrespelled : List.Forall₂
      (fun placed found => ReadAt (Code.starts (ofItems items).code ((ofItems items).placedOps ops))
      placed.2 found) ((ofItems items).placedOps ops) (respelled (ofItems items).widened ops) := by
    have hsame : List.Forall₂ (fun x y => x = y ∧ x ∈ ops.zipIdx) ops.zipIdx ops.zipIdx :=
      List.forall₂_same.mpr fun x hx => ⟨rfl, hx⟩
    refine List.rel_flatMap hsame ?_
    rintro ⟨op, k⟩ _ ⟨rfl, hmem⟩
    have hop := List.mk_mem_zipIdx_iff_getElem?.mp hmem
    exact h.readAt_respelled hop (htargets op (List.mem_of_getElem? hop))
  -- an offset starts one instruction, so what is read of it is determined
  have hunique : Relator.RightUnique fun (placed : Nat × CodeOp Nat) found =>
      ReadAt (Code.starts (ofItems items).code ((ofItems items).placedOps ops)) placed.2 found := by
    intro placed op op' hop hop'
    refine CodeOp.Retargeted.unique (fun offset i j hi hj => ?_) hop' hop
    exact hd.starts_inj hj hi
  exact List.right_unique_forall₂' hunique hfound hrespelled

/-! ## Code that is read again -/

/-- Laid-out code that is read. -/
structure ReadCode (pool : Pool) (code : Bytes) (ops : List (CodeOp Nat)) (items : List LayoutItem)
    (decoded : List (Nat × CodeOp Nat)) : Prop where
  wellFormed : pool.WellFormed
  encoding : Encoding pool ops items
  code_eq : code = (ofItems items).code
  length_le : (ofItems items).code.length ≤ CodeAttribute.maxCodeLength
  writable : ∀ op ∈ ops, op.IsWritable
  targets : ∀ op ∈ ops, ∀ t ∈ op.targets, t ≤ ops.length
  decode : Code.decode code pool = .ok decoded

namespace ReadCode

variable {code : Bytes} {decoded : List (Nat × CodeOp Nat)} (h : ReadCode pool code ops items decoded)

include h

theorem decoded_ok : Code.Decoded pool code decoded :=
  Code.decode_ok h.wellFormed h.decode

/-- The code is read as what was laid out. -/
theorem decoded_eq : decoded = (ofItems items).placedOps ops := by
  have hlength : CodeAttribute.maxCodeLength = 65535 := rfl
  refine h.encoding.eq_of_decode ?_ (fun b hb => h.writable _ hb) h.targets (h.code_eq ▸ h.decode)
  have := h.length_le
  omega

/-- All offsets up to the end of the code fit in 16 bits. -/
theorem offset_short {k : Nat} (hk : k ≤ ops.length) : (ofItems items).offset k < 2 ^ 16 := by
  have hlength : CodeAttribute.maxCodeLength = 65535 := rfl
  have hle : (ofItems items).offset k ≤ (ofItems items).code.length := by
    rcases Nat.lt_or_eq_of_le hk with hlt | rfl
    · exact Nat.le_of_lt (h.encoding.offset_inside hlt)
    · rw [h.encoding.length_eq, offset_length]
  have := h.length_le
  omega

theorem toNat_offset16 {k : Nat} (hk : k ≤ ops.length) :
    ((ofItems items).offset16 k).toNat = (ofItems items).offset k :=
  Interning.toNat_offset16 (h.offset_short hk)

theorem offset_le {j k : Nat} (hjk : j ≤ k) (hk : k ≤ ops.length) :
    (ofItems items).offset j ≤ (ofItems items).offset k := by
  rcases Nat.lt_or_eq_of_le hjk with hlt | rfl
  · exact Nat.le_of_lt (h.encoding.offset_lt hlt (h.encoding.length_eq ▸ hk))
  · exact Nat.le_refl _

theorem offset_inj {j k : Nat} (hj : j ≤ ops.length) (hk : k ≤ ops.length)
    (heq : (ofItems items).offset j = (ofItems items).offset k) : j = k := by
  have hitems := h.encoding.length_eq
  rcases Nat.lt_trichotomy j k with hlt | hsame | hgt
  · exact absurd heq (Nat.ne_of_lt (h.encoding.offset_lt hlt (hitems ▸ hk)))
  · exact hsame
  · exact absurd heq (Nat.ne_of_gt (h.encoding.offset_lt hgt (hitems ▸ hj)))

/-- What was laid out is read at its place. -/
theorem starts {k : Nat} (hk : k ≤ ops.length) :
    (Code.starts code decoded)[place (ofItems items).widened k]? = some ((ofItems items).offset k) := by
  rw [h.code_eq, h.decoded_eq]
  exact h.encoding.getElem?_starts hk

/-- An instruction begins at its place, which is not the end of the code. -/
theorem begins {k : Nat} (hk : k < ops.length) :
    (decoded.map Prod.fst)[place (ofItems items).widened k]? = some ((ofItems items).offset k) := by
  have hend := Code.Decoded.le_of_starts (h.starts (Nat.le_refl _))
  have hlt : place (ofItems items).widened k < (decoded.map Prod.fst).length := by
    rw [List.length_map]
    exact Nat.lt_of_lt_of_le (place_lt hk) hend
  rw [← h.starts (Nat.le_of_lt hk)]
  exact (List.getElem?_append_left hlt).symm

theorem eq_place {k i : Nat} (hk : k ≤ ops.length)
    (hi : (Code.starts code decoded)[i]? = some ((ofItems items).offset k)) :
    i = place (ofItems items).widened k :=
  h.decoded_ok.starts_inj hi (h.starts hk)

/-- Instructions are read as what was laid out, respelled. -/
theorem ops_eq {found : List (CodeOp Nat)}
    (hfound : List.Forall₂ (fun op found => ReadAt (Code.starts code decoded) op.2 found) decoded found) :
    found = respelled (ofItems items).widened ops := by
  have hd := h.decoded_ok
  rw [h.decoded_eq, h.code_eq] at hd hfound
  exact h.encoding.eq_respelled h.targets hd hfound

end ReadCode

/-! ## Instructions at their places -/

/-- An instruction takes two positions if it was widened. -/
theorem Encoding.length_respelled_op (h : Encoding pool ops items) {k : Nat} {op : CodeOp Nat}
    (hop : ops[k]? = some op) : (op.respelled (ofItems items).widened k).length = if k ∈
    (ofItems items).widened then 2 else 1 := by
  by_cases hconditional : ∃ condition target, op = .branch (.conditional condition target)
  · obtain ⟨condition, target, rfl⟩ := hconditional
    rw [CodeOp.respelled_conditional]
    split_ifs <;> rfl
  · rw [CodeOp.respelled_other hconditional,
      if_neg fun hwidened => hconditional (h.exists_conditional hop hwidened)]
    rfl

/-- The parts of a list before and behind an instruction are respelled each for itself. -/
theorem respelled_split (widened : List Nat) {k : Nat} {op : CodeOp Nat} (hop : ops[k]? = some op) :
    respelled widened ops = respelled widened (ops.take k) ++
      (op.respelled widened k ++ ((ops.drop (k + 1)).zipIdx (k + 1)).flatMap fun entry =>
      entry.1.respelled widened entry.2) := by
  obtain ⟨hk, rfl⟩ := List.getElem?_eq_some_iff.mp hop
  have hsplit : ops = ops.take k ++ ops[k] :: ops.drop (k + 1) := by
    rw [← List.drop_eq_getElem_cons hk, List.take_append_drop]
  have hlength : (ops.take k).length = k := by simp [Nat.le_of_lt hk]
  unfold respelled
  conv_lhs => rw [hsplit]
  rw [List.zipIdx_append, List.flatMap_append, List.zipIdx_cons, List.flatMap_cons, hlength, Nat.zero_add]

theorem Encoding.length_respelled_take (h : Encoding pool ops items) : ∀ {k : Nat}, k ≤ ops.length →
    (respelled (ofItems items).widened (ops.take k)).length = place (ofItems items).widened k
  | 0, _ => by simp [respelled, place]
  | k + 1, hk => by
    have hop := List.getElem?_eq_getElem (Nat.lt_of_succ_le hk)
    have hlast : (ops.take (k + 1))[k]? = some ops[k] := by simp [hop]
    have hprefix : (ops.take (k + 1)).take k = ops.take k := by simp [List.take_take]
    have hrest : (ops.take (k + 1)).drop (k + 1) = [] := by simp
    rw [respelled_split _ hlast, hprefix, hrest, List.length_append,
      h.length_respelled_take (Nat.le_of_succ_le hk), place_succ]
    simp [h.length_respelled_op hop]

/-- What an instruction is respelled as stands at its place. -/
theorem Encoding.getElem?_respelled (h : Encoding pool ops items) {k : Nat} {op : CodeOp Nat}
    (hop : ops[k]? = some op) {d : Nat} {op' : CodeOp Nat}
    (hd : (op.respelled (ofItems items).widened k)[d]? = some op') :
    (respelled (ofItems items).widened ops)[place (ofItems items).widened k + d]? = some op' := by
  have hlength := h.length_respelled_take (Nat.le_of_lt (List.getElem?_eq_some_iff.mp hop).1)
  rw [respelled_split _ hop, List.getElem?_append_right (by omega), hlength, Nat.add_sub_cancel_left,
    List.getElem?_append_left (List.getElem?_eq_some_iff.mp hd).1]
  exact hd

/-- Where nothing was widened, an instruction stands at its place as it is. -/
theorem Encoding.getElem?_narrow (h : Encoding pool ops items) {k : Nat} {op : CodeOp Nat}
    (hop : ops[k]? = some op) (hnarrow : k ∉ (ofItems items).widened) :
    (respelled (ofItems items).widened ops)[place (ofItems items).widened k]? =
      some (op.mapTargets (place (ofItems items).widened)) := by
  have hparts : op.respelled (ofItems items).widened k = [op.mapTargets (place (ofItems items).widened)] := by
    by_cases hconditional : ∃ condition target, op = .branch (.conditional condition target)
    · obtain ⟨condition, target, rfl⟩ := hconditional
      exact if_neg hnarrow
    · exact CodeOp.respelled_other hconditional
  exact h.getElem?_respelled (d := 0) hop (by rw [hparts]; rfl)

/-- A conditional branch that was widened is the negated branch over a jump. -/
theorem Encoding.getElem?_wide (h : Encoding pool ops items) {k : Nat} {condition : Condition} {target : Nat}
    (hop : ops[k]? = some (.branch (.conditional condition target))) (hwidened : k ∈ (ofItems items).widened) :
    (respelled (ofItems items).widened ops)[place (ofItems items).widened k]? =
        some (.branch (.conditional condition.negate (place (ofItems items).widened k + 2))) ∧
      (respelled (ofItems items).widened ops)[place (ofItems items).widened k + 1]? =
        some (.branch (.goto (place (ofItems items).widened target))) := by
  have hparts := CodeOp.respelled_conditional (ofItems items).widened k condition target
  rw [if_pos hwidened, place_succ, if_pos hwidened] at hparts
  constructor
  · exact h.getElem?_respelled (d := 0) hop (by rw [hparts]; rfl)
  · exact h.getElem?_respelled (d := 1) hop (by rw [hparts]; rfl)

theorem Encoding.length_respelled (h : Encoding pool ops items) :
    (respelled (ofItems items).widened ops).length = place (ofItems items).widened ops.length := by
  have hlength := h.length_respelled_take (Nat.le_refl ops.length)
  rwa [List.take_length] at hlength

/-- What may stand at a position of code that is read again: an instruction, or one of the two that a wide
branch has become. -/
inductive RespelledAt (widened : List Nat) (ops : List (CodeOp Nat)) (p : Nat) (op' : CodeOp Nat) : Prop
  | narrow (k : Nat) (op : CodeOp Nat) : ops[k]? = some op → k ∉ widened → p = place widened k →
    op' = op.mapTargets (place widened) → RespelledAt widened ops p op'
  | negated (k : Nat) (condition : Condition) (target : Nat) :
    ops[k]? = some (.branch (.conditional condition target)) → k ∈ widened → p = place widened k →
      op' = .branch (.conditional condition.negate (place widened (k + 1))) → RespelledAt widened ops p op'
  | jump (k : Nat) (condition : Condition) (target : Nat) :
    ops[k]? = some (.branch (.conditional condition target)) → k ∈ widened → p = place widened k + 1 →
      op' = .branch (.goto (place widened target)) → RespelledAt widened ops p op'

/-- Nothing else stands in the code. -/
theorem Encoding.respelledAt (h : Encoding pool ops items) {p : Nat} {op' : CodeOp Nat}
    (hop' : (respelled (ofItems items).widened ops)[p]? = some op') :
    RespelledAt (ofItems items).widened ops p op' := by
  have hp := (List.getElem?_eq_some_iff.mp hop').1
  rw [h.length_respelled] at hp
  obtain ⟨k, hk, hcases⟩ := place_cases hp
  have hop : ops[k]? = some ops[k] := List.getElem?_eq_getElem hk
  by_cases hwide : k ∈ (ofItems items).widened
  · obtain ⟨condition, target, hop⟩ := h.exists_wide hwide
    obtain ⟨hbranch, hjump⟩ := h.getElem?_wide hop hwide
    rcases hcases with rfl | ⟨-, rfl⟩
    · refine .negated k condition target hop hwide rfl ?_
      rw [place_succ, if_pos hwide]
      exact Option.some.inj (hop'.symm.trans hbranch)
    · exact .jump k condition target hop hwide rfl (Option.some.inj (hop'.symm.trans hjump))
  · rcases hcases with rfl | ⟨hwide', -⟩
    · exact .narrow k _ hop hwide rfl (Option.some.inj (hop'.symm.trans (h.getElem?_narrow hop hwide)))
    · exact absurd hwide' hwide

/-- Targets are places of targets, or of what a wide branch skips to. -/
theorem RespelledAt.target {p : Nat} {op' : CodeOp Nat} (h : RespelledAt widened ops p op') {t : Nat}
    (ht : t ∈ op'.targets) :
    ∃ j, t = place widened j ∧ ((∃ op ∈ ops, j ∈ op.targets) ∨ ∃ k ∈ widened, j = k + 1) := by
  cases h with
  | narrow k op hop _ _ heq =>
    rw [heq, CodeOp.targets_mapTargets] at ht
    obtain ⟨j, hj, rfl⟩ := List.mem_map.mp ht
    exact ⟨j, rfl, .inl ⟨op, List.mem_of_getElem? hop, hj⟩⟩
  | negated k condition target hop hwide _ heq =>
    rw [heq] at ht
    exact ⟨k + 1, List.mem_singleton.mp ht, .inr ⟨k, hwide, rfl⟩⟩
  | jump k condition target hop hwide _ heq =>
    rw [heq] at ht
    exact ⟨target, List.mem_singleton.mp ht, .inl ⟨_, List.mem_of_getElem? hop, List.mem_singleton_self _⟩⟩

/-- An instruction stands at its place. -/
theorem Encoding.stands (h : Encoding pool ops items) {k : Nat} {op : CodeOp Nat} (hop : ops[k]? = some op) :
    op.Stands (respelled (ofItems items).widened ops) (place (ofItems items).widened)
    (place (ofItems items).widened k) := by
  by_cases hwidened : k ∈ (ofItems items).widened
  · obtain ⟨condition, target, rfl⟩ := h.exists_conditional hop hwidened
    obtain ⟨hbranch, hjump⟩ := h.getElem?_wide hop hwidened
    exact .widened hbranch hjump
  · exact .same (h.getElem?_narrow hop hwidened)

end Layout

end ClassWeave
