import ClassWeave.Proofs.Frame.Order
import ClassWeave.Proofs.Hierarchy.Height

/-!
# The weight of a frame

Every type has a weight that a merge which changes it lowers, and the weight of a frame adds up those of its types.
So a merge either leaves a frame as it is or makes it lighter. Where a frame hints at a class, all classes but that
one weigh the same: a merge goes to the hint at once.
-/

namespace ClassWeave

open VerificationType

namespace VerificationType

/-- The weight of a type; `ceiling` is that of `null`, which is above all classes. -/
def weight (h : Hierarchy) (ceiling : Nat) (hint : Option RefType) : AnalysisType → Nat
  | .top => 0
  | .null => ceiling
  | .object type =>
    match hint with
    | none => h.height type
    | some suggested => if type = suggested then 1 else 2
  | _ => 1

variable {h : Hierarchy} {ceiling : Nat} {hint : Option RefType} {left right type : AnalysisType}

/-- The ceiling lies above all types of at most `depth` dimensions. -/
structure Ceiling (h : Hierarchy) (depth ceiling : Nat) : Prop where
  above : ∀ type : RefType, type.depth ≤ depth → h.height type < ceiling
  two_lt : 2 < ceiling

theorem weight_object_lt {depth : Nat} (hc : Ceiling h depth ceiling) {s : RefType} (hs : s.depth ≤ depth) :
    weight h ceiling hint (.object s) < ceiling := by
  have habove := hc.above s hs
  have htwo := hc.two_lt
  cases hint with
  | none => exact habove
  | some u =>
    change (if s = u then 1 else 2) < ceiling
    split_ifs <;> omega

theorem weight_le {depth : Nat} (hc : Ceiling h depth ceiling) (hd : left.depth ≤ depth) :
    weight h ceiling hint left ≤ ceiling := by
  have htwo := hc.two_lt
  cases left with
  | object s => exact Nat.le_of_lt (weight_object_lt hc hd)
  | top => exact Nat.zero_le _
  | null => exact Nat.le_refl _
  | _ => change 1 ≤ ceiling; omega

theorem weight_pos {depth : Nat} (hc : Ceiling h depth ceiling) (hne : left ≠ .top) :
    0 < weight h ceiling hint left := by
  have htwo := hc.two_lt
  cases left with
  | top => exact absurd rfl hne
  | null => change 0 < ceiling; omega
  | object s =>
    cases hint with
    | none =>
      change 0 < h.height s
      cases s with
      | object name =>
        change 0 < h.classHeight name
        unfold Hierarchy.classHeight
        split_ifs <;> omega
      | array inner leaf => change 0 < inner + 1 + _; omega
    | some u =>
      change 0 < if s = u then 1 else 2
      split_ifs <;> omega
  | _ => exact Nat.one_pos

/-- A merge that changes a type makes it lighter. -/
theorem weight_merge? (hr : h.Rooted) {depth : Nat} (hc : Ceiling h depth ceiling) (hd : right.depth ≤ depth)
    (hne : (merge? h hint left right).getD .top ≠ left) :
    weight h ceiling hint ((merge? h hint left right).getD .top) < weight h ceiling hint left := by
  cases hm : merge? h hint left right with
  | none =>
    rw [hm] at hne
    exact weight_pos hc (Ne.symm hne)
  | some type =>
    rw [hm] at hne
    change type ≠ left at hne
    change weight h ceiling hint type < _
    unfold merge? at hm
    split_ifs at hm with heq
    · cases hm
      exact absurd rfl hne
    · split at hm
      · cases hm
        exact weight_object_lt hc hd
      · cases hm
        exact absurd rfl hne
      · cases hm
        rename_i a b
        cases hint with
        | none => exact Hierarchy.height_join hr fun heq => hne (congrArg _ heq)
        -- the hint is what was not there, and it weighs least
        | some u =>
          change (if u = u then 1 else 2) < if a = u then 1 else 2
          rw [if_pos rfl, if_neg fun heq => hne (congrArg _ heq.symm)]
          exact Nat.one_lt_two
      · cases hm

end VerificationType

namespace Frame

variable {h : Hierarchy} {υ : Type} {ceiling : Nat}

/-! ## Lists of types -/

/-- The weight of a list of types: one for each, and what each weighs. -/
def weightOf (h : Hierarchy) (ceiling : Nat) : List (Option RefType) → List AnalysisType → Nat
  | _, [] => 0
  | hints, type :: rest => 1 + weight h ceiling hints.head?.join type + weightOf h ceiling hints.tail rest

theorem weightOf_le {depth : Nat} (hc : Ceiling h depth ceiling) : ∀ {hints : List (Option RefType)}
    {types : List AnalysisType}, (∀ t ∈ types, t.depth ≤ depth) → weightOf h ceiling hints types ≤
    types.length * (ceiling + 1)
  | _, [], _ => Nat.zero_le _
  | hints, type :: rest, hd => by
    have ih : weightOf h ceiling hints.tail rest ≤ _ :=
      weightOf_le hc fun t ht => hd t (List.mem_cons_of_mem _ ht)
    have hw : weight h ceiling hints.head?.join type ≤ ceiling := weight_le hc (hd type List.mem_cons_self)
    unfold weightOf
    rw [List.length_cons, Nat.succ_mul]
    omega

/-- The list is the same or lighter. -/
def Lighter (h : Hierarchy) (ceiling : Nat) (hints : List (Option RefType))
    (before after : List AnalysisType) : Prop :=
  after = before ∨ weightOf h ceiling hints after < weightOf h ceiling hints before

theorem Lighter.trans {hints : List (Option RefType)} {xs ys zs : List AnalysisType}
    (hxy : Lighter h ceiling hints xs ys) (hyz : Lighter h ceiling hints ys zs) :
    Lighter h ceiling hints xs zs := by
  rcases hxy with rfl | hxy
  · exact hyz
  · rcases hyz with rfl | hyz
    · exact .inr hxy
    · exact .inr (Nat.lt_trans hyz hxy)

/-- The head is the same or lighter, and so is the tail. -/
theorem Lighter.cons {hints : List (Option RefType)} {t u : AnalysisType} {ts us : List AnalysisType}
    (hhead : u = t ∨ weight h ceiling hints.head?.join u < weight h ceiling hints.head?.join t)
    (htail : Lighter h ceiling hints.tail ts us) : Lighter h ceiling hints (t :: ts) (u :: us) := by
  have hle : weightOf h ceiling hints.tail us ≤ weightOf h ceiling hints.tail ts := by
    rcases htail with rfl | hlt
    · exact Nat.le_refl _
    · exact Nat.le_of_lt hlt
  rcases hhead with rfl | hhead
  · rcases htail with rfl | htail
    · exact .inl rfl
    · right
      unfold weightOf
      omega
  · right
    unfold weightOf
    omega

theorem lighter_dropHalves {depth : Nat} (hc : Ceiling h depth ceiling) : ∀ (hints : List (Option RefType))
    (locals : List AnalysisType), Lighter h ceiling hints locals (dropHalves locals)
  | _, [] => .inl rfl
  | hints, [type] => by
    have hhead : (if type.isWide then .top else type) = type ∨
        weight h ceiling hints.head?.join (if type.isWide then .top else type) <
        weight h ceiling hints.head?.join type := by
      split_ifs with hwide
      · exact .inr (weight_pos hc (by rintro rfl; cases hwide))
      · exact .inl rfl
    exact .cons hhead (.inl rfl)
  | hints, type :: next :: rest => by
    have ih := lighter_dropHalves hc hints.tail (next :: rest)
    refine .cons ?_ ih
    split_ifs with hhalf
    · exact .inr (weight_pos hc (by rintro rfl; cases hhalf.1))
    · exact .inl rfl

/-- A part of a list from the front is the same or lighter. -/
theorem lighter_take (hints : List (Option RefType)) (count : Nat) (types : List AnalysisType) :
    Lighter h ceiling hints types (types.take count) := by
  induction types generalizing hints count with
  | nil => exact .inl (List.take_nil)
  | cons type rest ih =>
    cases count with
    | zero =>
      right
      change 0 < 1 + _ + _
      omega
    | succ count => exact .cons (.inl rfl) (ih hints.tail count)

theorem trimLocals_eq_take : ∀ locals : List AnalysisType, ∃ count, trimLocals locals = locals.take count
  | [] => ⟨0, rfl⟩
  | type :: rest => by
    obtain ⟨count, ih⟩ := trimLocals_eq_take rest
    unfold trimLocals
    split
    · split_ifs
      · exact ⟨0, rfl⟩
      · exact ⟨2, rfl⟩
      · exact ⟨1, rfl⟩
    · exact ⟨count + 1, by rw [List.take_succ_cons, ih]⟩

theorem lighter_normalize {depth : Nat} (hc : Ceiling h depth ceiling) (hints : List (Option RefType))
    (locals : List AnalysisType) : Lighter h ceiling hints locals (trimLocals (dropHalves locals)) := by
  obtain ⟨count, htake⟩ := trimLocals_eq_take (dropHalves locals)
  rw [htake]
  exact (lighter_dropHalves hc hints locals).trans (lighter_take hints count _)

theorem lighter_mergeLocals (hr : h.Rooted) {depth : Nat} (hc : Ceiling h depth ceiling) :
    ∀ {hints : List (Option RefType)} {lefts rights : List AnalysisType}, (∀ t ∈ rights, t.depth ≤ depth) →
      Lighter h ceiling hints lefts (mergeLocals h hints lefts rights)
  | hints, left :: lefts, right :: rights, hd => by
    refine .cons ?_ (lighter_mergeLocals hr hc fun t ht => hd t (List.mem_cons_of_mem _ ht))
    by_cases heq : (merge? h hints.head?.join left right).getD .top = left
    · exact .inl heq
    · exact .inr (weight_merge? hr hc (hd right List.mem_cons_self) heq)
  | _, [], _, _ => .inl rfl
  | hints, left :: lefts, [], _ => by
    right
    change 0 < 1 + _ + _
    omega

theorem lighter_mergeStack (hr : h.Rooted) {strict : Bool} {depth : Nat} (hc : Ceiling h depth ceiling) :
    ∀ {hints : List (Option RefType)} {lefts rights types : List AnalysisType},
    (∀ t ∈ rights, t.depth ≤ depth) →
      mergeStack h strict hints lefts rights = .ok types → lefts.length = rights.length →
        Lighter h ceiling hints lefts types
  | hints, left :: lefts, right :: rights, types, hd, hm, hlen => by
    obtain ⟨type, rest, rfl, hrest, hcases⟩ := mergeStack_cons hm
    refine .cons ?_ (lighter_mergeStack hr hc (fun t ht => hd t (List.mem_cons_of_mem _ ht)) hrest
      (Nat.succ.inj hlen))
    by_cases heq : type = left
    · exact .inl heq
    · rcases hcases with hmerge | ⟨-, rfl⟩
      · have hw := @weight_merge? h ceiling hints.head?.join left right hr depth hc
          (hd right List.mem_cons_self)
        rw [hmerge] at hw
        exact .inr (hw heq)
      · exact .inr (weight_pos hc (Ne.symm heq))
  | _, [], [], types, _, hm, _ => by
    unfold mergeStack at hm
    cases hm
    exact .inl rfl

/-! ## Frames -/

/-- The weight of a frame at a place that another frame gives hints for. -/
def weight (h : Hierarchy) (ceiling : Nat) (hint : Option (Frame RefType υ)) (frame : AnalysisFrame) : Nat :=
  weightOf h ceiling (localHints hint) frame.locals + weightOf h ceiling (stackHints hint) frame.stack.reverse

variable {strict : Bool} {hint : Option (Frame RefType υ)}

/-- A merge leaves a frame as it is or makes it lighter. -/
theorem weight_merge (hr : h.Rooted) {depth : Nat} (hc : Ceiling h depth ceiling)
    {current incoming merged : AnalysisFrame} (hlocals : ∀ t ∈ incoming.locals, t.depth ≤ depth)
    (hstack : ∀ t ∈ incoming.stack, t.depth ≤ depth)
    (hm : Frame.merge h strict hint current incoming = .ok merged) (hne : merged ≠ current) :
    weight h ceiling hint merged < weight h ceiling hint current := by
  obtain ⟨hheight, stack, hmerge, rfl⟩ := merge_eq_ok.mp hm
  have h1 : Lighter h ceiling (localHints hint) current.locals
      (trimLocals (dropHalves (mergeLocals h (localHints hint) current.locals incoming.locals))) :=
    (lighter_mergeLocals hr hc hlocals).trans (lighter_normalize hc _ _)
  have h2 : Lighter h ceiling (stackHints hint) current.stack.reverse stack :=
    lighter_mergeStack hr hc (fun t ht => hstack t (List.mem_reverse.mp ht)) hmerge
      (by rw [List.length_reverse, List.length_reverse, hheight])
  have hdef : weight h ceiling hint
      (normalize ⟨mergeLocals h (localHints hint) current.locals incoming.locals, stack.reverse⟩) =
      weightOf h ceiling (localHints hint)
          (trimLocals (dropHalves (mergeLocals h (localHints hint) current.locals incoming.locals))) +
        weightOf h ceiling (stackHints hint) stack := by
    unfold weight normalize
    rw [List.reverse_reverse]
  have hcur : weight h ceiling hint current = weightOf h ceiling (localHints hint) current.locals +
      weightOf h ceiling (stackHints hint) current.stack.reverse := rfl
  rw [hdef, hcur]
  -- locals and stack: neither gets heavier, and not both can be as they were
  rcases h1 with h1 | h1
  · rcases h2 with h2 | h2
    · exfalso
      apply hne
      obtain ⟨locals, cstack⟩ := current
      unfold normalize
      dsimp only at h1 h2 ⊢
      rw [h1, h2, List.reverse_reverse]
    · rw [h1]
      omega
  · rcases h2 with h2 | h2
    · rw [h2]
      omega
    · omega

theorem weight_le {depth : Nat} (hc : Ceiling h depth ceiling) {frame : AnalysisFrame}
    (hlocals : ∀ t ∈ frame.locals, t.depth ≤ depth) (hstack : ∀ t ∈ frame.stack, t.depth ≤ depth) :
    weight h ceiling hint frame ≤ (frame.locals.length + frame.stack.length) * (ceiling + 1) := by
  have h1 : weightOf h ceiling (localHints hint) frame.locals ≤ _ := weightOf_le hc hlocals
  have h2 : weightOf h ceiling (stackHints hint) frame.stack.reverse ≤ _ :=
    weightOf_le hc fun t ht => hstack t (List.mem_reverse.mp ht)
  rw [List.length_reverse] at h2
  unfold weight
  rw [Nat.add_mul]
  omega

end Frame

end ClassWeave
