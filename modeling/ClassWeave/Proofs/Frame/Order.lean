import ClassWeave.Frame.Merge
import ClassWeave.Proofs.Hierarchy
import ClassWeave.Proofs.Outcome

/-!
# Where frames may flow

`VerificationType.FlowsTo` says which types a merge turns a type into, and `Frame.FlowsTo` says the same of
frames, slot by slot. Locals are compared by slot (`slotAt`), so a list that ends early is one that goes on with
`top`. A merged frame is one that both of its sources flow to, and flowing is transitive, so a frame that was
merged in stays below whatever later merges make of the result.
-/

namespace ClassWeave

/-! ## Types -/

namespace VerificationType

/-- A merge may turn the first type into the second. Where `lossy` is set any type may become unusable; a `hint`
takes the place of the join of two classes. -/
inductive FlowsTo (h : Hierarchy) (lossy : Bool) (hint : Option RefType) : AnalysisType → AnalysisType →
    Prop where
  | refl (t : AnalysisType) : FlowsTo h lossy hint t t
  | top (t : AnalysisType) : lossy = true → FlowsTo h lossy hint t .top
  | null (s : RefType) : FlowsTo h lossy hint .null (.object s)
  | below {s t : RefType} : hint = none → h.Below s t → FlowsTo h lossy hint (.object s) (.object t)
  | hinted (s : RefType) {t : RefType} : hint = some t → FlowsTo h lossy hint (.object s) (.object t)

variable {h : Hierarchy} {lossy : Bool} {hint : Option RefType} {r s t : AnalysisType}

theorem FlowsTo.trans (hr : h.Rooted) (hrs : FlowsTo h lossy hint r s) (hst : FlowsTo h lossy hint s t) :
    FlowsTo h lossy hint r t := by
  cases hst with
  | refl => exact hrs
  | top _ hlossy => exact .top r hlossy
  | null _ =>
    cases hrs with
    | refl => exact .null _
  | below hnone hbelow =>
    cases hrs with
    | refl => exact .below hnone hbelow
    | null => exact .null _
    | below _ hbelow' => exact .below hnone (hbelow'.trans hr hbelow)
    | hinted _ hsome => rw [hnone] at hsome; cases hsome
  | hinted _ hsome =>
    cases hrs with
    | refl => exact .hinted _ hsome
    | null => exact .null _
    | below hnone _ => rw [hnone] at hsome; cases hsome
    | hinted => exact .hinted _ hsome

/-- What is not lossy may as well be. -/
theorem FlowsTo.toLossy (hst : FlowsTo h false hint s t) : FlowsTo h lossy hint s t := by
  cases hst with
  | refl => exact .refl s
  | top _ hlossy => cases hlossy
  | null => exact .null _
  | below hnone hbelow => exact .below hnone hbelow
  | hinted _ hsome => exact .hinted _ hsome

/-- The merge of two types is one that both flow to. -/
theorem flowsTo_of_merge? (hm : merge? h hint s t = some r) : FlowsTo h lossy hint s r ∧
    FlowsTo h lossy hint t r := by
  unfold merge? at hm
  split_ifs at hm with heq
  · cases hm
    rw [heq]
    exact ⟨.refl _, .refl _⟩
  · split at hm
    · cases hm
      exact ⟨.null _, .refl _⟩
    · cases hm
      exact ⟨.refl _, .null _⟩
    · cases hm
      rename_i a b
      cases hint with
      | none =>
        obtain ⟨ha, hb⟩ := h.below_join a b
        exact ⟨.below rfl ha, .below rfl hb⟩
      | some u => exact ⟨.hinted _ rfl, .hinted _ rfl⟩
    · cases hm

theorem merge?_top (h : Hierarchy) (hint : Option RefType) (t : AnalysisType) :
    (merge? h hint .top t).getD .top = .top ∧ (merge? h hint t .top).getD .top = .top := by
  cases t <;> exact ⟨rfl, rfl⟩

end VerificationType

open VerificationType

namespace Frame

variable {h : Hierarchy} {υ : Type}

/-! ## Slots -/

/-- The type of a local variable; a slot that no frame lists is unusable. -/
def slotAt (locals : List AnalysisType) (slot : Nat) : AnalysisType :=
  locals[slot]?.getD .top

@[simp] theorem slotAt_nil (slot : Nat) : slotAt [] slot = .top := rfl

@[simp] theorem slotAt_cons_zero (t : AnalysisType) (rest : List AnalysisType) : slotAt (t :: rest) 0 = t := rfl

@[simp] theorem slotAt_cons_succ (t : AnalysisType) (rest : List AnalysisType) (slot : Nat) :
    slotAt (t :: rest) (slot + 1) = slotAt rest slot := rfl

/-- The hint for a place, if there is one. -/
def hintAt (hints : List (Option RefType)) (place : Nat) : Option RefType :=
  (hints[place]?).join

theorem hintAt_zero (hints : List (Option RefType)) : hintAt hints 0 = hints.head?.join := by
  cases hints <;> rfl

theorem hintAt_tail (hints : List (Option RefType)) (place : Nat) : hintAt hints.tail place = hintAt hints
    (place + 1) := by
  cases hints <;> rfl

/-! ## Normal form -/

theorem slotAt_dropHalves : ∀ (locals : List AnalysisType) (slot : Nat),
    slotAt (dropHalves locals) slot = slotAt locals slot ∨ slotAt (dropHalves locals) slot = .top
  | [], _ => .inl rfl
  | [type], 0 => by
    unfold dropHalves
    split_ifs
    · exact .inr rfl
    · exact .inl rfl
  | [_], _ + 1 => .inl rfl
  | type :: next :: rest, 0 => by
    unfold dropHalves
    split_ifs
    · exact .inr rfl
    · exact .inl rfl
  | _ :: next :: rest, slot + 1 => slotAt_dropHalves (next :: rest) slot

/-- Only unusable locals are trimmed away. -/
theorem slotAt_of_trimLocals_nil : ∀ {locals : List AnalysisType}, trimLocals locals = [] → ∀ slot,
    slotAt locals slot = .top
  | [], _, _ => rfl
  | type :: rest, h, slot => by
    unfold trimLocals at h
    split at h
    · rename_i hrest
      split_ifs at h with htop
      cases slot with
      | zero => exact htop
      | succ slot => exact slotAt_of_trimLocals_nil hrest slot
    · cases h

theorem slotAt_trimLocals : ∀ (locals : List AnalysisType) (slot : Nat),
    slotAt (trimLocals locals) slot = slotAt locals slot
  | [], _ => rfl
  | type :: rest, slot => by
    unfold trimLocals
    split
    · rename_i hrest
      have hnil := slotAt_of_trimLocals_nil hrest
      -- all behind this local was trimmed, but for its own second half
      split_ifs with htop hwide
      · cases slot with
        | zero => exact htop.symm
        | succ slot => exact (hnil slot).symm
      · cases slot with
        | zero => rfl
        | succ slot =>
          rw [slotAt_cons_succ, slotAt_cons_succ, hnil slot]
          cases rest with
          | nil => rfl
          | cons next rest =>
            cases slot with
            | zero => exact hnil 0
            | succ slot => rfl
      · cases slot with
        | zero => rfl
        | succ slot => exact (hnil slot).symm
    · cases slot with
      | zero => rfl
      | succ slot => exact slotAt_trimLocals rest slot

/-- Every wide local is followed by its second slot. -/
def Whole : List AnalysisType → Prop
  | [] => True
  | [type] => type.isWide = false
  | type :: next :: rest => (type.isWide = true → next = .top) ∧ Whole (next :: rest)

theorem whole_dropHalves : ∀ locals : List AnalysisType, Whole (dropHalves locals)
  | [] => trivial
  | [type] => by
    unfold dropHalves
    split_ifs with hwide
    · rfl
    · exact Bool.eq_false_iff.mpr hwide
  | type :: next :: rest => by
    have ih := whole_dropHalves (next :: rest)
    -- dropping halves makes an entry `top` or leaves it, so a second half stays one
    have hhead : ∃ t ts, dropHalves (next :: rest) = t :: ts ∧ (next = .top → t = .top) := by
      cases rest with
      | nil =>
        refine ⟨_, _, rfl, ?_⟩
        rintro rfl
        rfl
      | cons n rest =>
        refine ⟨_, _, rfl, ?_⟩
        rintro rfl
        rfl
    obtain ⟨t, ts, heq, htop⟩ := hhead
    change Whole ((if type.isWide = true ∧ next ≠ .top then .top else type) :: dropHalves (next :: rest))
    rw [heq] at ih ⊢
    refine ⟨fun hwide => htop ?_, ih⟩
    split_ifs at hwide with hhalf
    · cases hwide
    · by_contra hne
      exact hhalf ⟨hwide, hne⟩

theorem whole_trimLocals : ∀ {locals : List AnalysisType}, Whole locals → Whole (trimLocals locals)
  | [], _ => trivial
  | type :: rest, hw => by
    have htail : Whole rest := by
      cases rest with
      | nil => trivial
      | cons next rest => exact hw.2
    have ih := whole_trimLocals htail
    unfold trimLocals
    split
    · split_ifs with htop hwide
      · trivial
      · cases rest with
        | nil =>
          change type.isWide = false at hw
          rw [hwide] at hw
          cases hw
        | cons next rest =>
          refine ⟨hw.1, ?_⟩
          rw [hw.1 hwide]
          rfl
      · exact Bool.eq_false_iff.mpr hwide
    · rename_i hne
      cases htrim : trimLocals rest with
      | nil => exact absurd htrim hne
      | cons t ts =>
        rw [htrim] at ih
        refine ⟨fun hwide => ?_, ih⟩
        cases rest with
        | nil => cases htrim
        | cons next rest =>
          -- the second half of a wide type is the next slot, and slots do not change
          have h0 := slotAt_trimLocals (next :: rest) 0
          rw [htrim] at h0
          exact h0.trans (hw.1 hwide)

theorem whole_normalize (frame : AnalysisFrame) : Whole frame.normalize.locals :=
  whole_trimLocals (whole_dropHalves frame.locals)

/-! ## Values of slots -/

theorem length_compact_cons : ∀ (type : AnalysisType) (rest : List AnalysisType),
    (compact rest).length ≤ (compact (type :: rest)).length ∧ (compact (type :: rest)).length ≤
    (compact rest).length + 1
  | _, [] => ⟨Nat.zero_le _, Nat.le_refl _⟩
  | type, next :: rest => by
    obtain ⟨hle, hge⟩ := length_compact_cons next rest
    change _ ≤ (type :: if type.isWide then compact rest else compact (next :: rest)).length ∧
      (type :: if type.isWide then compact rest else compact (next :: rest)).length ≤ _
    rw [List.length_cons]
    split_ifs
    · omega
    · omega

theorem length_compact_le : ∀ types : List AnalysisType, (compact types).length ≤ types.length
  | [] => Nat.le_refl _
  | type :: rest => Nat.le_trans (length_compact_cons type rest).2 (Nat.succ_le_succ (length_compact_le rest))

/-- Trimmed locals have no more values than there are slots in use: the second slot of the last one may lie
behind. -/
theorem length_compact_trimLocals : ∀ {locals : List AnalysisType} {count : Nat},
    (∀ slot, count ≤ slot → slotAt locals slot = .top) → (compact (trimLocals locals)).length ≤ count
  | [], _, _ => Nat.zero_le _
  | type :: rest, 0, h => by
    have ih := @length_compact_trimLocals rest 0 fun slot _ => h (slot + 1) (Nat.zero_le _)
    have htop : type = .top := h 0 (Nat.le_refl 0)
    unfold trimLocals
    split
    · rw [if_pos htop]
      exact Nat.le_refl 0
    · rename_i hne
      obtain ⟨next, trimmed, heq⟩ := List.exists_cons_of_ne_nil hne
      have hpos : 0 < (compact (next :: trimmed)).length := by
        cases trimmed <;> exact Nat.succ_pos _
      rw [heq] at ih
      omega
  | type :: rest, count + 1, h => by
    have ih := @length_compact_trimLocals rest count fun slot hslot => h (slot + 1) (Nat.succ_le_succ hslot)
    unfold trimLocals
    split
    · split_ifs with htop hwide
      · exact Nat.zero_le _
      -- a wide type and its second half are one entry
      · have hone : (compact (type :: rest.take 1)).length = 1 := by
          cases rest with
          | nil => rfl
          | cons next rest =>
            change (type :: if type.isWide then compact [] else compact [next]).length = 1
            rw [if_pos hwide]
            rfl
        rw [hone]
        exact Nat.succ_pos _
      · exact Nat.succ_pos _
    · exact Nat.le_trans (length_compact_cons type _).2 (Nat.succ_le_succ ih)

/-- Whole locals are what their values say. -/
theorem expand_compact : ∀ {locals : List AnalysisType}, Whole locals → expand (compact locals) = locals
  | [], _ => rfl
  | [type], hw => by
    change type.isWide = false at hw
    change expand [type] = [type]
    unfold expand
    simp only [List.flatMap_cons, List.flatMap_nil, hw, Bool.false_eq_true, if_false, List.append_nil]
  | type :: next :: rest, hw => by
    have hcons : ∀ values : List AnalysisType,
        expand (type :: values) = (if type.isWide then [type, .top] else [type]) ++ expand values :=
        fun _ => rfl
    unfold compact
    by_cases hwide : type.isWide = true
    · -- what follows a wide type is its second half, which compacting dropped
      have hnext := hw.1 hwide
      have hrest : Whole rest := by
        cases rest with
        | nil => trivial
        | cons n rest => exact hw.2.2
      rw [hcons, if_pos hwide, if_pos hwide, expand_compact hrest, hnext]
      rfl
    · rw [hcons, if_neg hwide, if_neg hwide, expand_compact hw.2]
      rfl

/-! ## Frames -/

/-- The classes that a frame suggests for the locals. -/
def localHints (hint : Option (Frame RefType υ)) : List (Option RefType) :=
  (hint.map fun frame => refTypes frame.locals).getD []

/-- The classes that a frame suggests for the stack, from the bottom up. -/
def stackHints (hint : Option (Frame RefType υ)) : List (Option RefType) :=
  (hint.map fun frame => refTypes frame.stack.reverse).getD []

/-- Merges may turn the first frame into the second: slot by slot in the locals, and place by place on stacks of
the same height, counted from the bottom. -/
structure FlowsTo (h : Hierarchy) (strict : Bool) (hint : Option (Frame RefType υ))
    (source target : AnalysisFrame) : Prop where
  locals : ∀ slot, VerificationType.FlowsTo h true (hintAt (localHints hint) slot) (slotAt source.locals slot)
    (slotAt target.locals slot)
  height : source.stack.length = target.stack.length
  stack : ∀ place s t, source.stack.reverse[place]? = some s → target.stack.reverse[place]? = some t →
    VerificationType.FlowsTo h (!strict) (hintAt (stackHints hint) place) s t

variable {strict : Bool} {hint : Option (Frame RefType υ)}

theorem FlowsTo.refl (h : Hierarchy) (strict : Bool) (hint : Option (Frame RefType υ)) (frame : AnalysisFrame) :
    frame.FlowsTo h strict hint frame where
  locals := fun _ => .refl _
  height := rfl
  stack := fun place s t hs ht => by
    rw [hs] at ht
    cases ht
    exact .refl s

theorem FlowsTo.trans (hr : h.Rooted) {f g k : AnalysisFrame} (hfg : f.FlowsTo h strict hint g)
    (hgk : g.FlowsTo h strict hint k) : f.FlowsTo h strict hint k where
  locals := fun slot => (hfg.locals slot).trans hr (hgk.locals slot)
  height := hfg.height.trans hgk.height
  stack := fun place s t hs ht => by
    have hlt : place < g.stack.reverse.length := by
      have := (List.getElem?_eq_some_iff.mp hs).1
      rw [List.length_reverse] at this ⊢
      rw [← hfg.height]
      exact this
    have hu := List.getElem?_eq_getElem hlt
    exact (hfg.stack place s _ hs hu).trans hr (hgk.stack place _ t hu ht)

/-- Normal form gives locals up, and nothing else. -/
theorem flowsTo_normalize (h : Hierarchy) (strict : Bool) (hint : Option (Frame RefType υ))
    (frame : AnalysisFrame) : frame.FlowsTo h strict hint frame.normalize where
  locals := fun slot => by
    change VerificationType.FlowsTo h true _ _ (slotAt (trimLocals (dropHalves frame.locals)) slot)
    rw [slotAt_trimLocals]
    rcases slotAt_dropHalves frame.locals slot with heq | heq
    · rw [heq]
      exact .refl _
    · rw [heq]
      exact .top _ rfl
  height := rfl
  stack := (FlowsTo.refl h strict hint frame).stack

/-! ## Merges -/

/-- A slot of merged locals holds the merge of what the slot holds on both sides. -/
theorem slotAt_mergeLocals : ∀ (hints : List (Option RefType)) (lefts rights : List AnalysisType) (slot : Nat),
    slotAt (mergeLocals h hints lefts rights) slot =
      (merge? h (hintAt hints slot) (slotAt lefts slot) (slotAt rights slot)).getD .top
  | hints, left :: _, right :: _, 0 => by
    change (merge? h hints.head?.join left right).getD .top = (merge? h (hintAt hints 0) left right).getD .top
    rw [hintAt_zero]
  | hints, _ :: lefts, _ :: rights, slot + 1 => by
    have ih := slotAt_mergeLocals hints.tail lefts rights slot
    rw [hintAt_tail] at ih
    exact ih
  | _, [], _, _ => (merge?_top h _ _).1.symm
  | _, _ :: _, [], _ => (merge?_top h _ _).2.symm

/-- What a merge of stacks makes of one place. -/
theorem mergeStack_cons {hints : List (Option RefType)} {left right : AnalysisType}
    {lefts rights types : List AnalysisType}
    (hm : mergeStack h strict hints (left :: lefts) (right :: rights) = .ok types) :
    ∃ type rest, types = type :: rest ∧ mergeStack h strict hints.tail lefts rights = .ok rest ∧
      (merge? h hints.head?.join left right = some type ∨ strict = false ∧ type = .top) := by
  unfold mergeStack at hm
  cases hmerge : merge? h hints.head?.join left right with
  | some type =>
    rw [hmerge] at hm
    change (mergeStack h strict hints.tail lefts rights >>= fun rest => pure (type :: rest)) = .ok types at hm
    obtain ⟨rest, hrest, hm⟩ := Outcome.except_bind.mp hm
    cases hm
    exact ⟨type, rest, rfl, hrest, .inl rfl⟩
  | none =>
    rw [hmerge] at hm
    dsimp only at hm
    -- entries that cannot be merged are refused, or unusable where code is not strict
    split_ifs at hm with hstrict
    · cases hm
    · change (mergeStack h strict hints.tail lefts rights >>= fun rest => pure (.top :: rest)) = .ok types at hm
      obtain ⟨rest, hrest, hm⟩ := Outcome.except_bind.mp hm
      cases hm
      exact ⟨.top, rest, rfl, hrest, .inr ⟨Bool.eq_false_iff.mpr hstrict, rfl⟩⟩

/-- Stacks of the same height are merged place by place. -/
theorem mergeStack_places : ∀ {hints : List (Option RefType)} {lefts rights types : List AnalysisType},
    mergeStack h strict hints lefts rights = .ok types → lefts.length = rights.length →
      types.length = lefts.length ∧ ∀ {place t}, types[place]? = some t →
        ∃ l r, lefts[place]? = some l ∧ rights[place]? = some r ∧
          (merge? h (hintAt hints place) l r = some t ∨ strict = false ∧ t = .top)
  | hints, left :: lefts, right :: rights, types, hm, hlen => by
    obtain ⟨type, rest, rfl, hrest, hcases⟩ := mergeStack_cons hm
    obtain ⟨ihlen, ih⟩ := mergeStack_places hrest (Nat.succ.inj hlen)
    refine ⟨congrArg Nat.succ ihlen, fun {place t} ht => ?_⟩
    cases place with
    | zero =>
      cases ht
      refine ⟨left, right, rfl, rfl, ?_⟩
      rw [hintAt_zero]
      exact hcases
    | succ place =>
      rw [← hintAt_tail]
      exact ih ht
  | _, [], [], types, hm, _ => by
    unfold mergeStack at hm
    cases hm
    exact ⟨rfl, fun {place t} ht => by cases ht⟩

/-- What a merge of frames is: its locals and its stack, merged on their own. -/
theorem merge_eq_ok {current incoming merged : AnalysisFrame} :
    merge h strict hint current incoming = .ok merged ↔
      current.stack.length = incoming.stack.length ∧
        ∃ stack, mergeStack h strict (stackHints hint) current.stack.reverse incoming.stack.reverse =
        .ok stack ∧
          merged = normalize ⟨mergeLocals h (localHints hint) current.locals incoming.locals,
          stack.reverse⟩ := by
  unfold merge
  by_cases hheight : current.stack.length = incoming.stack.length
  · rw [if_neg (fun hne => hne hheight)]
    constructor
    · intro hm
      obtain ⟨stack, hstack, hm⟩ := Outcome.except_bind.mp hm
      cases hm
      exact ⟨hheight, stack, hstack, rfl⟩
    · rintro ⟨-, stack, hstack, rfl⟩
      exact Outcome.except_bind.mpr ⟨stack, hstack, rfl⟩
  · rw [if_pos hheight]
    exact ⟨fun hm => (by cases hm), fun hm => absurd hm.1 hheight⟩

/-- The types of two frames that are merged, place by place: they become their merge, and a local may be given
up. -/
structure Merges (h : Hierarchy) (strict : Bool) (hint : Option (Frame RefType υ))
    (current incoming merged : AnalysisFrame) : Prop where
  locals : ∀ slot, slotAt merged.locals slot = .top ∨ slotAt merged.locals slot =
    (merge? h (hintAt (localHints hint) slot) (slotAt current.locals slot)
    (slotAt incoming.locals slot)).getD .top
  height : merged.stack.length = current.stack.length
  heights : merged.stack.length = incoming.stack.length
  stack : ∀ {place t}, merged.stack.reverse[place]? = some t →
    ∃ l r, current.stack.reverse[place]? = some l ∧ incoming.stack.reverse[place]? = some r ∧
      (merge? h (hintAt (stackHints hint) place) l r = some t ∨ strict = false ∧ t = .top)

theorem merges_of_ok {current incoming merged : AnalysisFrame}
    (hm : merge h strict hint current incoming = .ok merged) :
    Merges h strict hint current incoming merged := by
  obtain ⟨hheight, stack, hstack, rfl⟩ := merge_eq_ok.mp hm
  obtain ⟨hlen, hplaces⟩ := mergeStack_places hstack (by rw [List.length_reverse, List.length_reverse, hheight])
  have hsame : stack.reverse.length = current.stack.length := by
    rw [List.length_reverse, hlen, List.length_reverse]
  refine ⟨fun slot => ?_, hsame, hsame.trans hheight, fun {place t} ht => hplaces ?_⟩
  · change slotAt (trimLocals (dropHalves _)) slot = .top ∨ slotAt (trimLocals (dropHalves _)) slot = _
    rw [slotAt_trimLocals, ← slotAt_mergeLocals]
    exact (slotAt_dropHalves _ slot).symm
  · change stack.reverse.reverse[place]? = some t at ht
    rwa [List.reverse_reverse] at ht

/-- Both frames flow to their merge. -/
theorem flowsTo_merge {current incoming merged : AnalysisFrame}
    (hm : merge h strict hint current incoming = .ok merged) :
    current.FlowsTo h strict hint merged ∧ incoming.FlowsTo h strict hint merged := by
  have hmerges := merges_of_ok hm
  have hlocals : ∀ slot,
      VerificationType.FlowsTo h true (hintAt (localHints hint) slot) (slotAt current.locals slot)
          (slotAt merged.locals slot) ∧
        VerificationType.FlowsTo h true (hintAt (localHints hint) slot) (slotAt incoming.locals slot)
          (slotAt merged.locals slot) := by
    intro slot
    rcases hmerges.locals slot with heq | heq
    · rw [heq]
      exact ⟨.top _ rfl, .top _ rfl⟩
    · rw [heq]
      cases htype : merge? h (hintAt (localHints hint) slot) (slotAt current.locals slot)
          (slotAt incoming.locals slot) with
      | none => exact ⟨.top _ rfl, .top _ rfl⟩
      | some type => exact flowsTo_of_merge? htype
  -- entries of the stack are merged, or become unusable where this is allowed
  have hstack : ∀ {place l r t}, (merge? h (hintAt (stackHints hint) place) l r = some t ∨ strict = false ∧
      t = .top) → VerificationType.FlowsTo h (!strict) (hintAt (stackHints hint) place) l t ∧
        VerificationType.FlowsTo h (!strict) (hintAt (stackHints hint) place) r t := by
    rintro place l r t (htype | ⟨rfl, rfl⟩)
    · exact flowsTo_of_merge? htype
    · exact ⟨.top _ rfl, .top _ rfl⟩
  refine ⟨⟨fun slot => (hlocals slot).1, hmerges.height.symm, fun place s t hs ht => ?_⟩,
    ⟨fun slot => (hlocals slot).2, hmerges.heights.symm, fun place s t hs ht => ?_⟩⟩
  · obtain ⟨l, r, hl, -, hcases⟩ := hmerges.stack ht
    rw [hs] at hl
    cases hl
    exact (hstack hcases).1
  · obtain ⟨l, r, -, hr, hcases⟩ := hmerges.stack ht
    rw [hs] at hr
    cases hr
    exact (hstack hcases).2

/-! ## Invariants of types -/

/-- A property of all types in a frame, those of slots that it does not list included. -/
structure Holds (Q : AnalysisType → Prop) (frame : AnalysisFrame) : Prop where
  locals : ∀ slot, Q (slotAt frame.locals slot)
  stack : ∀ t ∈ frame.stack, Q t

/-- What makes a property of types an invariant of merges. -/
structure MergeInvariant (h : Hierarchy) (hint : Option (Frame RefType υ)) (Q : AnalysisType → Prop) :
    Prop where
  top : Q .top
  join : ∀ {a b}, Q (.object a) → Q (.object b) → Q (.object (h.join a b))
  localHint : ∀ {place t}, hintAt (localHints hint) place = some t → Q (.object t)
  stackHint : ∀ {place t}, hintAt (stackHints hint) place = some t → Q (.object t)

variable {Q : AnalysisType → Prop}

theorem holds_merge? (hjoin : ∀ {a b}, Q (.object a) → Q (.object b) → Q (.object (h.join a b)))
    {suggestion : Option RefType} (hhint : ∀ t, suggestion = some t → Q (.object t))
    {left right type : AnalysisType} (hleft : Q left) (hright : Q right)
    (hm : merge? h suggestion left right = some type) : Q type := by
  unfold merge? at hm
  split_ifs at hm with heq
  · cases hm
    exact hleft
  · split at hm
    · cases hm
      exact hright
    · cases hm
      exact hleft
    · cases hm
      cases suggestion with
      | none => exact hjoin hleft hright
      | some t => exact hhint t rfl
    · cases hm

theorem Holds.normalize {frame : AnalysisFrame} (htop : Q .top) (hf : frame.Holds Q) :
    frame.normalize.Holds Q := by
  refine ⟨fun slot => ?_, hf.stack⟩
  change Q (slotAt (trimLocals (dropHalves frame.locals)) slot)
  rw [slotAt_trimLocals]
  rcases slotAt_dropHalves frame.locals slot with heq | heq
  · rw [heq]
    exact hf.locals slot
  · rw [heq]
    exact htop

theorem Holds.merge (hQ : MergeInvariant h hint Q) {current incoming merged : AnalysisFrame}
    (hc : current.Holds Q) (hi : incoming.Holds Q)
    (hm : Frame.merge h strict hint current incoming = .ok merged) : merged.Holds Q := by
  have hmerges := merges_of_ok hm
  refine ⟨fun slot => ?_, fun t ht => ?_⟩
  · rcases hmerges.locals slot with heq | heq
    · rw [heq]
      exact hQ.top
    · rw [heq]
      cases htype : merge? h (hintAt (localHints hint) slot) (slotAt current.locals slot)
          (slotAt incoming.locals slot) with
      | none => exact hQ.top
      | some type =>
        exact holds_merge? hQ.join (fun u hu => hQ.localHint hu) (hc.locals slot) (hi.locals slot) htype
  · obtain ⟨place, hplace⟩ := List.mem_iff_getElem?.mp (List.mem_reverse.mpr ht)
    obtain ⟨l, r, hl, hr, htype | ⟨-, rfl⟩⟩ := hmerges.stack hplace
    · exact holds_merge? hQ.join (fun u hu => hQ.stackHint hu)
        (hc.stack l (List.mem_reverse.mp (List.mem_of_getElem? hl)))
        (hi.stack r (List.mem_reverse.mp (List.mem_of_getElem? hr))) htype
    · exact hQ.top

end Frame

end ClassWeave
