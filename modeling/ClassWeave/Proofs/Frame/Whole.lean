import ClassWeave.Proofs.Frame.Transfer

/-!
# Wide locals stay whole

Every instruction, and every merge of frames, leaves a wide local followed by its second slot (`Frame.Whole`)
where it was so before. On such locals normal form only trims the end, so each slot keeps its type.
-/

namespace ClassWeave

namespace Frame

/-! ## Lists of slots -/

theorem Whole.tail {t : AnalysisType} {rest : List AnalysisType} (h : Whole (t :: rest)) : Whole rest := by
  cases rest with
  | nil => trivial
  | cons next rest => exact h.2

/-- A wide local is followed by its second slot. -/
theorem Whole.second {t : AnalysisType} {rest : List AnalysisType} (h : Whole (t :: rest))
    (hwide : t.isWide = true) : ∃ after, rest = .top :: after := by
  cases rest with
  | nil =>
    change t.isWide = false at h
    rw [hwide] at h
    cases h
  | cons next rest => exact ⟨rest, by rw [h.1 hwide]⟩

theorem Whole.cons {t : AnalysisType} {rest : List AnalysisType} (hrest : Whole rest)
    (hwide : t.isWide = true → ∃ after, rest = .top :: after) : Whole (t :: rest) := by
  cases rest with
  | nil =>
    change t.isWide = false
    cases ht : t.isWide with
    | false => rfl
    | true =>
      obtain ⟨after, hafter⟩ := hwide ht
      cases hafter
  | cons next rest =>
    refine ⟨fun ht => ?_, hrest⟩
    obtain ⟨after, hafter⟩ := hwide ht
    cases hafter
    rfl

/-- A value among whole locals ends where they do at the latest. -/
theorem Whole.slots_le : ∀ {locals : List AnalysisType} {slot : Nat} {t : AnalysisType}, Whole locals →
    locals[slot]? = some t → slot + t.width ≤ locals.length
  | u :: rest, 0, t, h, ht => by
    cases ht
    rw [width_eq, List.length_cons]
    split_ifs with hwide
    · obtain ⟨after, rfl⟩ := h.second hwide
      rw [List.length_cons]
      omega
    · omega
  | u :: rest, slot + 1, t, h, ht => by
    have ih := Whole.slots_le h.tail ht
    rw [List.length_cons]
    omega

theorem whole_append : ∀ {xs ys : List AnalysisType}, Whole xs → Whole ys → Whole (xs ++ ys)
  | [], _, _, hys => hys
  | x :: xs, ys, hxs, hys => by
    refine Whole.cons (whole_append hxs.tail hys) fun hwide => ?_
    obtain ⟨after, rfl⟩ := hxs.second hwide
    exact ⟨after ++ ys, rfl⟩

theorem whole_drop : ∀ (count : Nat) {xs : List AnalysisType}, Whole xs → Whole (xs.drop count)
  | 0, _, h => h
  | _ + 1, [], _ => trivial
  | count + 1, _ :: _, h => whole_drop count h.tail

theorem whole_map {f : AnalysisType → AnalysisType} (htop : f .top = .top)
    (hwide : ∀ t, (f t).isWide = t.isWide) : ∀ {xs : List AnalysisType}, Whole xs → Whole (xs.map f)
  | [], _ => trivial
  | x :: xs, h => by
    refine Whole.cons (whole_map htop hwide h.tail) fun hx => ?_
    rw [hwide] at hx
    obtain ⟨after, rfl⟩ := h.second hx
    exact ⟨after.map f, by rw [List.map_cons, htop]⟩

/-! ## Stores -/

/-- The slots before a store start with `top` where the locals did, or where these had ended. -/
theorem cutLocals_top (count : Nat) (rest : List AnalysisType) : ∃ after, cutLocals (count + 1)
    (.top :: rest) = .top :: after := by
  cases count with
  | zero => exact ⟨[], rfl⟩
  | succ count => exact ⟨_, rfl⟩

theorem whole_cutLocals : ∀ (count : Nat) {locals : List AnalysisType}, Whole locals → Whole
    (cutLocals count locals)
  | 0, _, _ => trivial
  | 1, [], _ => rfl
  | 1, type :: _, _ => by
    change (if type.isWide then (.top : AnalysisType) else type).isWide = false
    split_ifs with hwide
    · rfl
    · exact Bool.eq_false_iff.mpr hwide
  | count + 2, [], h => Whole.cons (whole_cutLocals (count + 1) h) fun hwide => by cases hwide
  | count + 2, type :: rest, h => by
    refine Whole.cons (whole_cutLocals (count + 1) h.tail) fun hwide => ?_
    obtain ⟨after, rfl⟩ := h.second hwide
    exact cutLocals_top count after

theorem whole_store {frame : AnalysisFrame} (h : Whole frame.locals) (slot : UInt16) (type : AnalysisType) :
    Whole (frame.store slot type).locals := by
  have hstored : Whole (if type.isWide then [type, .top] else [type]) := by
    split_ifs with hwide
    · exact ⟨fun _ => rfl, rfl⟩
    · exact Bool.eq_false_iff.mpr hwide
  exact whole_append (whole_append (whole_cutLocals _ h) hstored) (whole_drop _ h)

/-! ## Instructions -/

theorem isWide_constructedFrom {site : AnalysisType} (hsite : site.isWide = false) (type : RefType)
    (t : AnalysisType) : (constructedFrom site type t).isWide = t.isWide := by
  unfold constructedFrom
  split_ifs with heq
  · rw [heq, hsite]
    rfl
  · rfl

/-- An instruction leaves wide locals whole. -/
theorem whole_transfer {owner : BinaryName} {strict : Bool} {index : Nat} {instruction : Instruction}
    {f g : AnalysisFrame} (hf : Whole f.locals) (h : instruction.transfer owner strict index f = .ok g) :
    Whole g.locals := by
  cases transfer_locals h with
  | same heq =>
    rw [heq]
    exact hf
  | stored kind slot type _ _ _ heq =>
    rw [heq]
    exact whole_store hf slot type
  | constructed site type htop hsite heq =>
    rw [heq]
    exact whole_map htop (isWide_constructedFrom hsite type) hf

/-! ## Normal form and merges -/

/-- Whole locals have no halves to drop. -/
theorem dropHalves_of_whole : ∀ {locals : List AnalysisType}, Whole locals → dropHalves locals = locals
  | [], _ => rfl
  | [type], h => by
    change type.isWide = false at h
    change [if type.isWide then (.top : AnalysisType) else type] = [type]
    rw [h]
    rfl
  | type :: next :: rest, h => by
    change (if type.isWide = true ∧ next ≠ .top then (.top : AnalysisType) else type) ::
      dropHalves (next :: rest) = _
    rw [dropHalves_of_whole h.2, if_neg]
    rintro ⟨hwide, hne⟩
    exact hne (h.1 hwide)

/-- Each slot of whole locals keeps its type in normal form. -/
theorem slotAt_normalize {frame : AnalysisFrame} (h : Whole frame.locals) (slot : Nat) :
    slotAt frame.normalize.locals slot = slotAt frame.locals slot := by
  change slotAt (trimLocals (dropHalves frame.locals)) slot = _
  rw [dropHalves_of_whole h, slotAt_trimLocals]

/-- Locals that are whole on both sides are whole when merged: a wide type only meets itself. -/
theorem whole_mergeLocals {h : Hierarchy} : ∀ (hints : List (Option RefType))
    {lefts rights : List AnalysisType}, Whole lefts → Whole rights → Whole (mergeLocals h hints lefts rights)
  | hints, left :: lefts, right :: rights, hleft, hright => by
    refine Whole.cons (whole_mergeLocals hints.tail hleft.tail hright.tail) fun hwide => ?_
    have hsame : left = right ∧ left.isWide = true := by
      unfold VerificationType.merge? at hwide
      split_ifs at hwide with heq
      · exact ⟨heq, hwide⟩
      · split at hwide <;> cases hwide
    obtain ⟨heq, hwide⟩ := hsame
    obtain ⟨afterLeft, rfl⟩ := hleft.second hwide
    obtain ⟨afterRight, rfl⟩ := hright.second (heq ▸ hwide)
    exact ⟨_, rfl⟩
  | _, [], _, _, _ => trivial
  | _, _ :: _, [], _, _ => trivial

/-- Where wide locals are whole no slot is given up: each holds the merge of what it holds on both sides. -/
theorem slotAt_merge {h : Hierarchy} {strict : Bool} {υ : Type} {hint : Option (Frame RefType υ)}
    {current incoming merged : AnalysisFrame} (hm : merge h strict hint current incoming = .ok merged)
    (hcurrent : Whole current.locals) (hincoming : Whole incoming.locals) (slot : Nat) :
    slotAt merged.locals slot =
      (VerificationType.merge? h (hintAt (localHints hint) slot) (slotAt current.locals slot)
        (slotAt incoming.locals slot)).getD .top := by
  obtain ⟨-, stack, -, rfl⟩ := merge_eq_ok.mp hm
  rw [slotAt_normalize (whole_mergeLocals _ hcurrent hincoming), slotAt_mergeLocals]

end Frame

end ClassWeave
