import ClassWeave.Event.Labelling
import ClassWeave.Handler
import ClassWeave.Proofs.Instruction.Targets

/-!
# Labels stand for offsets

A label is made once for an offset and stays: the table of labels only grows (`OffsetLabels.Grows`), distinct
offsets have distinct labels, and all offsets with labels are boundaries (`OffsetLabels.Sound`). What is read
with labels in place of offsets means the same.
-/

namespace ClassWeave

open Outcome (reader_bind reader_pure)

namespace OffsetLabels

/-- What holds of every table of labels: a label is of one offset only, the next number is free, and only
boundaries have labels. -/
structure Sound (labels : OffsetLabels) : Prop where
  numbered : ∀ {offset label}, labels.get? offset = some label → label.number < labels.labels.size
  distinct : ∀ {offset offset' label}, labels.get? offset = some label → labels.get? offset' = some label →
    offset = offset'
  inside : ∀ {offset label}, labels.get? offset = some label → labels.boundaries.contains offset = true

/-- The later table is the earlier one with more labels. -/
structure Grows (earlier later : OffsetLabels) : Prop where
  boundaries : later.boundaries = earlier.boundaries
  stays : ∀ {offset label}, earlier.get? offset = some label → later.get? offset = some label

/-- A label stands for an offset. -/
def Marks (labels : OffsetLabels) (offset : Nat) (label : Label) : Prop :=
  labels.get? offset = some label

theorem Grows.refl (labels : OffsetLabels) : labels.Grows labels :=
  ⟨rfl, fun h => h⟩

theorem Grows.trans {first second third : OffsetLabels} (h : first.Grows second) (h' : second.Grows third) :
    first.Grows third :=
  ⟨h'.boundaries.trans h.boundaries, fun hl => h'.stays (h.stays hl)⟩

theorem sound_ofOffsets (starts : List Nat) (codeLength : Nat) : (ofOffsets starts codeLength).Sound := by
  have hnone : ∀ offset, (ofOffsets starts codeLength).get? offset = none := fun offset =>
    Std.HashMap.getElem?_empty
  refine ⟨fun {offset label} h => ?_, fun {offset _ label} h => ?_, fun {offset label} h => ?_⟩ <;>
    (rw [hnone] at h; cases h)

end OffsetLabels

namespace Labelling

variable {α β : Type} {labels labels' : OffsetLabels}

/-- What an action that succeeds leaves behind: a sound table that has grown, in which `post` holds. -/
structure Result (labels labels' : OffsetLabels) (post : Prop) : Prop where
  sound : labels'.Sound
  grows : labels.Grows labels'
  post : post

theorem Result.imp {post post' : Prop} (h : Result labels labels' post) (hpost : post → post') :
    Result labels labels' post' :=
  ⟨h.sound, h.grows, hpost h.post⟩

theorem Result.trans {labels'' : OffsetLabels} {post post' : Prop} (h : Result labels labels' post)
    (h' : Result labels' labels'' post') : Result labels labels'' post' :=
  ⟨h'.sound, h.grows.trans h'.grows, h'.post⟩

theorem lift_ok {x : Except Malformed α} {a : α} :
    (liftM x : Labelling α) labels = .ok (a, labels') ↔ x = .ok a ∧ labels' = labels := by
  change (x >>= fun a => pure (a, labels)) = .ok (a, labels') ↔ _
  rw [Outcome.except_bind]
  constructor
  · rintro ⟨b, hb, h⟩
    cases h
    exact ⟨hb, rfl⟩
  · rintro ⟨h, rfl⟩
    exact ⟨a, h, rfl⟩

theorem lift_bind {x : Except Malformed α} {next : α → Labelling β} {b : β} :
    ((liftM x : Labelling α) >>= next) labels = .ok (b, labels') ↔ ∃ a, x = .ok a ∧ next a labels = .ok
    (b, labels') := by
  rw [reader_bind]
  constructor
  · rintro ⟨a, labels1, ha, hb⟩
    obtain ⟨hx, rfl⟩ := lift_ok.mp ha
    exact ⟨a, hx, hb⟩
  · rintro ⟨a, ha, hb⟩
    exact ⟨a, labels, lift_ok.mpr ⟨ha, rfl⟩, hb⟩

/-- What a traversal of a list leaves behind is what each of its steps does. -/
theorem mapM_ok {f : α → Labelling β} {post : α → β → OffsetLabels → Prop}
    (hmono : ∀ x y labels labels', labels.Grows labels' → post x y labels → post x y labels') :
    ∀ {xs : List α} {ys : List β} {labels labels' : OffsetLabels}, labels.Sound →
      (∀ x ∈ xs, ∀ labels labels' y, labels.Sound → f x labels = .ok (y, labels') →
        Result labels labels' (post x y labels')) →
      xs.mapM f labels = .ok (ys, labels') →
        Result labels labels' (List.Forall₂ (fun x y => post x y labels') xs ys)
  | [], ys, labels, labels', hs, _, h => by
    rw [List.mapM_nil] at h
    obtain ⟨rfl, rfl⟩ := reader_pure.mp h
    exact ⟨hs, .refl _, .nil⟩
  | x :: xs, ys, labels, labels', hs, hstep, h => by
    rw [List.mapM_cons] at h
    obtain ⟨y, labels1, hy, h⟩ := reader_bind.mp h
    obtain ⟨zs, labels2, hzs, h⟩ := reader_bind.mp h
    obtain ⟨rfl, rfl⟩ := reader_pure.mp h
    have r1 := hstep x List.mem_cons_self _ _ _ hs hy
    have r2 := mapM_ok hmono r1.sound (fun z hz => hstep z (List.mem_cons_of_mem _ hz)) hzs
    exact ⟨r2.sound, r1.grows.trans r2.grows, .cons (hmono _ _ _ _ r2.grows r1.post) r2.post⟩

/-! ## Labels -/

/-- A label is found or made. -/
theorem labelAt_ok (hs : labels.Sound) {offset : Nat} {label : Label}
    (h : labelAt offset labels = .ok (label, labels')) :
    Result labels labels' (labels'.Marks offset label) := by
  obtain ⟨boundaries, table⟩ := labels
  unfold labelAt at h
  dsimp only at h
  split_ifs at h with hinside
  cases hfound : table[offset]? with
  | some found =>
    rw [hfound] at h
    cases h
    exact ⟨hs, .refl _, hfound⟩
  | none =>
    rw [hfound] at h
    cases h
    -- a new label has the next number, so it is none of those there were
    have hget : ∀ o, OffsetLabels.get? ⟨boundaries, table.insert offset ⟨table.size⟩⟩ o =
        if offset = o then some ⟨table.size⟩ else table[o]? := by
      intro o
      unfold OffsetLabels.get?
      dsimp only
      rw [Std.HashMap.getElem?_insert]
      by_cases ho : offset = o
      · rw [if_pos ho, if_pos (by rw [ho]; exact BEq.rfl)]
      · rw [if_neg ho, if_neg (by rwa [beq_iff_eq])]
    have hsize : (table.insert offset (⟨table.size⟩ : Label)).size = table.size + 1 := by
      rw [Std.HashMap.size_insert, if_neg]
      rw [Std.HashMap.mem_iff_isSome_getElem?, hfound]
      exact Bool.false_ne_true
    have hnew : ∀ {o : Nat} {l : Label}, table[o]? = some l → l.number < table.size := fun h => hs.numbered h
    refine ⟨⟨fun {o l} hl => ?_, fun {o o' l} hl hl' => ?_, fun {o l} hl => ?_⟩, ⟨rfl, fun {o l} hl => ?_⟩, ?_⟩
    · rw [hget] at hl
      change l.number < (table.insert offset (⟨table.size⟩ : Label)).size
      rw [hsize]
      split_ifs at hl
      · cases hl
        exact Nat.lt_succ_self _
      · exact Nat.lt_succ_of_lt (hnew hl)
    · -- no two offsets share a label: an old one has a lower number than the new one
      rw [hget] at hl hl'
      split_ifs at hl hl' with ho ho' ho'
      · exact ho.symm.trans ho'
      · cases hl
        exact absurd (hnew hl') (Nat.lt_irrefl _)
      · cases hl'
        exact absurd (hnew hl) (Nat.lt_irrefl _)
      · exact hs.distinct hl hl'
    · rw [hget] at hl
      split_ifs at hl with ho
      · rw [← ho]
        exact hinside
      · exact hs.inside hl
    · -- the new entry replaces none, as the offset had no label
      rw [hget, if_neg]
      · exact hl
      · rintro rfl
        have hl' : table[offset]? = some l := hl
        rw [hfound] at hl'
        cases hl'
    · change OffsetLabels.get? _ offset = _
      rw [hget, if_pos rfl]

theorem marks_mono {x : Nat} {l : Label} (labels labels' : OffsetLabels) (h : labels.Grows labels')
    (hx : labels.Marks x l) : labels'.Marks x l :=
  h.stays hx

theorem labelsAt_ok (hs : labels.Sound) {offsets : List Nat} {found : List Label}
    (h : offsets.mapM labelAt labels = .ok (found, labels')) :
    Result labels labels' (List.Forall₂ labels'.Marks offsets found) :=
  @mapM_ok _ _ _ (fun offset label labels => labels.Marks offset label)
    (fun _ _ labels labels' hg hm => marks_mono labels labels' hg hm) _ _ _ _ hs
    (fun _ _ _ _ _ hs h => labelAt_ok hs h) h

/-! ## Instructions -/

/-- The targets of a branch are labelled. -/
theorem branch_ok (hs : labels.Sound) {b : Branch Nat} {b' : Branch Label}
    (h : b.convertTargets labelAt labels = .ok (b', labels')) :
    Result labels labels' (b.Retargeted labels'.Marks b') := by
  cases b with
  | conditional condition target =>
    obtain ⟨label, labels1, hl, h⟩ := reader_bind.mp h
    obtain ⟨rfl, rfl⟩ := reader_pure.mp h
    exact (labelAt_ok hs hl).imp .conditional
  | jump kind target =>
    obtain ⟨label, labels1, hl, h⟩ := reader_bind.mp h
    obtain ⟨rfl, rfl⟩ := reader_pure.mp h
    exact (labelAt_ok hs hl).imp .jump
  | ret slot =>
    obtain ⟨rfl, rfl⟩ := reader_pure.mp h
    exact ⟨hs, .refl _, .ret⟩
  | tableSwitch otherwise low targets =>
    obtain ⟨label, labels1, hl, h⟩ := reader_bind.mp h
    obtain ⟨found, labels2, hls, h⟩ := reader_bind.mp h
    obtain ⟨rfl, rfl⟩ := reader_pure.mp h
    have r1 := labelAt_ok hs hl
    have r2 := labelsAt_ok r1.sound hls
    exact ⟨r2.sound, r1.grows.trans r2.grows, .tableSwitch (r2.grows.stays r1.post) r2.post⟩
  | lookupSwitch otherwise cases =>
    obtain ⟨label, labels1, hl, h⟩ := reader_bind.mp h
    obtain ⟨found, labels2, hls, h⟩ := reader_bind.mp h
    obtain ⟨rfl, rfl⟩ := reader_pure.mp h
    have r1 := labelAt_ok hs hl
    -- keys are no offsets: they stay, and each target gets a label after those before it
    have r2 : Result labels1 labels'
        (List.Forall₂ (fun c c' => c.1 = c'.1 ∧ labels'.Marks c.2 c'.2) cases found) := by
      refine @mapM_ok _ _ _ (fun (c : Int32 × Nat) (c' : Int32 × Label) labels => c.1 = c'.1 ∧
        labels.Marks c.2 c'.2) (fun c c' labels labels' hg hm => ⟨hm.1, marks_mono labels labels' hg hm.2⟩)
        _ _ _ _ r1.sound ?_ hls
      intro c _ labels labels' c' hs h
      obtain ⟨label, labels1, hl, h⟩ := reader_bind.mp h
      obtain ⟨rfl, rfl⟩ := reader_pure.mp h
      exact (labelAt_ok hs hl).imp fun hm => ⟨rfl, hm⟩
    exact ⟨r2.sound, r1.grows.trans r2.grows, .lookupSwitch (r2.grows.stays r1.post) r2.post⟩
  | returnValue kind =>
    obtain ⟨rfl, rfl⟩ := reader_pure.mp h
    exact ⟨hs, .refl _, .returnValue⟩
  | returnVoid =>
    obtain ⟨rfl, rfl⟩ := reader_pure.mp h
    exact ⟨hs, .refl _, .returnVoid⟩
  | athrow =>
    obtain ⟨rfl, rfl⟩ := reader_pure.mp h
    exact ⟨hs, .refl _, .athrow⟩

/-- The targets of an instruction are labelled. -/
theorem op_ok (hs : labels.Sound) {op : CodeOp Nat} {op' : CodeOp Label}
    (h : op.convertTargets labelAt labels = .ok (op', labels')) :
    Result labels labels' (op.Retargeted labels'.Marks op') := by
  cases op with
  | plain instruction =>
    obtain ⟨rfl, rfl⟩ := reader_pure.mp h
    exact ⟨hs, .refl _, .plain⟩
  | branch b =>
    obtain ⟨b', labels1, hb, h⟩ := reader_bind.mp h
    obtain ⟨rfl, rfl⟩ := reader_pure.mp h
    exact (branch_ok hs hb).imp .branch

/-- The positions of a handler are labelled. -/
theorem positions_ok {κ : Type} (hs : labels.Sound) {handler : Handler UInt16 κ} {handler' : Handler Label κ}
    (h : handler.convertPositions (fun offset => labelAt offset.toNat) labels = .ok (handler', labels')) :
    Result labels labels' (labels'.Marks handler.start.toNat handler'.start ∧
    labels'.Marks handler.stop.toNat handler'.stop ∧
      labels'.Marks handler.target.toNat handler'.target) := by
  obtain ⟨start, labels1, hstart, h⟩ := reader_bind.mp h
  obtain ⟨stop, labels2, hstop, h⟩ := reader_bind.mp h
  obtain ⟨target, labels3, htarget, h⟩ := reader_bind.mp h
  obtain ⟨rfl, rfl⟩ := reader_pure.mp h
  have r1 := labelAt_ok hs hstart
  have r2 := labelAt_ok r1.sound hstop
  have r3 := labelAt_ok r2.sound htarget
  exact ⟨r3.sound, r1.grows.trans (r2.grows.trans r3.grows), (r2.grows.trans r3.grows).stays r1.post,
    r3.grows.stays r2.post, r3.post⟩

end Labelling

end ClassWeave
