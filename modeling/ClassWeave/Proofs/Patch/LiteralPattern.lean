import ClassWeave.Patch.LiteralPattern
import ClassWeave.Proofs.Event.Class

/-!
# What the literal pattern patch changes

A jump is put behind every branch that tests the flag (`TestsFlag`), and nothing else is changed. So a class is
only rewritten unless a body of the method that is patched tests the flag.
-/

namespace ClassWeave

namespace LiteralPattern

/-- The flag is loaded. -/
def load : MethodEvent :=
  .op (.plain (.field .get substituteFlag))

/-- Control goes on at the target if the value on top of the stack is zero. -/
def test (target : Label) : MethodEvent :=
  .op (.branch (.conditional (.zero .eq) target))

/-- The jump to a target. -/
def jump (target : Label) : MethodEvent :=
  .op (.branch (.goto target))

/-- What may stand between the load of the flag and its test: labels, and the frames at them. -/
def isMark : MethodEvent → Bool
  | .label _ | .frame _ => true
  | _ => false

/-- There is a branch on zero whose nearest event before it, other than labels and frames, loads the flag. -/
def TestsFlag (events : List MethodEvent) : Prop :=
  ∃ before marks target after, (∀ event ∈ marks, isMark event = true) ∧
    events = before ++ load :: marks ++ test target :: after

/-! ## When the flag is on top of the stack -/

/-- Each event stands with what the events before it leave on the stack. -/
theorem mem_withPending {pending start : Bool} {event : MethodEvent} {events : List MethodEvent}
    (h : (pending, event) ∈ withPending start events) :
    ∃ before after, events = before ++ event :: after ∧ before.foldl pendingAfter start = pending := by
  induction events generalizing start with
  | nil => simp [withPending] at h
  | cons first rest ih =>
    simp only [withPending, List.mem_cons, Prod.mk.injEq] at h
    rcases h with ⟨rfl, rfl⟩ | h
    · exact ⟨[], rest, rfl, rfl⟩
    · obtain ⟨before, after, rfl, hbefore⟩ := ih h
      exact ⟨first :: before, after, rfl, hbefore⟩

/-- What leaves the flag on top of the stack: labels, the frames at them, and the end of the method. -/
def keepsFlag (event : MethodEvent) : Bool :=
  isMark event || event = .finish

/-- An event leaves the flag on top of the stack if it loads it, or if it was there and stays. -/
theorem pendingAfter_iff {pending : Bool} {event : MethodEvent} :
    pendingAfter pending event = true ↔ event = load ∨ pending = true ∧ keepsFlag event = true := by
  constructor
  · intro h
    unfold pendingAfter at h
    split at h
    · exact .inr ⟨h, rfl⟩
    · exact .inr ⟨h, rfl⟩
    · exact .inr ⟨h, rfl⟩
    · rw [of_decide_eq_true h]
      exact .inl rfl
    · cases h
  · rintro (rfl | ⟨rfl, h⟩)
    · simp [pendingAfter, load]
    · cases event with
      | label | frame | finish => rfl
      | code | handler | line | op | localVariable => simp [keepsFlag, isMark] at h

/-- The nearest event before, other than those that are skipped, loads the flag. -/
def Loaded (skipped : MethodEvent → Bool) (before : List MethodEvent) : Prop :=
  ∃ earlier marks, (∀ event ∈ marks, skipped event = true) ∧ before = earlier ++ load :: marks

/-- After an event the flag is the nearest if the event loads it, or if it was the nearest and the event is
skipped. -/
theorem loaded_concat {skipped : MethodEvent → Bool} {before : List MethodEvent} {event : MethodEvent} :
    Loaded skipped (before ++ [event]) ↔ event = load ∨ Loaded skipped before ∧ skipped event = true := by
  constructor
  · rintro ⟨earlier, marks, hmarks, heq⟩
    rcases List.eq_nil_or_concat marks with rfl | ⟨marks, last, rfl⟩
    · obtain ⟨-, hlast⟩ := List.append_inj' heq rfl
      exact .inl (List.singleton_inj.mp hlast)
    · have hsplit : before ++ [event] = (earlier ++ load :: marks) ++ [last] := by simp [heq]
      obtain ⟨hbefore, hlast⟩ := List.append_inj' hsplit rfl
      cases List.singleton_inj.mp hlast
      refine .inr ⟨⟨earlier, marks, fun other hother => hmarks other ?_, hbefore⟩, hmarks event ?_⟩
      · simp [hother]
      · simp
  · rintro (rfl | ⟨⟨earlier, marks, hmarks, rfl⟩, hevent⟩)
    · exact ⟨before, [], by simp, rfl⟩
    · refine ⟨earlier, marks ++ [event], ?_, by simp⟩
      intro other hother
      rcases List.mem_append.mp hother with hother | hother
      · exact hmarks other hother
      · rwa [List.mem_singleton.mp hother]

/-- The flag is on top of the stack where the last event that does not leave it there loads it. -/
theorem foldl_pendingAfter_iff {before : List MethodEvent} :
    before.foldl pendingAfter false = true ↔ Loaded keepsFlag before := by
  induction before using List.reverseRecOn with
  | nil => simp [Loaded]
  | append_singleton before event ih =>
    rw [List.foldl_append, loaded_concat, ← ih]
    exact pendingAfter_iff

theorem Loaded.keeps {before : List MethodEvent} (h : Loaded isMark before) : Loaded keepsFlag before := by
  obtain ⟨earlier, marks, hmarks, rfl⟩ := h
  exact ⟨earlier, marks, fun event hevent => by simp [keepsFlag, hmarks event hevent], rfl⟩

/-- If the method does not end before, only labels and frames are skipped. -/
theorem Loaded.marks {before : List MethodEvent} (h : Loaded keepsFlag before) (hfinish : .finish ∉ before) :
    Loaded isMark before := by
  obtain ⟨earlier, marks, hmarks, rfl⟩ := h
  refine ⟨earlier, marks, fun event hevent => ?_, rfl⟩
  have hkeeps := hmarks event hevent
  have hne : event ≠ .finish := by
    rintro rfl
    exact hfinish (by simp [hevent])
  simpa [keepsFlag, hne] using hkeeps

theorem detour_ne_nil {pending : Bool} {event : MethodEvent} (h : detour pending event ≠ []) :
    pending = true ∧ ∃ target, event = test target := by
  unfold detour at h
  split at h
  · split_ifs at h with hpending
    · exact ⟨hpending, _, rfl⟩
    · exact absurd rfl h
  · exact absurd rfl h

/-- A branch that gets a jump behind it tests the flag. -/
theorem testsFlag_of_detour {events : List MethodEvent} (hfinish : .finish ∉ events.dropLast)
    {entry : Bool × MethodEvent} (hentry : entry ∈ withPending false events)
    (h : detour entry.1 entry.2 ≠ []) : TestsFlag events := by
  obtain ⟨pending, event⟩ := entry
  obtain ⟨rfl, target, rfl⟩ := detour_ne_nil h
  obtain ⟨before, after, rfl, hbefore⟩ := mem_withPending hentry
  have hfinish' : .finish ∉ before := by
    rw [List.dropLast_append_of_ne_nil (List.cons_ne_nil _ _)] at hfinish
    exact fun hmem => hfinish (List.mem_append_left _ hmem)
  obtain ⟨earlier, marks, hmarks, rfl⟩ := (foldl_pendingAfter_iff.mp hbefore).marks hfinish'
  exact ⟨earlier, marks, target, after, hmarks, rfl⟩

/-! ## Bodies that are left as they are -/

theorem map_snd_withPending (start : Bool) (events : List MethodEvent) :
    (withPending start events).map Prod.snd = events := by
  induction events generalizing start with
  | nil => rfl
  | cons event events ih => simp [withPending, ih]

/-- A body that does not test the flag stays as it is. -/
theorem divert_eq_self {events : List MethodEvent} (hfinish : .finish ∉ events.dropLast)
    (h : ¬TestsFlag events) : divert events = events := by
  have hnone : ∀ entry ∈ withPending false events, entry.2 :: detour entry.1 entry.2 = [entry.2] := by
    intro entry hentry
    by_contra hne
    refine h (testsFlag_of_detour hfinish hentry ?_)
    intro hnil
    rw [hnil] at hne
    exact hne rfl
  calc divert events = (withPending false events).flatMap fun entry => [entry.2] := List.flatMap_congr hnone
    _ = (withPending false events).map Prod.snd := List.flatMap_pure_eq_map _ _
    _ = events := map_snd_withPending false events

/-! ## Classes that are only rewritten -/

/-- The class has a body of the method that is patched that tests the flag. -/
def ClassTestsFlag (file : ClassFile) : Prop :=
  ∃ header body, .method header body ∈ (file.replay true).events ∧ header.name = targetMethod ∧ TestsFlag body

/-- Some instruction of the class loads the flag. -/
def loadsFlag (file : ClassFile) : Bool :=
  file.methods.any fun member =>
    match ClassFile.methodHeader file.pool member with
    | .ok (_, some attr) =>
      match CodeOp.readAll attr.code.length file.pool attr.code.length (Cursor.start attr.code) with
      | .ok (ops, _) => ops.any fun op => op.2 = .plain (.field .get substituteFlag)
      | .error _ => false
    | _ => false

/-- A class that tests the flag loads it. -/
theorem ClassTestsFlag.loadsFlag {file : ClassFile} (h : ClassTestsFlag file) : loadsFlag file = true := by
  obtain ⟨header, body, hmem, -, before, marks, target, after, -, hevents⟩ := h
  obtain ⟨_, -, member, hmember, stored, hheader, ⟨rfl, -⟩ | hbody⟩ := ClassFile.exists_of_mem_replay hmem
  · simp at hevents
  · refine List.any_eq_true.mpr ⟨member, hmember, ?_⟩
    have hload : load ∈ body := by simp [hevents]
    cases stored with
    | none =>
      cases hbody
      simp [load] at hload
    | some attr =>
      obtain ⟨labelled, hread, hlabelled⟩ := Outcome.except_bind.mp hbody
      cases hlabelled
      obtain ⟨decoded, tables, hreads⟩ := LabelledBody.ofCode_ok hread
      obtain ⟨offset, hop⟩ := LabelledBody.mem_ops_of_mem_events hload
      obtain ⟨op, hmem, hretargeted⟩ := hreads.exists_decoded hop
      cases hretargeted
      -- decoding reads the instructions first, and then only checks the targets
      obtain ⟨⟨ops, cursor⟩, hall, hcheck⟩ := Outcome.except_bind.mp hreads.code
      obtain ⟨_, -, hops⟩ := Outcome.except_bind.mp hcheck
      cases hops
      simp only [hheader, hall, List.any_eq_true, decide_eq_true_eq]
      exact ⟨_, hmem, rfl⟩

/-- The events of a class that does not test the flag stay as they are. -/
theorem map_divertEvent_replay {file : ClassFile} (h : ¬ClassTestsFlag file) :
    (file.replay true).events.map divertEvent = (file.replay true).events := by
  have hsame : ∀ event ∈ (file.replay true).events, divertEvent event = id event := by
    intro event hevent
    cases event with
    | method header body =>
      by_cases hname : header.name = targetMethod
      · have hbody : ¬TestsFlag body := fun htests => h ⟨header, body, hevent, hname, htests⟩
        simp [divertEvent, hname, divert_eq_self (ClassFile.finish_not_mem_dropLast_replay hevent) hbody]
      · simp [divertEvent, hname]
    | header | field | classAttribute | finish => rfl
  rw [List.map_congr_left hsame, List.map_id]

/-- A class is only rewritten, with the same bytes or the same fault, if no body of the method that is patched
tests the flag. -/
theorem apply_eq_rewrite {bytes : Bytes}
    (h : ∀ file, ClassFile.decode bytes = .ok file → ¬ClassTestsFlag file) :
    apply bytes = ClassFile.rewrite Hierarchy.javaLibrary bytes := by
  unfold apply ClassFile.rewrite
  cases hdecode : ClassFile.decode bytes with
  | error reason => rfl
  | ok file =>
    have hsame : (file.replay true).events.map divertEvent = id (file.replay true).events :=
      map_divertEvent_replay (h file hdecode)
    change file.rebuildOn file.pool Hierarchy.javaLibrary (·.map divertEvent) =
      file.rebuild Hierarchy.javaLibrary
    simp only [ClassFile.rebuild, ClassFile.rebuildOn, hsame]

/-- A class whose method to patch has a branch on zero, but does not load the flag. -/
def unflaggedBytes : Bytes :=
  Bytes.ofUInt32 ClassFile.magic ++ [0, 0, 0, 52, 0, 6] ++ [1, 0, 1, 67] ++ [7, 0, 1]
    ++ [1, 0, 6, 102, 111, 114, 109, 97, 116] ++ [1, 0, 3, 40, 41, 86] ++ [1, 0, 4, 67, 111, 100, 101]
    ++ [0, 1, 0, 2, 0, 0, 0, 0, 0, 0] ++ [0, 1, 0, 1, 0, 3, 0, 4, 0, 1, 0, 5, 0, 0, 0, 17]
    ++ [0, 1, 0, 1, 0, 0, 0, 5] ++ [0x03, 0x99, 0, 3, 0xB1] ++ [0, 0, 0, 0] ++ [0, 0]

theorem apply_eq_rewrite_unflagged :
    (∃ file, ClassFile.decode unflaggedBytes = .ok file ∧ ¬ClassTestsFlag file) ∧
    apply unflaggedBytes = ClassFile.rewrite Hierarchy.javaLibrary unflaggedBytes := by
  have hread : (ClassFile.decode unflaggedBytes).toOption.any (fun file => !loadsFlag file) =
    true := by decide +kernel
  cases hdecode : ClassFile.decode unflaggedBytes with
  | error reason =>
    rw [hdecode] at hread
    cases hread
  | ok file =>
    have hnone : ¬ClassTestsFlag file := by
      intro htests
      rw [hdecode] at hread
      change (!loadsFlag file) = true at hread
      simp [htests.loadsFlag] at hread
    refine ⟨⟨file, rfl, hnone⟩, apply_eq_rewrite ?_⟩
    intro other hother
    cases hdecode.symm.trans hother
    exact hnone

end LiteralPattern

end ClassWeave
