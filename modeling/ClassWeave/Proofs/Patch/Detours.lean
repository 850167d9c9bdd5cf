import ClassWeave.Proofs.Patch.LiteralPattern

/-!
# Where the jumps are put in

The events that come out are the events that go in, with a jump to the same target behind each branch on zero
whose nearest event before it loads the flag (`Diverts`). Labels and frames are skipped on the way back to that
event, and so is an end of the method: it does not break up the pattern either.
-/

namespace ClassWeave

namespace LiteralPattern

/-- Behind each event there is at most one jump. It is there behind the branches on zero whose nearest event
before them, other than those that are skipped, loads the flag. The events that come out have exactly these
jumps put in, and the count after each event is that of the jumps so far. -/
structure Diverts (skipped : MethodEvent → Bool) (events : List MethodEvent) (jumps : List (Option Label)) :
    Prop where
  length : jumps.length = events.length
  tests : ∀ (k : Nat) (target : Label),
    jumps[k]? = some (some target) ↔ events[k]? = some (test target) ∧ Loaded skipped (events.take k)
  diverted : divert events = (events.zip jumps).flatMap fun entry => entry.1 :: (entry.2.map jump).toList
  counts : detours events = (List.range events.length).map fun k => (jumps.take (k + 1)).countP Option.isSome

/-! ## One jump after the other -/

/-- The target of the jump behind an event. -/
def detourTarget (pending : Bool) : MethodEvent → Option Label
  | .op (.branch (.conditional (.zero .eq) target)) => if pending then some target else none
  | _ => none

theorem detourTarget_eq_some {pending : Bool} {event : MethodEvent} {target : Label} :
    detourTarget pending event = some target ↔ event = test target ∧ pending = true := by
  constructor
  · intro h
    unfold detourTarget at h
    split at h
    · split_ifs at h with hpending
      cases h
      exact ⟨rfl, hpending⟩
    · cases h
  · rintro ⟨rfl, rfl⟩
    rfl

theorem detour_eq (pending : Bool) (event : MethodEvent) :
    detour pending event = ((detourTarget pending event).map jump).toList := by
  unfold detour
  split
  · simp only [detourTarget]
    split_ifs
    · rfl
    · rfl
  · rename_i hother
    have hnone : detourTarget pending event = none := by
      refine Option.eq_none_iff_forall_ne_some.mpr fun target htarget => ?_
      exact hother target (detourTarget_eq_some.mp htarget).1
    rw [hnone]
    rfl

/-- The targets of the jumps behind the events. -/
def detourTargets (start : Bool) (events : List MethodEvent) : List (Option Label) :=
  (withPending start events).map fun entry => detourTarget entry.1 entry.2

theorem length_withPending (start : Bool) (events : List MethodEvent) :
    (withPending start events).length = events.length := by
  rw [← List.length_map Prod.snd, map_snd_withPending]

theorem getElem?_withPending (start : Bool) (events : List MethodEvent) (k : Nat) :
    (withPending start events)[k]? =
    events[k]?.map fun event => ((events.take k).foldl pendingAfter start, event) := by
  induction events generalizing start k with
  | nil => simp [withPending]
  | cons event events ih =>
    cases k with
    | zero => rfl
    | succ k => simpa [withPending] using ih (pendingAfter start event) k

theorem getElem?_detourTargets {start : Bool} {events : List MethodEvent} {k : Nat} {target : Label} :
    (detourTargets start events)[k]? = some (some target) ↔
      events[k]? = some (test target) ∧ (events.take k).foldl pendingAfter start = true := by
  rw [detourTargets, List.getElem?_map, getElem?_withPending]
  cases events[k]? with
  | none => simp
  | some event => simpa using detourTarget_eq_some

theorem flatMap_withPending (start : Bool) (events : List MethodEvent) :
    (withPending start events).flatMap (fun entry => entry.2 :: detour entry.1 entry.2) =
      (events.zip (detourTargets start events)).flatMap fun entry => entry.1 :: (entry.2.map jump).toList := by
  induction events generalizing start with
  | nil => rfl
  | cons event events ih =>
    have hrest := ih (pendingAfter start event)
    simp only [withPending, detourTargets, List.map_cons, List.zip_cons_cons, List.flatMap_cons,
      detour_eq] at hrest ⊢
    rw [hrest]

/-- The counts go on from the ones before. -/
theorem detoursFrom_eq (count : Nat) (start : Bool) (events : List MethodEvent) :
    detoursFrom count (withPending start events) = (List.range events.length).map fun k =>
      count + ((detourTargets start events).take (k + 1)).countP Option.isSome := by
  induction events generalizing count start with
  | nil => rfl
  | cons event events ih =>
    have hfirst : (detour start event).length = [detourTarget start event].countP Option.isSome := by
      rw [detour_eq]
      cases detourTarget start event <;> rfl
    have htargets : detourTargets start (event :: events) =
        detourTarget start event :: detourTargets (pendingAfter start event) events := rfl
    rw [withPending, detoursFrom, ih, hfirst, htargets, List.length_cons, List.range_succ_eq_map, List.map_cons,
      List.map_map]
    refine congrArg _ (List.map_congr_left fun k _ => ?_)
    rw [Function.comp_apply, Nat.add_assoc, ← List.countP_append, List.take_succ_cons, List.singleton_append]

theorem diverts_detourTargets (events : List MethodEvent) :
    Diverts keepsFlag events (detourTargets false events) where
  length := by rw [detourTargets, List.length_map, length_withPending]
  tests := fun k target => by rw [getElem?_detourTargets, foldl_pendingAfter_iff]
  diverted := flatMap_withPending false events
  counts := by simpa [detours] using detoursFrom_eq 0 false events

/-! ## Bodies as they come -/

/-- The jumps are put in as they should be, where an end of the method does not break up the pattern. -/
theorem exists_diverts (events : List MethodEvent) : ∃ jumps, Diverts keepsFlag events jumps :=
  ⟨_, diverts_detourTargets events⟩

/-- A body has an end only as its last event, so there only labels and frames are skipped. -/
theorem exists_diverts_of_finish_last {events : List MethodEvent} (hfinish : .finish ∉ events.dropLast) :
    ∃ jumps, Diverts isMark events jumps := by
  have hdiverts := diverts_detourTargets events
  refine ⟨_, hdiverts.length, fun k target => ?_, hdiverts.diverted, hdiverts.counts⟩
  rw [hdiverts.tests]
  refine and_congr_right fun hget => ?_
  have hlt := (List.getElem?_eq_some_iff.mp hget).1
  have hbefore : .finish ∉ events.take k := by
    intro hmem
    rw [List.dropLast_eq_take] at hfinish
    exact hfinish (List.take_subset_take_left events (by omega) hmem)
  exact ⟨fun h => h.marks hbefore, Loaded.keeps⟩

/-- Between the load of the flag and the branch the method ends. The branch gets a jump behind it all the same,
though the nearest event before it, other than labels and frames, is the end. -/
theorem finish_keeps_flag : ¬∃ jumps, Diverts isMark [load, .finish, test ⟨0⟩] jumps := by
  rintro ⟨jumps, hdiverts⟩
  have hnone : ∀ entry ∈ jumps, ¬entry.isSome = true := by
    intro entry hentry hsome
    obtain ⟨target, rfl⟩ := Option.isSome_iff_exists.mp hsome
    obtain ⟨k, hk⟩ := List.mem_iff_getElem?.mp hentry
    obtain ⟨hevent, hloaded⟩ := (hdiverts.tests k target).mp hk
    match k, hevent with
    | 0, hevent => simp [load, test] at hevent
    | 1, hevent => simp [test] at hevent
    | 2, _ =>
      have hbefore : Loaded isMark ([load] ++ [.finish]) := hloaded
      rcases loaded_concat.mp hbefore with hfinish | ⟨-, hmark⟩
      · cases hfinish
      · cases hmark
  have hcounts := congrArg (·[2]?) hdiverts.counts
  have hzero : (jumps.take 3).countP Option.isSome = 0 :=
    List.countP_eq_zero.mpr fun entry hentry => hnone entry (List.mem_of_mem_take hentry)
  have hone : (detours [load, .finish, test ⟨0⟩])[2]? = some 1 := by decide +kernel
  simp [hone, hzero] at hcounts

end LiteralPattern

end ClassWeave
