import ClassWeave.Patch
import Mathlib.Data.List.Nodup
import Mathlib.Data.String.Basic

/-!
# The order of patches, and the chain that they form

Registering keeps the patches of a registry ordered by name, and puts a patch behind those of the same name, so
a registry holds the stable sort of what was registered (`Registry.patches_ofPatches`). A class goes through the
patches that want it in this order: `Patch.Chain` says what a chain of patches makes of bytes and which of them
run, and a transformation gives just that.
-/

namespace ClassWeave

/-! ## Halving -/

/-- Where the entries that satisfy `p` stand in front, halving counts them. -/
theorem partitionPoint_eq {α : Type} {p : α → Bool} {xs : List α}
    (h : xs.Pairwise fun x y => p y = true → p x = true) : partitionPoint p xs = (xs.takeWhile p).length := by
  fun_induction partitionPoint p xs with
  | case1 xs hdrop =>
    have hlen := congrArg List.length hdrop
    rw [List.length_drop, List.length_nil] at hlen
    obtain rfl : xs = [] := List.eq_nil_of_length_eq_zero (by omega)
    rfl
  -- the middle satisfies it, so all before it do and the point is behind
  | case2 xs x rest hdrop hx ih =>
    have hsplit : xs = xs.take (xs.length / 2) ++ x :: rest := by rw [← hdrop, List.take_append_drop]
    rw [hsplit, List.pairwise_append, List.pairwise_cons] at h
    obtain ⟨-, ⟨-, hrest⟩, hfront⟩ := h
    have hall : ∀ y ∈ xs.take (xs.length / 2), p y = true := fun y hy => hfront y hy x List.mem_cons_self hx
    have hlen : (xs.take (xs.length / 2)).length = xs.length / 2 := by rw [List.length_take]; omega
    conv_rhs => rw [hsplit, List.takeWhile_append_of_pos hall, List.takeWhile_cons_of_pos hx]
    rw [ih hrest, List.length_append, hlen, List.length_cons]
    omega
  -- the middle does not, so the point is before it or there
  | case3 xs x rest hdrop hx ih =>
    have hsplit : xs = xs.take (xs.length / 2) ++ x :: rest := by rw [← hdrop, List.take_append_drop]
    have hstop : (x :: rest).takeWhile p = [] := List.takeWhile_cons_of_neg hx
    rw [ih (h.sublist (List.take_sublist _ _))]
    conv_rhs => rw [hsplit, List.takeWhile_append, hstop]
    split_ifs with hwhole
    · rw [List.append_nil, hwhole]
    · rfl

namespace Registry

/-! ## Registering -/

/-- The patches stand in the order of their names. -/
def Ordered (registry : Registry) : Prop :=
  registry.patches.Pairwise fun a b => a.name ≤ b.name

theorem ordered_empty : Ordered empty :=
  List.Pairwise.nil

variable {registry : Registry}

/-- The first patch with a greater name, and all behind it. -/
theorem Ordered.lt_of_mem_dropWhile (h : registry.Ordered) {name : String} {patch : Patch}
    (hpatch : patch ∈ registry.patches.dropWhile (·.name ≤ name)) : name < patch.name := by
  cases hdrop : registry.patches.dropWhile (·.name ≤ name) with
  | nil =>
    rw [hdrop] at hpatch
    cases hpatch
  | cons first rest =>
    have hfirst : name < first.name := by
      have hstop := List.head?_dropWhile_not (fun patch : Patch => decide (patch.name ≤ name)) registry.patches
      rw [hdrop] at hstop
      simpa using hstop
    have hsorted := h.sublist (List.dropWhile_sublist (fun patch : Patch => decide (patch.name ≤ name)))
    rw [hdrop] at hpatch hsorted
    rcases List.mem_cons.mp hpatch with rfl | hrest
    · exact hfirst
    · exact lt_of_lt_of_le hfirst (List.rel_of_pairwise_cons hsorted hrest)

/-- A patch is put behind those whose name is not greater, and in front of the others. -/
theorem Ordered.patches_register (h : registry.Ordered) (patch : Patch) :
    (registry.register patch).patches = registry.patches.takeWhile (·.name ≤ patch.name) ++
      patch :: registry.patches.dropWhile (·.name ≤ patch.name) := by
  have hfront : registry.patches.Pairwise fun a b => decide (b.name ≤ patch.name) = true → decide
      (a.name ≤ patch.name) = true :=
    h.imp fun {a b} hab hb => decide_eq_true (le_trans hab (of_decide_eq_true hb))
  have hinsert := List.modifyTailIdx_add (List.cons patch) 0 (registry.patches.takeWhile (·.name ≤ patch.name))
    (registry.patches.dropWhile (·.name ≤ patch.name))
  rw [List.takeWhile_append_dropWhile] at hinsert
  unfold register
  rw [partitionPoint_eq hfront]
  exact hinsert

/-- The step lemma: registering keeps the order. -/
theorem Ordered.register (h : registry.Ordered) (patch : Patch) : (registry.register patch).Ordered := by
  unfold Ordered
  rw [h.patches_register, List.pairwise_append, List.pairwise_cons]
  have hfront : ∀ a ∈ registry.patches.takeWhile (·.name ≤ patch.name), a.name ≤ patch.name := fun a ha => by
    simpa using List.all_eq_true.mp List.all_takeWhile a ha
  have hback : ∀ b ∈ registry.patches.dropWhile (·.name ≤ patch.name), patch.name ≤ b.name := fun b hb =>
    le_of_lt (h.lt_of_mem_dropWhile hb)
  refine ⟨h.sublist (List.takeWhile_sublist _), ⟨hback, h.sublist (List.dropWhile_sublist _)⟩,
    fun a ha b hb => ?_⟩
  rcases List.mem_cons.mp hb with rfl | hb
  · exact hfront a ha
  · exact le_trans (hfront a ha) (hback b hb)

/-! ## Patches of one name -/

/-- The patches of one name, in the order in which they stand. -/
def named (name : String) (patches : List Patch) : List Patch :=
  patches.filter (·.name = name)

theorem named_append (name : String) (xs ys : List Patch) :
    named name (xs ++ ys) = named name xs ++ named name ys :=
  List.filter_append xs ys

theorem named_cons (name : String) (patch : Patch) (patches : List Patch) :
    named name (patch :: patches) = if patch.name = name then patch :: named name patches else
    named name patches := by
  unfold named
  rw [List.filter_cons]
  simp only [decide_eq_true_eq]

theorem mem_named {name : String} {patch : Patch} {patches : List Patch} :
    patch ∈ named name patches ↔ patch ∈ patches ∧ patch.name = name := by
  unfold named
  rw [List.mem_filter, decide_eq_true_eq]

/-- Lists in the order of names are the same if they have the same patches of each name. -/
theorem eq_of_named : ∀ {xs ys : List Patch}, xs.Pairwise (fun a b => a.name ≤ b.name) →
    ys.Pairwise (fun a b => a.name ≤ b.name) → (∀ name, named name xs = named name ys) → xs = ys := by
  have hmem : ∀ {xs ys : List Patch} {patch : Patch}, (∀ name, named name xs = named name ys) → patch ∈ xs →
      patch ∈ ys := by
    intro xs ys patch h hpatch
    have hin := mem_named.mpr ⟨hpatch, rfl⟩
    rw [h] at hin
    exact (mem_named.mp hin).1
  have hle : ∀ {a b : Patch} {rest : List Patch}, (a :: rest).Pairwise (fun a b => a.name ≤ b.name) →
      b ∈ a :: rest → a.name ≤ b.name := by
    intro a b rest hsorted hb
    rcases List.mem_cons.mp hb with rfl | hb
    · exact le_refl _
    · exact List.rel_of_pairwise_cons hsorted hb
  intro xs
  induction xs with
  | nil =>
    intro ys _ _ h
    cases ys with
    | nil => rfl
    | cons y ys =>
      exact absurd (hmem (fun name => (h name).symm) (List.mem_cons_self (a := y))) List.not_mem_nil
  | cons x xs ih =>
    intro ys hxs hys h
    cases ys with
    | nil => exact absurd (hmem h (List.mem_cons_self (a := x))) List.not_mem_nil
    | cons y ys =>
      -- the first patches have the least names, and the same names occur
      have hname : x.name = y.name :=
        le_antisymm (hle hxs (hmem (fun name => (h name).symm) List.mem_cons_self))
          (hle hys (hmem h List.mem_cons_self))
      obtain rfl : x = y := by
        have hfirst := h x.name
        rw [named_cons, if_pos rfl, named_cons, if_pos hname.symm] at hfirst
        exact (List.cons.inj hfirst).1
      refine congrArg (x :: ·) (ih hxs.of_cons hys.of_cons fun name => ?_)
      have hrest := h name
      rw [named_cons, named_cons] at hrest
      split_ifs at hrest
      · exact (List.cons.inj hrest).2
      · exact hrest

/-! ## The stable sort -/

/-- Among the patches of one name, a new one is the last. -/
theorem Ordered.named_register (h : registry.Ordered) (name : String) (patch : Patch) :
    named name (registry.register patch).patches = named name registry.patches ++ named name [patch] := by
  have hsplit := congrArg (named name)
    (List.takeWhile_append_dropWhile (p := fun a : Patch => decide (a.name ≤ patch.name))
    (l := registry.patches))
  rw [named_append] at hsplit
  rw [h.patches_register, named_append, named_cons, ← hsplit, List.append_assoc]
  refine congrArg (List.append _) ?_
  by_cases hname : patch.name = name
  · -- no patch of this name stands behind the new one
    have hnone : named name (registry.patches.dropWhile (·.name ≤ patch.name)) = [] :=
      List.eq_nil_iff_forall_not_mem.mpr fun b hb =>
        ne_of_gt (h.lt_of_mem_dropWhile (mem_named.mp hb).1) ((mem_named.mp hb).2.trans hname.symm)
    rw [if_pos hname, hnone, named_cons, if_pos hname]
    rfl
  · rw [if_neg hname, named_cons, if_neg hname]
    exact (List.append_nil _).symm

/-- The registry after patches have been registered one after the other. -/
def ofPatches (patches : List Patch) : Registry :=
  patches.foldl register empty

/-- The run lemma: the order is kept, and the patches of one name stand as they were registered. -/
theorem Ordered.foldl_register : ∀ {registry : Registry} (patches : List Patch), registry.Ordered →
    (patches.foldl Registry.register registry).Ordered ∧
      ∀ name, named name (patches.foldl Registry.register registry).patches = named name registry.patches ++
      named name patches
  | registry, [], h => ⟨h, fun name => (List.append_nil _).symm⟩
  | registry, patch :: patches, h => by
    obtain ⟨hordered, hnamed⟩ := foldl_register patches (h.register patch)
    refine ⟨hordered, fun name => ?_⟩
    rw [List.foldl_cons, hnamed, h.named_register, List.append_assoc, ← named_append]
    rfl

end Registry

/-- The order in which patches are sorted. -/
def Patch.byName (a b : Patch) : Bool :=
  a.name ≤ b.name

theorem Patch.byName_trans (a b c : Patch) (hab : a.byName b = true) (hbc : b.byName c = true) :
    a.byName c = true :=
  decide_eq_true (le_trans (of_decide_eq_true hab) (of_decide_eq_true hbc))

theorem Patch.byName_total (a b : Patch) : (a.byName b || b.byName a) = true := by
  rw [Bool.or_eq_true]
  exact (le_total a.name b.name).imp decide_eq_true decide_eq_true

namespace Registry

theorem pairwise_mergeSort (patches : List Patch) :
    (patches.mergeSort Patch.byName).Pairwise fun a b => a.name ≤ b.name :=
  (List.pairwise_mergeSort Patch.byName_trans Patch.byName_total patches).imp of_decide_eq_true

/-- Sorting keeps the patches of one name as they stand. -/
theorem named_mergeSort (name : String) (patches : List Patch) :
    named name (patches.mergeSort Patch.byName) = named name patches := by
  have hsame : (named name patches).Pairwise fun a b => a.byName b = true :=
    List.pairwise_of_forall_mem_list fun a ha b hb =>
      decide_eq_true (le_of_eq ((mem_named.mp ha).2.trans (mem_named.mp hb).2.symm))
  have hsublist := (List.sublist_mergeSort Patch.byName_trans Patch.byName_total hsame
    List.filter_sublist).filter (·.name = name)
  have hagain : (named name patches).filter (·.name = name) = named name patches :=
    List.filter_eq_self.mpr fun a ha => decide_eq_true (mem_named.mp ha).2
  rw [hagain] at hsublist
  exact (hsublist.eq_of_length ((patches.mergeSort_perm Patch.byName).filter _).length_eq.symm).symm

/-- A registry holds the stable sort of what was registered. -/
theorem patches_ofPatches (patches : List Patch) :
    (ofPatches patches).patches = patches.mergeSort Patch.byName := by
  obtain ⟨hordered, hnamed⟩ := ordered_empty.foldl_register patches
  refine eq_of_named hordered (pairwise_mergeSort patches) fun name => ?_
  rw [named_mergeSort]
  exact hnamed name

/-- Where no name comes twice, the order of registering does not matter. -/
theorem ofPatches_eq_of_perm {patches others : List Patch} (hperm : others.Perm patches)
    (hnodup : (patches.map Patch.name).Nodup) : ofPatches others = ofPatches patches := by
  have hsorted : (others.mergeSort Patch.byName).Perm (patches.mergeSort Patch.byName) :=
    ((others.mergeSort_perm _).trans hperm).trans (patches.mergeSort_perm _).symm
  have hmem : ∀ {patch : Patch}, patch ∈ patches.mergeSort Patch.byName → patch ∈ patches :=
    (patches.mergeSort_perm _).mem_iff.mp
  refine congrArg Registry.mk ?_
  change (ofPatches others).patches = (ofPatches patches).patches
  rw [patches_ofPatches, patches_ofPatches]
  refine List.Perm.eq_of_pairwise (fun a b ha hb hab hba => ?_) (pairwise_mergeSort others)
    (pairwise_mergeSort patches) hsorted
  exact List.inj_on_of_nodup_map hnodup (hmem (hsorted.mem_iff.mp ha)) (hmem hb) (le_antisymm hab hba)

end Registry

/-! ## Chains of patches -/

namespace Patch

/-- What patches make of bytes, one after the other, and which of them run on what: each runs on what the one
before made, and behind one that fails none does. -/
inductive Chain : List Patch → Bytes → List (Patch × Bytes) → Except Fault Bytes → Prop where
  | done {bytes : Bytes} : Chain [] bytes [] (.ok bytes)
  | applied {patch : Patch} {rest : List Patch} {bytes next : Bytes} {runs : List (Patch × Bytes)}
    {result : Except Fault Bytes} :
    patch.apply bytes = .ok next → Chain rest next runs result → Chain (patch :: rest) bytes
    ((patch, bytes) :: runs) result
  | failed {patch : Patch} {rest : List Patch} {bytes : Bytes} {fault : Fault} :
    patch.apply bytes = .error fault → Chain (patch :: rest) bytes [(patch, bytes)] (.error fault)

theorem exists_chain : ∀ (patches : List Patch) (bytes : Bytes), ∃ runs result, Chain patches bytes runs result
  | [], bytes => ⟨_, _, .done⟩
  | patch :: rest, bytes => by
    cases happly : patch.apply bytes with
    | error fault => exact ⟨_, _, .failed happly⟩
    | ok next =>
      obtain ⟨runs, result, h⟩ := exists_chain rest next
      exact ⟨_, _, .applied happly h⟩

/-- Runs a patch and writes down that it ran, and on what. -/
def record (patch : Patch) (bytes : Bytes) : ExceptT Fault (StateM (List (Patch × Bytes))) Bytes :=
  .mk fun runs => (patch.apply bytes, runs ++ [(patch, bytes)])

end Patch

namespace Registry

/-- What a transformation does with a patch that wants the class. -/
def step {m : Type → Type} [Monad m] (run : Patch → Bytes → m Bytes) (bytes : Bytes) (output : Option Bytes)
    (patch : Patch) : m (Option Bytes) :=
  some <$> run patch (output.getD bytes)

/-- Patches that do not want the class are left out. -/
theorem transformWith_eq {m : Type → Type} [Monad m] [LawfulMonad m] (run : Patch → Bytes → m Bytes)
    (registry : Registry) (className : String) (bytes : Bytes) :
    transformWith run registry className bytes =
      (registry.patches.filter (·.targets className)).foldlM (step run bytes) none :=
  List.foldlM_filter.symm

/-- From an output on, patches make of it what their chain does. -/
theorem foldlM_apply (bytes : Bytes) {patches : List Patch} {output : Bytes} {runs : List (Patch × Bytes)}
    {result : Except Fault Bytes} (h : Patch.Chain patches output runs result) :
    patches.foldlM (step Patch.apply bytes) (some output) = result.map some := by
  induction h with
  | done => rfl
  | applied happly _ ih =>
    rw [List.foldlM_cons]
    unfold step
    rw [Option.getD_some, happly]
    exact ih
  | failed happly =>
    rw [List.foldlM_cons]
    unfold step
    rw [Option.getD_some, happly]
    rfl

/-- The patches that run are those of the chain. -/
theorem foldlM_record (bytes : Bytes) {patches : List Patch} {output : Bytes} {runs : List (Patch × Bytes)}
    {result : Except Fault Bytes} (h : Patch.Chain patches output runs result) (before : List (Patch × Bytes)) :
    (patches.foldlM (step Patch.record bytes) (some output)).run.run before =
    (result.map some, before ++ runs) := by
  -- one step records the patch and the bytes that it was applied to
  have hstep : ∀ (patch : Patch) (output : Bytes) (before : List (Patch × Bytes)),
      (step Patch.record bytes (some output) patch).run.run before =
        ((patch.apply output).map some, before ++ [(patch, output)]) := by
    intro patch output before
    change ((Functor.map some (Patch.record patch output)).run.run before) = _
    rw [ExceptT.run_map]
    rfl
  induction h generalizing before with
  | done => rw [List.append_nil]; rfl
  | @applied patch rest bytes next runs result happly _ ih =>
    have h := hstep patch bytes before
    rw [happly] at h
    rw [List.foldlM_cons, ExceptT.run_bind, StateT.run_bind, h]
    refine (ih (before ++ [(patch, bytes)])).trans ?_
    rw [List.append_assoc]
    rfl
  | @failed patch rest bytes fault happly =>
    have h := hstep patch bytes before
    rw [happly] at h
    rw [List.foldlM_cons, ExceptT.run_bind, StateT.run_bind, h]
    rfl

/-- The patches that want a class run as a chain, and the output is what the chain makes of the class, if there
is one. -/
theorem transform_chain (registry : Registry) (className : String) (bytes : Bytes) :
    ∃ runs result, Patch.Chain (registry.patches.filter (·.targets className)) bytes runs result ∧
      (transformWith Patch.record registry className bytes).run.run [] =
      (registry.transform className bytes, runs) ∧ registry.transform className bytes =
        if (registry.patches.filter (·.targets className)).isEmpty then .ok none else result.map some := by
  obtain ⟨runs, result, hchain⟩ := Patch.exists_chain (registry.patches.filter (·.targets className)) bytes
  refine ⟨runs, result, hchain, ?_⟩
  unfold transform
  rw [transformWith_eq, transformWith_eq]
  cases hwanted : registry.patches.filter (·.targets className) with
  | nil =>
    rw [hwanted] at hchain
    cases hchain
    exact ⟨rfl, rfl⟩
  | cons patch rest =>
    -- the first patch finds the bytes as if they were the output of a patch before it
    rw [hwanted] at hchain
    have happly : (patch :: rest).foldlM (step Patch.apply bytes) none = result.map some :=
      foldlM_apply bytes hchain
    refine ⟨?_, happly⟩
    rw [happly]
    exact foldlM_record bytes hchain []

/-- There is no output just where no patch wants the class. -/
theorem transform_eq_none_iff {registry : Registry} {className : String} {bytes : Bytes} :
    registry.transform className bytes = .ok none ↔ ∀ patch ∈ registry.patches, patch.targets className =
    false := by
  obtain ⟨runs, result, -, -, hresult⟩ := registry.transform_chain className bytes
  have hempty : registry.patches.filter (·.targets className) = [] ↔ ∀ patch ∈ registry.patches,
      patch.targets className = false := by
    simp only [List.filter_eq_nil_iff, Bool.not_eq_true]
  rw [hresult, ← hempty, ← List.isEmpty_iff]
  split_ifs with hnone
  · exact ⟨fun _ => hnone, fun _ => rfl⟩
  · refine ⟨fun h => ?_, fun h => absurd h hnone⟩
    cases result <;> cases h

/-- Registering patches one after the other gives their stable sort by name: the names are in order, and the
patches of one name stand as they were registered; so where names differ, the order of registering does not
matter. A class comes out unchanged just where no patch wants it. Otherwise the patches that want it run in this
order, each on the output of the one before, up to the first that fails, and no other patch runs. -/
theorem ofPatches_chains (patches : List Patch) :
    ((ofPatches patches).patches = patches.mergeSort Patch.byName ∧ (ofPatches patches).Ordered ∧
      ∀ name, named name (ofPatches patches).patches = named name patches) ∧
    (∀ others : List Patch, others.Perm patches → (patches.map Patch.name).Nodup →
      ofPatches others = ofPatches patches) ∧
    ∀ (className : String) (bytes : Bytes),
      ((ofPatches patches).transform className bytes = .ok none ↔ ∀ patch ∈ patches,
      patch.targets className = false) ∧ ∃ runs result,
        Patch.Chain ((patches.mergeSort Patch.byName).filter (·.targets className)) bytes runs result ∧
        (transformWith Patch.record (ofPatches patches) className bytes).run.run [] =
          ((ofPatches patches).transform className bytes, runs) ∧
        ((∃ patch ∈ patches, patch.targets className = true) →
          (ofPatches patches).transform className bytes = result.map some) := by
  have hsorted := patches_ofPatches patches
  have hmem : ∀ {patch : Patch}, patch ∈ (ofPatches patches).patches ↔ patch ∈ patches := by
    intro patch
    rw [hsorted]
    exact (patches.mergeSort_perm _).mem_iff
  obtain ⟨hordered, hnamed⟩ := ordered_empty.foldl_register patches
  refine ⟨⟨hsorted, hordered, hnamed⟩, fun others hperm hnodup => ofPatches_eq_of_perm hperm hnodup,
    fun className bytes => ?_⟩
  refine ⟨?_, ?_⟩
  · rw [transform_eq_none_iff]
    simp only [hmem]
  · obtain ⟨runs, result, hchain, hruns, hresult⟩ := (ofPatches patches).transform_chain className bytes
    refine ⟨runs, result, hsorted ▸ hchain, hruns, fun ⟨patch, hpatch, hwants⟩ => ?_⟩
    -- a patch that targets the class is in the chain, so there is one
    have hwanted : patch ∈ (ofPatches patches).patches.filter (·.targets className) :=
      List.mem_filter.mpr ⟨hmem.mpr hpatch, hwants⟩
    rw [hresult, if_neg fun hnone => ?_]
    rw [List.isEmpty_iff.mp hnone] at hwanted
    cases hwanted

/-- A patch of all classes, which puts a byte behind a class. -/
def appending (name : String) (byte : UInt8) : Patch :=
  ⟨name, fun _ => true, fun bytes => .ok (bytes ++ [byte])⟩

example : ((ofPatches [appending "b" 2, appending "a" 1]).transform "C" [0]).toOption =
    some (some [0, 1, 2]) := by
  cbv

/-- Two patches, registered in both orders. -/
theorem ofPatches_chains_two :
    let patches := [appending "b" 2, appending "a" 1]
    let others := [appending "a" 1, appending "b" 2]
    (others.Perm patches ∧ (patches.map Patch.name).Nodup) ∧ (∃ patch ∈ patches, patch.targets "C" = true) ∧
      ofPatches others = ofPatches patches ∧
      ∃ runs result, Patch.Chain ((patches.mergeSort Patch.byName).filter (·.targets "C")) [0] runs result ∧
        (ofPatches patches).transform "C" [0] = result.map some := by
  intro patches others
  have hperm : others.Perm patches := .swap _ _ _
  have hnodup : (patches.map Patch.name).Nodup := by decide
  have hwants : ∃ patch ∈ patches, patch.targets "C" = true := ⟨_, List.mem_cons_self, rfl⟩
  obtain ⟨-, horder, hchain⟩ := ofPatches_chains patches
  obtain ⟨-, runs, result, hruns, -, hresult⟩ := hchain "C" [0]
  exact ⟨⟨hperm, hnodup⟩, hwants, horder others hperm hnodup, runs, result, hruns, hresult hwants⟩

end Registry

end ClassWeave
