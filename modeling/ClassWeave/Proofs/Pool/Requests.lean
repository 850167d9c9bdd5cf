import ClassWeave.Method.Assembly
import ClassWeave.Proofs.Pool.Format

/-!
# Pools that are served requests

A pool starts out empty or as it was read, and then answers any number of requests (`Pool.serve`). A request
that fails leaves what it added before. Whatever a pool was asked, its entries stand one behind the other, the
slots, the count of slots and the table of lowest indices agree (`Pool.Consistent`), and nothing that was there
has moved.
-/

namespace ClassWeave

/-! ## What an action leaves -/

namespace Pool

variable {ε α β : Type}

/-- The pool that an action leaves, whether it succeeds or fails. -/
def after (p : Pool) (action : EStateM ε Pool α) : Pool :=
  match action p with
  | .ok _ q => q
  | .error _ q => q

theorem after_of_ok {p q : Pool} {action : EStateM ε Pool α} {a : α} (h : action p = .ok a q) :
    p.after action = q := by
  simp [after, h]

theorem after_of_error {p q : Pool} {action : EStateM ε Pool α} {e : ε} (h : action p = .error e q) :
    p.after action = q := by
  simp [after, h]

/-- The second part of a sequence only counts where the first succeeds. -/
theorem after_bind (p : Pool) (x : EStateM ε Pool α) (f : α → EStateM ε Pool β) : p.after (x >>= f) =
    match x p with
    | .ok a q => q.after (f a)
    | .error _ q => q := by
  show (match EStateM.bind x f p with | .ok _ q => q | .error _ q => q) = _
  unfold EStateM.bind
  cases x p <;> rfl

theorem after_assemblyIntern (p : Pool) (action : Interning α) :
    p.after (Assembly.intern action) = p.after action := by
  unfold after Assembly.intern
  cases action p <;> rfl

theorem after_map (p : Pool) (x : EStateM ε Pool α) (f : α → β) :
    p.after (x >>= fun a => pure (f a)) = p.after x := by
  rw [after_bind]
  unfold after
  cases x p <;> rfl

/-! ## Requests -/

/-- Something that is asked of a pool. -/
inductive Request where
  | constant (c : Constant)
  | utf8 (bytes : Bytes)
  | text (text : String)
  | classRef (name : String)
  | nameAndType (name descriptor : String)
  | refType (type : RefType)
  | fieldRef (field : FieldRef)
  | methodRef (method : MethodRef)
  | callSite (site : CallSite)
  | loadable (constant : Loadable)
  | attributeOf (name : String) (contents : Bytes)

/-- The pool after a request, which may have failed. -/
def serve (p : Pool) : Request → Pool
  | .constant c => p.after (Interning.intern c)
  | .utf8 bytes => p.after (Interning.utf8 bytes)
  | .text text => p.after (Interning.text text)
  | .classRef name => p.after (Interning.classRef name)
  | .nameAndType name descriptor => p.after (Interning.nameAndType name descriptor)
  | .refType type => p.after (Interning.refType type)
  | .fieldRef field => p.after (Interning.fieldRef field)
  | .methodRef method => p.after (Interning.methodRef method)
  | .callSite site => p.after (Interning.callSite site)
  | .loadable constant => p.after (Interning.loadable constant)
  | .attributeOf name contents => p.after (Assembly.attributeOf name contents)

/-- A pool before any request: it is empty, or it was read. -/
def Initial (p : Pool) : Prop :=
  p = empty ∨ ∃ before after, Pool.read before = .ok (p, after)

theorem Initial.wellFormed {p : Pool} (h : p.Initial) : p.WellFormed ∧ ∀ i c, p.get? i = some c → c.Fits := by
  rcases h with rfl | ⟨before, after, hread⟩
  · refine ⟨wellFormed_empty, fun i c hc => ?_⟩
    have hmem := (mem_constants wellFormed_empty.bounded).mpr ⟨i, hc⟩
    simp [entries, empty] at hmem
  · exact (read_gives hread).1

end Pool

/-! ## Requests only add -/

namespace Interning

variable {ε α β : Type} {x : EStateM ε Pool α} {f : α → EStateM ε Pool β}

/-- Whichever way the action ends, the pool has grown, and not past its limit. -/
def Adds (action : EStateM ε Pool α) : Prop :=
  ∀ p : Pool, p.nextIndex ≤ Pool.limit → p.Grows (p.after action) ∧ (p.after action).nextIndex ≤ Pool.limit

theorem Adds.bind (hx : Adds x) (hf : ∀ a, Adds (f a)) : Adds (x >>= f) := by
  intro p hp
  have hfirst := hx p hp
  rw [Pool.after_bind]
  cases hresult : x p with
  | ok a q =>
    rw [Pool.after_of_ok hresult] at hfirst
    obtain ⟨hgrows, hbound⟩ := hf a q hfirst.2
    exact ⟨hfirst.1.trans hgrows, hbound⟩
  | error e q => rwa [Pool.after_of_error hresult] at hfirst

/-- Interning a constant leaves a pool as it was, or puts the constant at its end. -/
theorem after_intern (c : Constant) (p : Pool) :
    p.after (intern c) = p ∨ (p.nextIndex + c.width ≤ Pool.limit ∧ p.after (intern c) = p.push c) := by
  unfold Pool.after intern
  cases p.lowest[c]? with
  | some index => exact .inl rfl
  | none =>
    by_cases hroom : p.nextIndex + c.width ≤ Pool.limit
    · simp [hroom]
    · simp [hroom]

theorem adds_intern (c : Constant) : Adds (intern c) := by
  intro p hp
  rcases after_intern c p with hsame | ⟨hroom, hpushed⟩
  · rw [hsame]
    exact ⟨.refl p, hp⟩
  · rw [hpushed, Pool.nextIndex_push]
    exact ⟨Pool.grows_push p c, hroom⟩

theorem adds_text (text : String) : Adds (Interning.text text) :=
  adds_intern _

theorem adds_classRef (name : String) : Adds (classRef name) :=
  (adds_text name).bind fun _ => adds_intern _

theorem adds_nameAndType (name descriptor : String) : Adds (nameAndType name descriptor) :=
  (adds_text name).bind fun _ => (adds_text descriptor).bind fun _ => adds_intern _

theorem adds_fieldRef (field : FieldRef) : Adds (fieldRef field) :=
  (adds_classRef _).bind fun _ => (adds_nameAndType _ _).bind fun _ => adds_intern _

theorem adds_methodRef (method : MethodRef) : Adds (methodRef method) :=
  (adds_classRef _).bind fun _ => (adds_nameAndType _ _).bind fun _ => adds_intern _

theorem adds_memberRef (member : MemberRef) : Adds (memberRef member) := by
  cases member with
  | field ref => exact adds_fieldRef ref
  | method ref => exact adds_methodRef ref

theorem adds_loadable (constant : Loadable) : Adds (loadable constant) := by
  cases constant with
  | integer | float | long | double => exact adds_intern _
  | string bytes => exact (adds_intern _).bind fun _ => adds_intern _
  | classLiteral type => exact adds_classRef _
  | methodType descriptor => exact (adds_text _).bind fun _ => adds_intern _
  | methodHandle kind member => exact (adds_memberRef member).bind fun _ => adds_intern _
  | dynamic constant => exact (adds_nameAndType _ _).bind fun _ => adds_intern _

end Interning

namespace Pool

open Interning

/-- One request only adds to a pool. -/
theorem serve_adds {p : Pool} (hp : p.nextIndex ≤ limit) (request : Request) :
    p.Grows (p.serve request) ∧ (p.serve request).nextIndex ≤ limit := by
  cases request with
  | constant c => exact adds_intern c p hp
  | utf8 bytes => exact adds_intern _ p hp
  | text text => exact adds_text text p hp
  | classRef name => exact adds_classRef name p hp
  | nameAndType name descriptor => exact adds_nameAndType name descriptor p hp
  | refType type => exact adds_classRef _ p hp
  | fieldRef field => exact adds_fieldRef field p hp
  | methodRef method => exact adds_methodRef method p hp
  | callSite site => exact ((adds_nameAndType _ _).bind fun _ => adds_intern _) p hp
  | loadable constant => exact adds_loadable constant p hp
  | attributeOf name contents =>
    have hadds := adds_text name p hp
    rw [← after_assemblyIntern] at hadds
    rwa [serve, Assembly.attributeOf, after_map]

/-- A run of requests only adds to a pool. -/
theorem foldl_serve_adds (requests : List Request) {p : Pool} (hp : p.nextIndex ≤ limit) :
    p.Grows (requests.foldl serve p) ∧ (requests.foldl serve p).nextIndex ≤ limit := by
  induction requests generalizing p with
  | nil => exact ⟨.refl p, hp⟩
  | cons request requests ih =>
    obtain ⟨hgrows, hbound⟩ := serve_adds hp request
    obtain ⟨hgrows', hbound'⟩ := ih hbound
    exact ⟨hgrows.trans hgrows', hbound'⟩

/-! ## Entries -/

/-- Each entry stands where the one before it ends, the first at `start`, and the last ends at `stop`. -/
inductive Consecutive : (start : Nat) → List (Nat × Constant) → (stop : Nat) → Prop
  | nil (start : Nat) : Consecutive start [] start
  | cons {start stop : Nat} {c : Constant} {rest : List (Nat × Constant)} :
  Consecutive (start + c.width) rest stop →
    Consecutive start ((start, c) :: rest) stop

theorem Consecutive.snoc {start stop : Nat} {entries : List (Nat × Constant)}
    (h : Consecutive start entries stop) (c : Constant) : Consecutive start (entries ++ [(stop, c)])
    (stop + c.width) := by
  induction h with
  | nil start => exact .cons (.nil _)
  | cons _ ih => exact .cons ih

theorem Consecutive.le {start stop : Nat} {entries : List (Nat × Constant)}
    (h : Consecutive start entries stop) : ∀ entry ∈ entries, start ≤ entry.1 := by
  induction h with
  | nil => simp
  | @cons start stop c rest _ ih =>
    intro entry hentry
    rcases List.mem_cons.mp hentry with rfl | hrest
    · exact Nat.le_refl _
    · have := ih entry hrest
      omega

theorem Consecutive.lt {start stop : Nat} {entries : List (Nat × Constant)}
    (h : Consecutive start entries stop) : start ≤ stop ∧ ∀ entry ∈ entries, entry.1 < stop := by
  induction h with
  | nil => simp
  | @cons start stop c rest _ ih =>
    have hpos := c.width_pos
    simp only [List.forall_mem_cons]
    exact ⟨by omega, by omega, ih.2⟩

/-- Entries are in the order of their indices. -/
theorem Consecutive.sorted {start stop : Nat} {entries : List (Nat × Constant)}
    (h : Consecutive start entries stop) : entries.Pairwise fun entry later => entry.1 < later.1 := by
  induction h with
  | nil => exact .nil
  | @cons start stop c rest hrest ih =>
    refine .cons (fun later hlater => ?_) ih
    have hle := hrest.le later hlater
    have hpos := c.width_pos
    show start < later.1
    omega

/-- A constant is pushed to the end. -/
theorem entries_push (p : Pool) (c : Constant) : (p.push c).entries = p.entries ++ [(p.nextIndex, c)] := by
  have hlast : (c.slots.zipIdx p.nextIndex).filterMap (fun slot => slot.1.map fun d => (slot.2, d)) =
      [(p.nextIndex, c)] := by
    unfold Constant.slots
    split_ifs <;> simp
  unfold entries
  rw [push_slots, List.zipIdx_append, List.filterMap_append, Nat.zero_add, Array.length_toList]
  exact congrArg _ hlast

theorem Grows.entries_extend {p q : Pool} (h : p.Grows q) : p.entries <+: q.entries := by
  obtain ⟨cs, rfl⟩ := h
  induction cs generalizing p with
  | nil => exact List.prefix_refl _
  | cons c cs ih =>
    refine List.IsPrefix.trans ?_ ih
    rw [entries_push]
    exact List.prefix_append _ _

theorem consecutive_ofConstants (cs : List Constant) :
    Consecutive 1 (ofConstants cs).entries (ofConstants cs).nextIndex := by
  induction cs using List.reverseRecOn with
  | nil => exact .nil 1
  | append_singleton cs c ih =>
    rw [ofConstants, List.foldl_concat, ← ofConstants, entries_push, nextIndex_push]
    exact ih.snoc c

theorem get?_eq_some_iff {p : Pool} {i : UInt16} {c : Constant} :
    p.get? i = some c ↔ (i.toNat, c) ∈ p.entries := by
  unfold get? entries
  rw [← Array.getElem?_toList]
  simp [List.mem_filterMap, List.mem_zipIdx_iff_getElem?, Option.join_eq_some_iff]

/-- The table has the index of the first entry that is the constant. -/
theorem lowest_ofConstants (cs : List Constant) (c : Constant) : (ofConstants cs).lowest[c]? =
    ((ofConstants cs).entries.find? fun entry => entry.2 = c).map fun entry => entry.1.toUInt16 := by
  induction cs using List.reverseRecOn with
  | nil => simp [ofConstants, empty, entries]
  | append_singleton cs d ih =>
    rw [ofConstants, List.foldl_concat, ← ofConstants, entries_push, push_lowest,
      Std.HashMap.getElem?_insertIfNew, List.find?_append]
    by_cases heq : d = c
    · subst heq
      simp only [Std.HashMap.mem_iff_isSome_getElem?, ih]
      cases (ofConstants cs).entries.find? fun entry => entry.2 = d <;> simp
    · rw [ih]
      cases (ofConstants cs).entries.find? fun entry => entry.2 = c <;> simp [heq]

/-! ## What the parts of a pool agree on -/

/-- The slots of a pool, their count and its table of lowest indices agree. A constant that is there is found at
its lowest index, and one that is not is put at the end, or refused where the end is too near. -/
structure Consistent (p : Pool) : Prop where
  consecutive : Consecutive 1 p.entries p.nextIndex
  bounded : p.nextIndex ≤ 65535
  get : ∀ i c, p.get i = .ok c ↔ (i.toNat, c) ∈ p.entries
  missing : ∀ i : UInt16, (∀ c, (i.toNat, c) ∉ p.entries) → p.get i = .error (.badConstantIndex i)
  found : ∀ c ∈ p.entries.map Prod.snd, ∃ i : UInt16, Interning.intern c p = .ok i p ∧
    (i.toNat, c) ∈ p.entries ∧ ∀ j, (j, c) ∈ p.entries → i.toNat ≤ j
  appended : ∀ c ∉ p.entries.map Prod.snd, p.nextIndex + c.width ≤ 65535 → ∃ (i : UInt16) (q : Pool),
    Interning.intern c p = .ok i q ∧ i.toNat = p.nextIndex ∧ q.entries = p.entries ++ [(p.nextIndex, c)]
  full : ∀ c ∉ p.entries.map Prod.snd, 65535 < p.nextIndex + c.width →
    Interning.intern c p = .error ⟨c, p.nextIndex⟩ p

variable {cs : List Constant}

/-- A constant that is there is found where it stands first. -/
theorem intern_of_mem (hbound : (ofConstants cs).nextIndex ≤ limit) {c : Constant}
    (h : c ∈ (ofConstants cs).entries.map Prod.snd) : ∃ i : UInt16,
      Interning.intern c (ofConstants cs) = .ok i (ofConstants cs) ∧ (i.toNat, c) ∈ (ofConstants cs).entries ∧
        ∀ j, (j, c) ∈ (ofConstants cs).entries → i.toNat ≤ j := by
  obtain ⟨entry, hentry, rfl⟩ := List.mem_map.mp h
  have hlowest := lowest_ofConstants cs entry.2
  cases hfind : (ofConstants cs).entries.find? fun e => e.2 = entry.2 with
  | none => simpa using List.find?_eq_none.mp hfind entry hentry
  | some first =>
    obtain ⟨hsame, before, later, hsplit, hbefore⟩ := List.find?_eq_some_iff_append.mp hfind
    have hfirst : first ∈ (ofConstants cs).entries := List.mem_of_find?_eq_some hfind
    have hlt : first.1 < 65536 := by
      have := (consecutive_ofConstants cs).lt.2 first hfirst
      unfold limit at hbound
      omega
    have hindex : first.1.toUInt16.toNat = first.1 := by
      simp [UInt16.toNat_ofNat', Nat.mod_eq_of_lt hlt]
    have hsame : first.2 = entry.2 := by simpa using hsame
    refine ⟨first.1.toUInt16, ?_, ?_, ?_⟩
    · unfold Interning.intern
      rw [hlowest, hfind]
      rfl
    · rw [hindex, ← hsame]
      exact hfirst
    · -- an entry of the constant is not before the first one, and all that is behind it has a larger index
      intro j hj
      have hsorted := (consecutive_ofConstants cs).sorted
      rw [hsplit] at hj hsorted
      rw [hindex]
      rcases List.mem_append.mp hj with hj | hj
      · simpa using hbefore _ hj
      · rcases List.mem_cons.mp hj with heq | hj
        · simp [← heq]
        · exact Nat.le_of_lt ((List.pairwise_cons.mp (List.pairwise_append.mp hsorted).2.1).1 _ hj)

theorem lowest_of_not_mem {c : Constant} (h : c ∉ (ofConstants cs).entries.map Prod.snd) :
    (ofConstants cs).lowest[c]? = none := by
  rw [lowest_ofConstants, Option.map_eq_none_iff, List.find?_eq_none]
  intro entry hentry heq
  exact h (List.mem_map.mpr ⟨entry, hentry, by simpa using heq⟩)

theorem consistent_ofConstants (hbound : (ofConstants cs).nextIndex ≤ limit) : (ofConstants cs).Consistent where
  consecutive := consecutive_ofConstants cs
  bounded := hbound
  get := fun _ _ => get_eq_ok.trans get?_eq_some_iff
  missing := by
    intro i hnone
    unfold Pool.get
    cases hget : (ofConstants cs).get? i with
    | none => rfl
    | some c => exact absurd (get?_eq_some_iff.mp hget) (hnone c)
  found := fun _ => intern_of_mem hbound
  appended := by
    intro c hnot hroom
    -- the pool is not full, so the index fits into sixteen bits
    have hindex : (ofConstants cs).nextIndex.toUInt16.toNat = (ofConstants cs).nextIndex := by
      unfold limit at hbound
      rw [UInt16.toNat_ofNat', Nat.mod_eq_of_lt (by omega)]
    refine ⟨_, _, intern_ofConstants (by rwa [constants_ofConstants] at hnot) hroom, hindex, ?_⟩
    rw [ofConstants, List.foldl_concat, ← ofConstants, entries_push]
  full := by
    intro c hnot hfull
    unfold Interning.intern
    rw [lowest_of_not_mem hnot]
    exact if_neg (Nat.not_le.mpr hfull)

/-- Whatever was asked of a pool that was empty or read, its parts agree, and a request leaves every entry where
it was. -/
theorem foldl_serve_consistent {p : Pool} (hp : p.Initial) (requests : List Request) :
    (requests.foldl serve p).Consistent ∧
      ∀ request, (requests.foldl serve p).entries <+: ((requests.foldl serve p).serve request).entries := by
  obtain ⟨cs, rfl⟩ := hp.wellFormed.1.built
  obtain ⟨⟨ds, hds⟩, hbound⟩ := foldl_serve_adds requests hp.wellFormed.1.bounded
  refine ⟨?_, fun request => (serve_adds hbound request).1.entries_extend⟩
  have hsame : requests.foldl serve (ofConstants cs) = ofConstants (cs ++ ds) := by
    rw [hds]
    exact List.foldl_append.symm
  rw [hsame] at hbound ⊢
  exact consistent_ofConstants hbound

/-- A pool with `"a"` at 1 and 4, a number at 2 and a class at 5. -/
def repeatedBytes : Bytes :=
  [0, 6, 1, 0, 1, 97, 5, 0, 0, 0, 0, 0, 0, 0, 7, 1, 0, 1, 97, 7, 0, 4]

theorem consistent_after_dangling_request : (∃ p rest, Pool.read (Cursor.start repeatedBytes) = .ok (p, rest)) ∧
    ∀ p rest, Pool.read (Cursor.start repeatedBytes) = .ok (p, rest) →
      ([.text "a", .constant (.classRef 9), .loadable (.long 7)].foldl serve p).Consistent := by
  have hread : (Pool.read (Cursor.start repeatedBytes)).toBool = true := by decide +kernel
  constructor
  · cases h : Pool.read (Cursor.start repeatedBytes) with
    | ok found => exact ⟨_, _, rfl⟩
    | error reason => simp [h, Except.toBool] at hread
  · intro p rest h
    exact (foldl_serve_consistent (.inr ⟨_, _, h⟩) _).1

end Pool

end ClassWeave
