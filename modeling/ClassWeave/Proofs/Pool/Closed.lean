import ClassWeave.Proofs.Pool.Requests
import ClassWeave.Proofs.Pool.Symbol

/-!
# Pools stay readable

A symbolic request never leaves a reference that leads nowhere, also where the pool is too full for all of it:
the parts of a constant are added before the constant. So a pool that is served requests whose texts the format
can say is read back as it was written (`Pool.foldl_serve_readable`).
-/

namespace ClassWeave

/-! ## The texts of symbols -/

def FieldRef.texts (field : FieldRef) : List Bytes :=
  [field.owner.text, field.name.text, field.type.render].map ModifiedUtf8.encode

def MethodRef.texts (method : MethodRef) : List Bytes :=
  [method.owner.className, method.name.text, method.descriptor.render].map ModifiedUtf8.encode

def MemberRef.texts : MemberRef → List Bytes
  | .field ref => ref.texts
  | .method ref => ref.texts

def Loadable.texts : Loadable → List Bytes
  | .integer _ | .float _ | .long _ | .double _ => []
  | .string bytes => [bytes]
  | .classLiteral type => [ModifiedUtf8.encode type.className]
  | .methodType descriptor => [ModifiedUtf8.encode descriptor.render]
  | .methodHandle _ member => member.texts
  | .dynamic constant => [constant.name.text, constant.type.render].map ModifiedUtf8.encode

namespace Pool

/-- The texts that a request puts into the pool. -/
def Request.texts : Request → List Bytes
  | .constant _ => []
  | .utf8 bytes => [bytes]
  | .text s => [ModifiedUtf8.encode s]
  | .classRef name => [ModifiedUtf8.encode name]
  | .nameAndType name descriptor => [name, descriptor].map ModifiedUtf8.encode
  | .refType type => [ModifiedUtf8.encode type.className]
  | .fieldRef field => field.texts
  | .methodRef method => method.texts
  | .callSite site => [site.name.text, site.descriptor.render].map ModifiedUtf8.encode
  | .loadable l => l.texts
  | .attributeOf name _ => [ModifiedUtf8.encode name]

/-- A request through which no reference to a wrong entry can get in: it is not for a bare constant, whose
indices could be any, and a method handle comes with a member of its kind. -/
def Request.IsSymbolic : Request → Prop
  | .constant _ => False
  | .loadable (.methodHandle kind member) => kind.Fits member
  | _ => True

/-- A symbolic request whose texts are no longer than the format can say. -/
structure Request.Fits (request : Request) : Prop where
  symbolic : request.IsSymbolic
  texts : ∀ bytes ∈ request.texts, bytes.length < 2 ^ 16

/-- A pool that can be written: it is well formed, and its texts are no longer than the format can say. -/
structure Readable (p : Pool) : Prop where
  wellFormed : p.WellFormed
  fits : ∀ i c, p.get? i = some c → c.Fits

/-- An entry of the kind stands at the index. -/
def Has (p : Pool) (kind : ConstantKind) (i : UInt16) : Prop :=
  ∃ c, p.get? i = some c ∧ kind.accepts c = true

theorem Grows.has {p q : Pool} (h : p.Grows q) {kind : ConstantKind} {i : UInt16} (hi : p.Has kind i) :
    q.Has kind i := by
  obtain ⟨c, hc, haccepts⟩ := hi
  exact ⟨c, h.get? hc, haccepts⟩

/-- A constant other than a handle is right where its references are. -/
theorem checkReferences_of_has {p : Pool} {c : Constant} (hc : ∀ kind member, c ≠ .methodHandle kind member)
    (hrefs : ∀ reference ∈ c.references, p.Has reference.2 reference.1) : p.checkReferences c = .ok () :=
  (checkReferences_eq_ok hc).mpr hrefs

end Pool

/-! ## Actions that leave a pool readable -/

namespace Interning

variable {ε α β : Type} {p : Pool}

/-- Whichever way the action ends, it leaves a readable pool that has grown. Where it succeeds, `post` holds. -/
structure Serves (p : Pool) (action : EStateM ε Pool α) (post : α → Pool → Prop) : Prop where
  readable : (p.after action).Readable
  grows : p.Grows (p.after action)
  post : ∀ a q, action p = .ok a q → post a q

theorem Serves.bind {x : EStateM ε Pool α} {f : α → EStateM ε Pool β} {post : α → Pool → Prop}
    {post' : β → Pool → Prop} (hx : Serves p x post)
    (hf : ∀ a q, q.Readable → p.Grows q → post a q → Serves q (f a) post') : Serves p (x >>= f) post' := by
  have hafter := Pool.after_bind p x f
  cases hresult : x p with
  | ok a q =>
    have hq := hx.readable
    have hgrows := hx.grows
    rw [Pool.after_of_ok hresult] at hq hgrows
    have hsecond := hf a q hq hgrows (hx.post a q hresult)
    rw [hresult] at hafter
    refine ⟨hafter ▸ hsecond.readable, hafter ▸ hgrows.trans hsecond.grows, fun b r hb => ?_⟩
    obtain ⟨a', q', ha, hb⟩ := Outcome.estate_bind.mp hb
    rw [hresult] at ha
    cases ha
    exact hsecond.post b r hb
  -- a request that fails may have interned constants already
  | error e q =>
    have hq := hx.readable
    have hgrows := hx.grows
    rw [Pool.after_of_error hresult] at hq hgrows
    rw [hresult] at hafter
    refine ⟨hafter ▸ hq, hafter ▸ hgrows, fun b r hb => ?_⟩
    obtain ⟨a, q', ha, -⟩ := Outcome.estate_bind.mp hb
    rw [hresult] at ha
    cases ha

/-- The step that all others are made of: a constant whose references are right may be added. -/
theorem serves_intern (hp : p.Readable) {c : Constant} (hfits : c.Fits) (hrefs : p.checkReferences c = .ok ()) :
    Serves p (intern c) fun i q => q.get? i = some c := by
  refine ⟨?_, (adds_intern c p hp.wellFormed.bounded).1, fun i q h => (intern_ok hp.wellFormed hrefs h).post⟩
  rcases after_intern c p with hsame | ⟨hroom, hpushed⟩
  · rwa [hsame]
  · rw [hpushed]
    refine ⟨hp.wellFormed.push hroom hrefs, fun i d hd => ?_⟩
    rcases Pool.get?_push hd with rfl | hd
    · exact hfits
    · exact hp.fits i d hd

variable {post : α → Pool → Prop}

theorem Serves.imp {post' : α → Pool → Prop} {action : EStateM ε Pool α} (h : Serves p action post)
    (himp : ∀ a q, post a q → post' a q) : Serves p action post' :=
  ⟨h.readable, h.grows, fun a q ha => himp a q (h.post a q ha)⟩

theorem serves_utf8 (hp : p.Readable) {bytes : Bytes} (hfits : bytes.length < 2 ^ 16) :
    Serves p (utf8 bytes) fun i q => q.Has .utf8 i := by
  have hrefs : p.checkReferences (.utf8 bytes) = .ok () :=
    Pool.checkReferences_of_has (by simp) (by simp [Constant.references])
  exact (serves_intern (c := .utf8 bytes) hp hfits hrefs).imp fun i q h => ⟨_, h, rfl⟩

/-- A constant other than a text, all of whose references are there. -/
theorem serves_constant (hp : p.Readable) {c : Constant} (htext : ∀ bytes, c ≠ .utf8 bytes)
    (hhandle : ∀ kind member, c ≠ .methodHandle kind member)
    (hrefs : ∀ reference ∈ c.references, p.Has reference.2 reference.1) :
    Serves p (intern c) fun i q => q.get? i = some c := by
  refine serves_intern hp ?_ (Pool.checkReferences_of_has hhandle hrefs)
  cases c with
  | utf8 bytes => exact absurd rfl (htext bytes)
  | _ => trivial

theorem serves_text (hp : p.Readable) {s : String} (hfits : (ModifiedUtf8.encode s).length < 2 ^ 16) :
    Serves p (text s) fun i q => q.Has .utf8 i :=
  serves_utf8 hp hfits

theorem serves_classRef (hp : p.Readable) {name : String} (hfits : (ModifiedUtf8.encode name).length < 2 ^ 16) :
    Serves p (classRef name) fun i q => q.Has .classRef i := by
  refine (serves_text hp hfits).bind fun i q hq _ hi => ?_
  have hclass := serves_constant (c := .classRef i) hq (by simp) (by simp)
    (by simpa [Constant.references] using hi)
  exact hclass.imp fun j r h => ⟨_, h, rfl⟩

theorem serves_nameAndType (hp : p.Readable) {name descriptor : String}
    (hname : (ModifiedUtf8.encode name).length < 2 ^ 16)
    (hdescriptor : (ModifiedUtf8.encode descriptor).length < 2 ^ 16) :
    Serves p (nameAndType name descriptor) fun i q => q.Has .nameAndType i := by
  refine (serves_text hp hname).bind fun i q hq _ hi =>
    (serves_text hq hdescriptor).bind fun j r hr hgrows hj => ?_
  have hpair := serves_constant (c := .nameAndType i j) hr (by simp) (by simp)
    (by simpa [Constant.references] using ⟨hgrows.has hi, hj⟩)
  exact hpair.imp fun k s h => ⟨_, h, rfl⟩

/-! ## Symbols -/

theorem serves_fieldRef (hp : p.Readable) {field : FieldRef}
    (hfits : ∀ bytes ∈ field.texts, bytes.length < 2 ^ 16) :
    Serves p (fieldRef field) fun i q => ∃ owner member, q.get? i = some (.fieldRef owner member) := by
  simp only [FieldRef.texts, List.map_cons, List.map_nil, List.forall_mem_cons] at hfits
  refine (serves_classRef hp hfits.1).bind fun i q hq _ hi =>
    (serves_nameAndType hq hfits.2.1 hfits.2.2.1).bind fun j r hr hgrows hj => ?_
  have hfield := serves_constant (c := .fieldRef i j) hr (by simp) (by simp)
    (by simpa [Constant.references] using ⟨hgrows.has hi, hj⟩)
  exact hfield.imp fun k s h => ⟨i, j, h⟩

theorem serves_methodRef (hp : p.Readable) {method : MethodRef}
    (hfits : ∀ bytes ∈ method.texts, bytes.length < 2 ^ 16) : Serves p (methodRef method) fun i q =>
      ∃ owner member, q.get? i = some (.methodRef owner member method.isInterface) := by
  simp only [MethodRef.texts, List.map_cons, List.map_nil, List.forall_mem_cons] at hfits
  refine (serves_classRef hp hfits.1).bind fun i q hq _ hi =>
    (serves_nameAndType hq hfits.2.1 hfits.2.2.1).bind fun j r hr hgrows hj => ?_
  have hmethod := serves_constant (c := .methodRef i j method.isInterface) hr (by simp) (by simp)
    (by simpa [Constant.references] using ⟨hgrows.has hi, hj⟩)
  exact hmethod.imp fun k s h => ⟨i, j, h⟩

/-- The entry of a member is one that a handle of its kind accepts. -/
theorem serves_memberRef (hp : p.Readable) {member : MemberRef}
    (hfits : ∀ bytes ∈ member.texts, bytes.length < 2 ^ 16) {kind : HandleKind} (hkind : kind.Fits member) :
    Serves p (memberRef member) fun i q => ∃ c, q.get? i = some c ∧ kind.accepts c = true := by
  cases member with
  | field ref =>
    refine (serves_fieldRef hp hfits).imp fun i q => ?_
    rintro ⟨owner, place, h⟩
    exact ⟨_, h, hkind⟩
  | method method =>
    refine (serves_methodRef hp hfits).imp fun i q => ?_
    rintro ⟨owner, place, h⟩
    exact ⟨_, h, hkind⟩

theorem serves_callSite (hp : p.Readable) {site : CallSite}
    (hname : (ModifiedUtf8.encode site.name.text).length < 2 ^ 16)
    (hdescriptor : (ModifiedUtf8.encode site.descriptor.render).length < 2 ^ 16) :
    Serves p (callSite site) fun _ _ => True := by
  refine (serves_nameAndType hp hname hdescriptor).bind fun i q hq _ hi => ?_
  have hsite := serves_constant (c := .invokeDynamic site.bootstrap i) hq (by simp) (by simp)
    (by simpa [Constant.references] using hi)
  exact hsite.imp fun _ _ _ => trivial

theorem serves_loadable (hp : p.Readable) {constant : Loadable}
    (hfits : (Pool.Request.loadable constant).Fits) : Serves p (loadable constant) fun _ _ => True := by
  have htexts : ∀ bytes ∈ constant.texts, bytes.length < 2 ^ 16 := hfits.texts
  cases constant with
  | integer | float | long | double =>
    exact (serves_constant hp (by simp) (by simp) (by simp [Constant.references])).imp fun _ _ _ => trivial
  | string bytes =>
    refine (serves_utf8 hp (htexts bytes (by simp [Loadable.texts]))).bind fun i q hq _ hi => ?_
    have hstring := serves_constant (c := .string i) hq (by simp) (by simp)
      (by simpa [Constant.references] using hi)
    exact hstring.imp fun _ _ _ => trivial
  | classLiteral type =>
    exact (serves_classRef hp (htexts _ (by simp [Loadable.texts]))).imp fun _ _ _ => trivial
  | methodType descriptor =>
    refine (serves_text hp (htexts _ (by simp [Loadable.texts]))).bind fun i q hq _ hi => ?_
    have htype := serves_constant (c := .methodType i) hq (by simp) (by simp)
      (by simpa [Constant.references] using hi)
    exact htype.imp fun _ _ _ => trivial
  -- the kind must go with the member, or the handle is refused
  | methodHandle kind member =>
    refine (serves_memberRef hp htexts hfits.symbolic).bind fun i q hq _ hi => ?_
    have hhandle := serves_intern hq (c := .methodHandle kind i) trivial
      (Pool.checkReferences_methodHandle.mpr hi)
    exact hhandle.imp fun _ _ _ => trivial
  | dynamic constant =>
    simp only [Loadable.texts, List.map_cons, List.map_nil, List.forall_mem_cons] at htexts
    refine (serves_nameAndType hp htexts.1 htexts.2.1).bind fun i q hq _ hi => ?_
    have hdynamic := serves_constant (c := .dynamic constant.bootstrap i) hq (by simp) (by simp)
      (by simpa [Constant.references] using hi)
    exact hdynamic.imp fun _ _ _ => trivial

end Interning

/-! ## Requests -/

namespace Pool

open Interning

/-- A request leaves a readable pool readable, whether it fails or not. -/
theorem Readable.serve {p : Pool} (hp : p.Readable) {request : Request} (hfits : request.Fits) :
    (p.serve request).Readable := by
  have htexts := hfits.texts
  cases request with
  -- bare constants are not asked for
  | constant c => exact absurd hfits.symbolic id
  | utf8 bytes => exact (serves_utf8 hp (htexts _ (by simp [Request.texts]))).readable
  | text text => exact (serves_text hp (htexts _ (by simp [Request.texts]))).readable
  | classRef name => exact (serves_classRef hp (htexts _ (by simp [Request.texts]))).readable
  | nameAndType name descriptor =>
    exact (serves_nameAndType hp (htexts _ (by simp [Request.texts]))
      (htexts _ (by simp [Request.texts]))).readable
  | refType type => exact (serves_classRef hp (htexts _ (by simp [Request.texts]))).readable
  | fieldRef field => exact (serves_fieldRef hp htexts).readable
  | methodRef method => exact (serves_methodRef hp htexts).readable
  | callSite site =>
    exact (serves_callSite hp (htexts _ (by simp [Request.texts]))
      (htexts _ (by simp [Request.texts]))).readable
  | loadable constant => exact (serves_loadable hp hfits).readable
  | attributeOf name contents =>
    have hname := (serves_text (s := name) hp (htexts _ (by simp [Request.texts]))).readable
    rw [← after_assemblyIntern] at hname
    rwa [Pool.serve, Assembly.attributeOf, after_map]

theorem Readable.foldl_serve {requests : List Request} (hfits : ∀ request ∈ requests, request.Fits) {p : Pool}
    (hp : p.Readable) : (requests.foldl Pool.serve p).Readable := by
  induction requests generalizing p with
  | nil => exact hp
  | cons request requests ih =>
    rw [List.forall_mem_cons] at hfits
    exact ih hfits.2 (hp.serve hfits.1)

/-- After any symbolic requests, of which some may have failed, every reference in the pool leads to an entry of
the right kind. The pool is read back from its bytes, of which none is left, with every entry and every lowest
index where it was. -/
theorem foldl_serve_readable {p : Pool} (hp : p.Initial) {requests : List Request}
    (hfits : ∀ request ∈ requests, request.Fits) : (requests.foldl serve p).validate = .ok () ∧
      Pool.read (Cursor.start (requests.foldl serve p).encode) =
        .ok (requests.foldl serve p, ⟨[], (requests.foldl serve p).encode.length⟩) := by
  have hread := Readable.foldl_serve hfits ⟨hp.wellFormed.1, hp.wellFormed.2⟩
  constructor
  · exact (validate_eq_ok hread.wellFormed.bounded).mpr hread.wellFormed.closed
  · have hyields := read_yields hread.wellFormed hread.fits 0 []
    rw [List.append_nil, Nat.zero_add] at hyields
    exact hyields

/-- A handle of a field, a number of two indices and an attribute. -/
def handleRequests : List Request :=
  [.loadable (.methodHandle .getField
    (.field ⟨⟨"Holder", by decide⟩, ⟨"held", by decide +kernel⟩, .base .int⟩)),
    .loadable (.long 7), .attributeOf "Code" [1, 2]]

theorem readable_after_handle : empty.Initial ∧ (∀ request ∈ handleRequests, request.Fits) ∧
    (handleRequests.foldl serve empty).validate = .ok () := by
  have hfits : ∀ request ∈ handleRequests, request.Fits := by
    simp only [handleRequests, List.forall_mem_cons]
    refine ⟨⟨rfl, ?_⟩, ⟨trivial, ?_⟩, ⟨trivial, ?_⟩, by simp⟩
    · decide
    · decide
    · decide
  exact ⟨.inl rfl, hfits, (foldl_serve_readable (.inl rfl) hfits).1⟩

end Pool

end ClassWeave
