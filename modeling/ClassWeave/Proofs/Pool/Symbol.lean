import ClassWeave.Pool.Symbol
import ClassWeave.Proofs.Descriptor
import ClassWeave.Proofs.Pool.Growth

/-!
# Symbols in a pool

What an index resolves to, said through the entries (`text_eq_ok` and its kin), stays when the pool grows; and
what was interned resolves to the symbol again. Types have to be writable, since a descriptor of more than 255
dimensions is not read back; whatever resolves in a pool is.
-/

namespace ClassWeave

/-! ## Operands that can be written -/

/-- The types of a field reference are writable. -/
def FieldRef.IsWritable (ref : FieldRef) : Prop :=
  ref.type.IsWritable

/-- The types of a method reference are writable. -/
structure MethodRef.IsWritable (method : MethodRef) : Prop where
  owner : method.owner.IsWritable
  descriptor : method.descriptor.IsWritable

/-- The types of a handle's member are writable. -/
def MemberRef.IsWritable : MemberRef → Prop
  | .field ref => ref.IsWritable
  | .method m => m.IsWritable

/-- A handle leads to a member of its kind. -/
def HandleKind.Fits (kind : HandleKind) : MemberRef → Prop
  | .field _ => kind.isField = true
  | .method m => kind.accepts (.methodRef 0 0 m.isInterface) = true

/-- The types of a constant are writable, and a handle fits its member. -/
def Loadable.IsWritable : Loadable → Prop
  | .classLiteral type => type.IsWritable
  | .methodType descriptor => descriptor.IsWritable
  | .methodHandle kind member => member.IsWritable ∧ kind.Fits member
  | .dynamic constant => constant.type.IsWritable
  | _ => True

/-- The member is a field. -/
def MemberRef.isField : MemberRef → Bool
  | .field _ => true
  | .method _ => false

/-- What resolves to the constant can be read: its types are writable, and a handle is one of fields where its
member is a field. To which methods a handle of methods may lead is not looked at. -/
def Loadable.IsReadable : Loadable → Prop
  | .methodHandle kind member => member.IsWritable ∧ kind.isField = member.isField
  | constant => constant.IsWritable

theorem HandleKind.not_isField_of_fits {kind : HandleKind} {method : MethodRef}
    (h : kind.Fits (.method method)) : kind.isField = false := by
  cases kind <;> first | rfl | cases h

theorem asUnqualifiedName_text (name : UnqualifiedName) : asUnqualifiedName name.text = .ok name := by
  unfold asUnqualifiedName
  rw [UnqualifiedName.ofString_text]
  rfl

theorem asFieldType_render {type : FieldType} (h : type.IsWritable) : asFieldType type.render = .ok type := by
  unfold asFieldType
  rw [FieldType.ofDescriptor_render h]
  rfl

theorem asMethodDescriptor_render {descriptor : MethodDescriptor} (h : descriptor.IsWritable) :
    asMethodDescriptor descriptor.render = .ok descriptor := by
  unfold asMethodDescriptor
  rw [MethodDescriptor.ofDescriptor_render h]
  rfl

/-! ## Resolving -/

namespace Pool

variable {p q : Pool} {i : UInt16}

theorem utf8_eq_ok {bytes : Bytes} : p.utf8 i = .ok bytes ↔ p.get? i = some (.utf8 bytes) := by
  unfold utf8
  rw [Outcome.except_bind]
  constructor
  · rintro ⟨c, hc, h⟩
    rw [get_eq_ok] at hc
    cases c <;> cases h
    exact hc
  · intro h
    exact ⟨_, get_eq_ok.mpr h, rfl⟩

theorem text_eq_ok {s : String} :
    p.text i = .ok s ↔ ∃ bytes, p.get? i = some (.utf8 bytes) ∧ ModifiedUtf8.decode bytes = some s := by
  unfold text
  rw [Outcome.except_bind]
  constructor
  · rintro ⟨bytes, hb, h⟩
    refine ⟨bytes, utf8_eq_ok.mp hb, ?_⟩
    cases hd : ModifiedUtf8.decode bytes with
    | none => rw [hd] at h; cases h
    | some t => rw [hd] at h; cases h; rfl
  · rintro ⟨bytes, hb, hd⟩
    exact ⟨bytes, utf8_eq_ok.mpr hb, by rw [hd]; rfl⟩

theorem classText_eq_ok {s : String} :
    p.classText i = .ok s ↔ ∃ name, p.get? i = some (.classRef name) ∧ p.text name = .ok s := by
  unfold classText
  rw [Outcome.except_bind]
  constructor
  · rintro ⟨c, hc, h⟩
    rw [get_eq_ok] at hc
    cases c with
    | classRef name => exact ⟨name, hc, h⟩
    | _ => cases h
  · rintro ⟨name, hc, h⟩
    exact ⟨_, get_eq_ok.mpr hc, h⟩

/-- The first index of a pool stands for nothing. -/
theorem WellFormed.ne_zero_of_classText (hp : p.WellFormed) {s : String} (h : p.classText i = .ok s) :
    i ≠ 0 := by
  rintro rfl
  obtain ⟨name, hc, -⟩ := classText_eq_ok.mp h
  rw [hp.get?_zero] at hc
  cases hc

theorem nameAndTypeTexts_eq_ok {s t : String} :
    p.nameAndTypeTexts i = .ok (s, t) ↔
      ∃ name type, p.get? i = some (.nameAndType name type) ∧ p.text name = .ok s ∧ p.text type = .ok t := by
  unfold nameAndTypeTexts
  rw [Outcome.except_bind]
  constructor
  · rintro ⟨c, hc, h⟩
    rw [get_eq_ok] at hc
    cases c with
    | nameAndType name type =>
      obtain ⟨s', hs, h⟩ := Outcome.except_bind.mp h
      obtain ⟨t', ht, h⟩ := Outcome.except_bind.mp h
      cases h
      exact ⟨name, type, hc, hs, ht⟩
    | _ => cases h
  · rintro ⟨name, type, hc, hs, ht⟩
    exact ⟨_, get_eq_ok.mpr hc, Outcome.except_bind.mpr ⟨_, hs, Outcome.except_bind.mpr ⟨_, ht, rfl⟩⟩⟩

theorem binaryName_eq_ok {name : BinaryName} :
    p.binaryName i = .ok name ↔ ∃ s, p.classText i = .ok s ∧ asBinaryName s = .ok name :=
  Outcome.except_bind

theorem WellFormed.ne_zero_of_binaryName (hp : p.WellFormed) {name : BinaryName}
    (h : p.binaryName i = .ok name) : i ≠ 0 := by
  obtain ⟨s, hs, -⟩ := binaryName_eq_ok.mp h
  exact hp.ne_zero_of_classText hs

theorem refType_eq_ok {type : RefType} :
    p.refType i = .ok type ↔
      ∃ s, p.classText i = .ok s ∧ (RefType.ofClassName s).mapError Malformed.invalidName = .ok type :=
  Outcome.except_bind

theorem fieldRef_eq_ok {ref : FieldRef} :
    p.fieldRef i = .ok ref ↔
      ∃ owner member s t, p.get? i = some (.fieldRef owner member) ∧ p.binaryName owner = .ok ref.owner ∧
        p.nameAndTypeTexts member = .ok (s, t) ∧ asUnqualifiedName s = .ok ref.name ∧
        asFieldType t = .ok ref.type := by
  unfold fieldRef
  rw [Outcome.except_bind]
  constructor
  · rintro ⟨c, hc, h⟩
    rw [get_eq_ok] at hc
    cases c with
    -- entries of other kinds are refused
    | fieldRef owner member =>
      obtain ⟨o, ho, h⟩ := Outcome.except_bind.mp h
      obtain ⟨⟨s, t⟩, hst, h⟩ := Outcome.except_bind.mp h
      obtain ⟨n, hn, h⟩ := Outcome.except_bind.mp h
      obtain ⟨f, hf, h⟩ := Outcome.except_bind.mp h
      cases h
      exact ⟨owner, member, s, t, hc, ho, hst, hn, hf⟩
    | _ => cases h
  · rintro ⟨owner, member, s, t, hc, ho, hst, hn, hf⟩
    refine ⟨_, get_eq_ok.mpr hc, Outcome.except_bind.mpr ⟨_, ho, Outcome.except_bind.mpr ⟨_, hst, ?_⟩⟩⟩
    exact Outcome.except_bind.mpr ⟨_, hn, Outcome.except_bind.mpr ⟨_, hf, rfl⟩⟩

theorem methodRef_eq_ok {method : MethodRef} :
    p.methodRef i = .ok method ↔
      ∃ owner member s t, p.get? i = some (.methodRef owner member method.isInterface) ∧
        p.nameAndTypeTexts member = .ok (s, t) ∧ p.refType owner = .ok method.owner ∧
        asUnqualifiedName s = .ok method.name ∧ asMethodDescriptor t = .ok method.descriptor := by
  unfold methodRef
  rw [Outcome.except_bind]
  constructor
  · rintro ⟨c, hc, h⟩
    rw [get_eq_ok] at hc
    cases c with
    -- entries of other kinds are refused
    | methodRef owner member isInterface =>
      obtain ⟨⟨s, t⟩, hst, h⟩ := Outcome.except_bind.mp h
      obtain ⟨o, ho, h⟩ := Outcome.except_bind.mp h
      obtain ⟨n, hn, h⟩ := Outcome.except_bind.mp h
      obtain ⟨f, hf, h⟩ := Outcome.except_bind.mp h
      cases h
      exact ⟨owner, member, s, t, hc, hst, ho, hn, hf⟩
    | _ => cases h
  · rintro ⟨owner, member, s, t, hc, hst, ho, hn, hf⟩
    refine ⟨_, get_eq_ok.mpr hc, Outcome.except_bind.mpr ⟨_, hst, Outcome.except_bind.mpr ⟨_, ho, ?_⟩⟩⟩
    exact Outcome.except_bind.mpr ⟨_, hn, Outcome.except_bind.mpr ⟨_, hf, rfl⟩⟩

theorem callSite_eq_ok {site : CallSite} :
    p.callSite i = .ok site ↔
      ∃ member s t, p.get? i = some (.invokeDynamic site.bootstrap member) ∧ p.nameAndTypeTexts member =
      .ok (s, t) ∧
        asUnqualifiedName s = .ok site.name ∧ asMethodDescriptor t = .ok site.descriptor := by
  unfold callSite
  rw [Outcome.except_bind]
  constructor
  · rintro ⟨c, hc, h⟩
    rw [get_eq_ok] at hc
    cases c with
    | invokeDynamic bootstrap member =>
      obtain ⟨⟨s, t⟩, hst, h⟩ := Outcome.except_bind.mp h
      obtain ⟨n, hn, h⟩ := Outcome.except_bind.mp h
      obtain ⟨f, hf, h⟩ := Outcome.except_bind.mp h
      cases h
      exact ⟨member, s, t, hc, hst, hn, hf⟩
    | _ => cases h
  · rintro ⟨member, s, t, hc, hst, hn, hf⟩
    refine ⟨_, get_eq_ok.mpr hc, Outcome.except_bind.mpr ⟨_, hst, ?_⟩⟩
    exact Outcome.except_bind.mpr ⟨_, hn, Outcome.except_bind.mpr ⟨_, hf, rfl⟩⟩

/-- What a pool has at an index from which the constant is loaded. -/
def Loads (p : Pool) (i : UInt16) : Loadable → Prop
  | .integer value => p.get? i = some (.integer value)
  | .float bits => p.get? i = some (.float bits)
  | .long value => p.get? i = some (.long value)
  | .double bits => p.get? i = some (.double bits)
  | .string bytes => ∃ text, p.get? i = some (.string text) ∧ p.utf8 text = .ok bytes
  | .classLiteral type => p.refType i = .ok type
  | .methodType descriptor => ∃ place s, p.get? i = some (.methodType place) ∧ p.text place = .ok s ∧
      asMethodDescriptor s = .ok descriptor
  | .methodHandle kind (.field ref) => kind.isField = true ∧ ∃ member,
      p.get? i = some (.methodHandle kind member) ∧ p.fieldRef member = .ok ref
  | .methodHandle kind (.method m) => kind.isField = false ∧ ∃ member,
      p.get? i = some (.methodHandle kind member) ∧ p.methodRef member = .ok m
  | .dynamic constant => ∃ member s t, p.get? i = some (.dynamic constant.bootstrap member) ∧
      p.nameAndTypeTexts member = .ok (s, t) ∧ asUnqualifiedName s = .ok constant.name ∧
        asFieldType t = .ok constant.type

theorem loadable_eq_ok {l : Loadable} : p.loadable i = .ok l ↔ p.Loads i l := by
  constructor
  -- reading: one case for each constant that may be loaded
  · intro h
    obtain ⟨c, hc, h⟩ := Outcome.except_bind.mp h
    rw [get_eq_ok] at hc
    cases c with
    | integer | float | long | double =>
      cases h
      exact hc
    | string text =>
      obtain ⟨bytes, hbytes, h⟩ := Outcome.except_bind.mp h
      cases h
      exact ⟨text, hc, hbytes⟩
    | classRef name =>
      obtain ⟨type, htype, h⟩ := Outcome.except_bind.mp h
      cases h
      exact htype
    | methodType place =>
      obtain ⟨s, hs, h⟩ := Outcome.except_bind.mp h
      obtain ⟨descriptor, hdescriptor, h⟩ := Outcome.except_bind.mp h
      cases h
      exact ⟨place, s, hc, hs, hdescriptor⟩
    | methodHandle kind member =>
      change (if kind.isField = true then _ else _) = _ at h
      split_ifs at h with hfield
      · obtain ⟨ref, href, h⟩ := Outcome.except_bind.mp h
        cases h
        exact ⟨hfield, member, hc, href⟩
      · obtain ⟨method, hmethod, h⟩ := Outcome.except_bind.mp h
        cases h
        exact ⟨Bool.eq_false_iff.mpr hfield, member, hc, hmethod⟩
    | dynamic bootstrap member =>
      obtain ⟨⟨s, t⟩, hst, h⟩ := Outcome.except_bind.mp h
      obtain ⟨name, hname, h⟩ := Outcome.except_bind.mp h
      obtain ⟨type, htype, h⟩ := Outcome.except_bind.mp h
      cases h
      exact ⟨member, s, t, hc, hst, hname, htype⟩
    | _ => cases h
  -- conversely, what is loaded says which constant the index has
  · intro h
    have hget : ∀ {c : Constant}, p.get? i = some c → p.get i = .ok c := get_eq_ok.mpr
    unfold Pool.loadable
    cases l with
    | integer | float | long | double => exact Outcome.except_bind.mpr ⟨_, hget h, rfl⟩
    | string bytes =>
      obtain ⟨text, hc, hbytes⟩ := h
      exact Outcome.except_bind.mpr ⟨_, hget hc, Outcome.except_bind.mpr ⟨bytes, hbytes, rfl⟩⟩
    | classLiteral type =>
      obtain ⟨s, hs, -⟩ := refType_eq_ok.mp h
      obtain ⟨name, hc, -⟩ := classText_eq_ok.mp hs
      exact Outcome.except_bind.mpr ⟨_, hget hc, Outcome.except_bind.mpr ⟨type, h, rfl⟩⟩
    | methodType descriptor =>
      obtain ⟨place, s, hc, hs, hdescriptor⟩ := h
      exact Outcome.except_bind.mpr ⟨_, hget hc, Outcome.except_bind.mpr ⟨s, hs,
        Outcome.except_bind.mpr ⟨descriptor, hdescriptor, rfl⟩⟩⟩
    | methodHandle kind member =>
      cases member with
      | field ref =>
        obtain ⟨hfield, index, hc, href⟩ := h
        refine Outcome.except_bind.mpr ⟨_, hget hc, ?_⟩
        change (if kind.isField = true then _ else _) = _
        rw [if_pos hfield]
        exact Outcome.except_bind.mpr ⟨ref, href, rfl⟩
      | method method =>
        obtain ⟨hfield, index, hc, hmethod⟩ := h
        refine Outcome.except_bind.mpr ⟨_, hget hc, ?_⟩
        change (if kind.isField = true then _ else _) = _
        rw [if_neg (Bool.eq_false_iff.mp hfield)]
        exact Outcome.except_bind.mpr ⟨method, hmethod, rfl⟩
    | dynamic constant =>
      obtain ⟨member, s, t, hc, hst, hname, htype⟩ := h
      exact Outcome.except_bind.mpr ⟨_, hget hc, Outcome.except_bind.mpr ⟨_, hst,
        Outcome.except_bind.mpr ⟨_, hname, Outcome.except_bind.mpr ⟨_, htype, rfl⟩⟩⟩⟩

/-! ## What resolves can be written -/

theorem isWritable_of_asFieldType {text : String} {type : FieldType} (h : asFieldType text = .ok type) :
    type.IsWritable :=
  FieldType.isWritable_of_ofDescriptor (Outcome.except_mapError.mp h)

theorem isWritable_of_asMethodDescriptor {text : String} {descriptor : MethodDescriptor}
    (h : asMethodDescriptor text = .ok descriptor) : descriptor.IsWritable :=
  MethodDescriptor.isWritable_of_ofDescriptor (Outcome.except_mapError.mp h)

theorem isWritable_of_refType {type : RefType} (h : p.refType i = .ok type) : type.IsWritable := by
  obtain ⟨s, -, hs⟩ := refType_eq_ok.mp h
  exact RefType.isWritable_of_ofClassName (Outcome.except_mapError.mp hs)

theorem isWritable_of_fieldRef {ref : FieldRef} (h : p.fieldRef i = .ok ref) : ref.IsWritable := by
  obtain ⟨owner, member, s, t, -, -, -, -, htype⟩ := fieldRef_eq_ok.mp h
  exact isWritable_of_asFieldType htype

theorem isWritable_of_methodRef {method : MethodRef} (h : p.methodRef i = .ok method) : method.IsWritable := by
  obtain ⟨owner, member, s, t, -, -, howner, -, hdescriptor⟩ := methodRef_eq_ok.mp h
  exact ⟨isWritable_of_refType howner, isWritable_of_asMethodDescriptor hdescriptor⟩

theorem isWritable_of_callSite {site : CallSite} (h : p.callSite i = .ok site) :
    site.descriptor.IsWritable := by
  obtain ⟨member, s, t, -, -, -, hdescriptor⟩ := callSite_eq_ok.mp h
  exact isWritable_of_asMethodDescriptor hdescriptor

theorem isReadable_of_loadable {l : Loadable} (h : p.loadable i = .ok l) : l.IsReadable := by
  rw [loadable_eq_ok] at h
  cases l with
  | integer | float | long | double | string => trivial
  | classLiteral type => exact isWritable_of_refType h
  | methodType descriptor =>
    obtain ⟨place, s, -, -, hdescriptor⟩ := h
    exact isWritable_of_asMethodDescriptor hdescriptor
  | methodHandle kind member =>
    cases member with
    | field ref =>
      obtain ⟨hfield, index, -, href⟩ := h
      exact ⟨isWritable_of_fieldRef href, hfield⟩
    | method method =>
      obtain ⟨hfield, index, -, hmethod⟩ := h
      exact ⟨isWritable_of_methodRef hmethod, hfield⟩
  | dynamic constant =>
    obtain ⟨member, s, t, -, -, -, htype⟩ := h
    exact isWritable_of_asFieldType htype

/-- A handle of a pool that was checked leads to a member of its kind. -/
theorem isWritable_of_loadable (hp : p.WellFormed) {l : Loadable} (h : p.loadable i = .ok l) :
    l.IsWritable := by
  have hreadable := isReadable_of_loadable h
  cases l with
  | methodHandle kind member =>
    refine ⟨hreadable.1, ?_⟩
    cases member with
    | field ref => exact hreadable.2
    | method method =>
      obtain ⟨-, index, hentry, hmethod⟩ := loadable_eq_ok.mp h
      obtain ⟨d, hd, haccepts⟩ := checkReferences_methodHandle.mp (hp.closed i _ hentry)
      obtain ⟨owner, place, s, t, hstored, -⟩ := methodRef_eq_ok.mp hmethod
      rw [hstored] at hd
      cases hd
      exact haccepts
  | _ => exact hreadable

/-! ## What resolves, resolves for good -/

theorem Grows.utf8 (h : p.Grows q) {bytes : Bytes} (hb : p.utf8 i = .ok bytes) : q.utf8 i = .ok bytes :=
  utf8_eq_ok.mpr (h.get? (utf8_eq_ok.mp hb))

theorem Grows.text (h : p.Grows q) {s : String} (hs : p.text i = .ok s) : q.text i = .ok s := by
  obtain ⟨bytes, hb, hd⟩ := text_eq_ok.mp hs
  exact text_eq_ok.mpr ⟨bytes, h.get? hb, hd⟩

theorem Grows.classText (h : p.Grows q) {s : String} (hs : p.classText i = .ok s) : q.classText i = .ok s := by
  obtain ⟨name, hc, ht⟩ := classText_eq_ok.mp hs
  exact classText_eq_ok.mpr ⟨name, h.get? hc, h.text ht⟩

theorem Grows.nameAndTypeTexts (h : p.Grows q) {st : String × String} (hst : p.nameAndTypeTexts i = .ok st) :
    q.nameAndTypeTexts i = .ok st := by
  obtain ⟨name, type, hc, hs, ht⟩ := nameAndTypeTexts_eq_ok.mp hst
  exact nameAndTypeTexts_eq_ok.mpr ⟨name, type, h.get? hc, h.text hs, h.text ht⟩

theorem Grows.binaryName (h : p.Grows q) {name : BinaryName} (hn : p.binaryName i = .ok name) :
    q.binaryName i = .ok name := by
  obtain ⟨s, hs, ha⟩ := binaryName_eq_ok.mp hn
  exact binaryName_eq_ok.mpr ⟨s, h.classText hs, ha⟩

theorem Grows.refType (h : p.Grows q) {type : RefType} (ht : p.refType i = .ok type) :
    q.refType i = .ok type := by
  obtain ⟨s, hs, ha⟩ := refType_eq_ok.mp ht
  exact refType_eq_ok.mpr ⟨s, h.classText hs, ha⟩

theorem Grows.fieldRef (h : p.Grows q) {ref : FieldRef} (hr : p.fieldRef i = .ok ref) :
    q.fieldRef i = .ok ref := by
  obtain ⟨owner, member, s, t, hc, ho, hst, hn, hf⟩ := fieldRef_eq_ok.mp hr
  exact fieldRef_eq_ok.mpr ⟨owner, member, s, t, h.get? hc, h.binaryName ho, h.nameAndTypeTexts hst, hn, hf⟩

theorem Grows.methodRef (h : p.Grows q) {method : MethodRef} (hm : p.methodRef i = .ok method) :
    q.methodRef i = .ok method := by
  obtain ⟨owner, member, s, t, hc, hst, ho, hn, hf⟩ := methodRef_eq_ok.mp hm
  exact methodRef_eq_ok.mpr ⟨owner, member, s, t, h.get? hc, h.nameAndTypeTexts hst, h.refType ho, hn, hf⟩

theorem Grows.callSite (h : p.Grows q) {site : CallSite} (hs : p.callSite i = .ok site) :
    q.callSite i = .ok site := by
  obtain ⟨member, s, t, hc, hst, hn, hf⟩ := callSite_eq_ok.mp hs
  exact callSite_eq_ok.mpr ⟨member, s, t, h.get? hc, h.nameAndTypeTexts hst, hn, hf⟩

theorem Grows.loadable (h : p.Grows q) {l : Loadable} (hl : p.loadable i = .ok l) : q.loadable i = .ok l := by
  rw [loadable_eq_ok] at hl ⊢
  cases l with
  | integer | float | long | double => exact h.get? hl
  | string bytes =>
    obtain ⟨text, hc, hbytes⟩ := hl
    exact ⟨text, h.get? hc, h.utf8 hbytes⟩
  | classLiteral type => exact h.refType hl
  | methodType descriptor =>
    obtain ⟨place, s, hc, hs, hdescriptor⟩ := hl
    exact ⟨place, s, h.get? hc, h.text hs, hdescriptor⟩
  | methodHandle kind member =>
    cases member with
    | field ref =>
      obtain ⟨hfield, index, hc, href⟩ := hl
      exact ⟨hfield, index, h.get? hc, h.fieldRef href⟩
    | method method =>
      obtain ⟨hfield, index, hc, hmethod⟩ := hl
      exact ⟨hfield, index, h.get? hc, h.methodRef hmethod⟩
  | dynamic constant =>
    obtain ⟨member, s, t, hc, hst, hname, htype⟩ := hl
    exact ⟨member, s, t, h.get? hc, h.nameAndTypeTexts hst, hname, htype⟩

end Pool

/-! ## What was interned, resolves -/

namespace Interning

variable {p q : Pool} {i : UInt16}

theorem utf8_ok (hp : p.WellFormed) {bytes : Bytes} (h : utf8 bytes p = .ok i q) :
    Result p q (q.get? i = some (.utf8 bytes)) :=
  intern_ok hp (Pool.checkReferences_eq_ok (by intros; simp)|>.mpr (by intro r hr; cases hr)) h

theorem text_ok (hp : p.WellFormed) {s : String} (h : text s p = .ok i q) : Result p q (q.text i = .ok s) := by
  have r := utf8_ok hp h
  exact ⟨r.wellFormed, r.grows, Pool.text_eq_ok.mpr ⟨_, r.post, ModifiedUtf8.decode_encode s⟩⟩

/-- An index of a text leads to a text entry. -/
theorem accepts_of_text {s : String} (h : p.text i = .ok s) : ∃ d, p.get? i = some d ∧
    ConstantKind.utf8.accepts d = true := by
  obtain ⟨bytes, hb, -⟩ := Pool.text_eq_ok.mp h
  exact ⟨_, hb, rfl⟩

theorem accepts_of_classText {s : String} (h : p.classText i = .ok s) :
    ∃ d, p.get? i = some d ∧ ConstantKind.classRef.accepts d = true := by
  obtain ⟨name, hc, -⟩ := Pool.classText_eq_ok.mp h
  exact ⟨_, hc, rfl⟩

theorem accepts_of_nameAndTypeTexts {st : String × String} (h : p.nameAndTypeTexts i = .ok st) :
    ∃ d, p.get? i = some d ∧ ConstantKind.nameAndType.accepts d = true := by
  obtain ⟨name, type, hc, -⟩ := Pool.nameAndTypeTexts_eq_ok.mp h
  exact ⟨_, hc, rfl⟩

/-- A constant with one reference. -/
theorem intern_one (hp : p.WellFormed) {c : Constant} {j : UInt16} {kind : ConstantKind}
    (hc : ∀ kind member, c ≠ .methodHandle kind member) (hrefs : c.references = [(j, kind)])
    (hj : ∃ d, p.get? j = some d ∧ kind.accepts d = true) (h : intern c p = .ok i q) :
    Result p q (q.get? i = some c) := by
  refine intern_ok hp ((Pool.checkReferences_eq_ok hc).mpr ?_) h
  intro reference hr
  rw [hrefs, List.mem_singleton] at hr
  rw [hr]
  exact hj

/-- A constant with two references. -/
theorem intern_two (hp : p.WellFormed) {c : Constant} {j k : UInt16} {kind kind' : ConstantKind}
    (hc : ∀ kind member, c ≠ .methodHandle kind member) (hrefs : c.references = [(j, kind), (k, kind')])
    (hj : ∃ d, p.get? j = some d ∧ kind.accepts d = true) (hk : ∃ d, p.get? k = some d ∧ kind'.accepts d = true)
    (h : intern c p = .ok i q) : Result p q (q.get? i = some c) := by
  refine intern_ok hp ((Pool.checkReferences_eq_ok hc).mpr ?_) h
  intro reference hr
  rw [hrefs, List.mem_cons, List.mem_singleton] at hr
  rcases hr with rfl | rfl
  · exact hj
  · exact hk

theorem classRef_ok (hp : p.WellFormed) {s : String} (h : classRef s p = .ok i q) :
    Result p q (q.classText i = .ok s) := by
  obtain ⟨name, p1, h1, h⟩ := Outcome.estate_bind.mp h
  have r1 := text_ok hp h1
  have r2 := intern_one r1.wellFormed (by intros; simp) rfl (accepts_of_text r1.post) h
  exact ⟨r2.wellFormed, r1.grows.trans r2.grows,
    Pool.classText_eq_ok.mpr ⟨name, r2.post, r2.grows.text r1.post⟩⟩

theorem nameAndType_ok (hp : p.WellFormed) {s t : String} (h : nameAndType s t p = .ok i q) :
    Result p q (q.nameAndTypeTexts i = .ok (s, t)) := by
  obtain ⟨name, p1, h1, h⟩ := Outcome.estate_bind.mp h
  obtain ⟨type, p2, h2, h⟩ := Outcome.estate_bind.mp h
  have r1 := text_ok hp h1
  have r2 := text_ok r1.wellFormed h2
  have hname := r2.grows.text r1.post
  have r3 := intern_two r2.wellFormed (by intros; simp) rfl (accepts_of_text hname) (accepts_of_text r2.post) h
  exact ⟨r3.wellFormed, (r1.grows.trans r2.grows).trans r3.grows,
    Pool.nameAndTypeTexts_eq_ok.mpr ⟨name, type, r3.post, r3.grows.text hname, r3.grows.text r2.post⟩⟩

theorem binaryName_ok (hp : p.WellFormed) {name : BinaryName} (h : classRef name.text p = .ok i q) :
    Result p q (q.binaryName i = .ok name) := by
  have r := classRef_ok hp h
  refine ⟨r.wellFormed, r.grows, Pool.binaryName_eq_ok.mpr ⟨_, r.post, ?_⟩⟩
  unfold asBinaryName
  rw [BinaryName.ofString_text]
  rfl

theorem refType_ok (hp : p.WellFormed) {type : RefType} (hw : type.IsWritable) (h : refType type p = .ok i q) :
    Result p q (q.refType i = .ok type) := by
  have r := classRef_ok hp h
  refine ⟨r.wellFormed, r.grows, Pool.refType_eq_ok.mpr ⟨_, r.post, ?_⟩⟩
  rw [RefType.ofClassName_className hw]
  rfl

theorem fieldRef_ok (hp : p.WellFormed) {ref : FieldRef} (hw : ref.IsWritable) (h : fieldRef ref p = .ok i q) :
    Result p q (q.fieldRef i = .ok ref) := by
  obtain ⟨owner, p1, h1, h⟩ := Outcome.estate_bind.mp h
  obtain ⟨member, p2, h2, h⟩ := Outcome.estate_bind.mp h
  have r1 := binaryName_ok hp h1
  have r2 := nameAndType_ok r1.wellFormed h2
  have howner := r2.grows.binaryName r1.post
  obtain ⟨s, hs, -⟩ := Pool.binaryName_eq_ok.mp howner
  have r3 := intern_two r2.wellFormed (by intros; simp) rfl (accepts_of_classText hs)
    (accepts_of_nameAndTypeTexts r2.post) h
  exact ⟨r3.wellFormed, (r1.grows.trans r2.grows).trans r3.grows,
    Pool.fieldRef_eq_ok.mpr ⟨owner, member, _, _, r3.post, r3.grows.binaryName howner,
      r3.grows.nameAndTypeTexts r2.post, asUnqualifiedName_text ref.name, asFieldType_render hw⟩⟩

theorem methodRef_ok (hp : p.WellFormed) {method : MethodRef} (hw : method.IsWritable)
    (h : methodRef method p = .ok i q) : Result p q (q.methodRef i = .ok method) := by
  obtain ⟨owner, p1, h1, h⟩ := Outcome.estate_bind.mp h
  obtain ⟨member, p2, h2, h⟩ := Outcome.estate_bind.mp h
  have r1 := refType_ok hp hw.owner h1
  have r2 := nameAndType_ok r1.wellFormed h2
  have howner := r2.grows.refType r1.post
  obtain ⟨s, hs, -⟩ := Pool.refType_eq_ok.mp howner
  have r3 := intern_two r2.wellFormed (by intros; simp) rfl (accepts_of_classText hs)
    (accepts_of_nameAndTypeTexts r2.post) h
  exact ⟨r3.wellFormed, (r1.grows.trans r2.grows).trans r3.grows,
    Pool.methodRef_eq_ok.mpr ⟨owner, member, _, _, r3.post, r3.grows.nameAndTypeTexts r2.post,
      r3.grows.refType howner, asUnqualifiedName_text method.name, asMethodDescriptor_render hw.descriptor⟩⟩

theorem callSite_ok (hp : p.WellFormed) {site : CallSite} (hw : site.descriptor.IsWritable)
    (h : callSite site p = .ok i q) : Result p q (q.callSite i = .ok site) := by
  obtain ⟨member, p1, h1, h⟩ := Outcome.estate_bind.mp h
  have r1 := nameAndType_ok hp h1
  have r2 := intern_one r1.wellFormed (by intros; simp) rfl (accepts_of_nameAndTypeTexts r1.post) h
  exact ⟨r2.wellFormed, r1.grows.trans r2.grows,
    Pool.callSite_eq_ok.mpr ⟨member, _, _, r2.post, r2.grows.nameAndTypeTexts r1.post,
      asUnqualifiedName_text site.name, asMethodDescriptor_render hw⟩⟩

/-- A constant without references. -/
theorem intern_zero (hp : p.WellFormed) {c : Constant} (hc : ∀ kind member, c ≠ .methodHandle kind member)
    (hrefs : c.references = []) (h : intern c p = .ok i q) : Result p q (q.get? i = some c) := by
  refine intern_ok hp ((Pool.checkReferences_eq_ok hc).mpr ?_) h
  intro reference hr
  rw [hrefs] at hr
  cases hr

/-- The entry of a handle's member is one that the handle accepts. -/
theorem accepts_of_methodRef {kind : HandleKind} {method : MethodRef} (hk : kind.Fits (.method method))
    (h : p.methodRef i = .ok method) : ∃ d, p.get? i = some d ∧ kind.accepts d = true := by
  obtain ⟨owner, member, s, t, hc, -⟩ := Pool.methodRef_eq_ok.mp h
  exact ⟨_, hc, hk⟩

theorem accepts_of_fieldRef {kind : HandleKind} {ref : FieldRef} (hk : kind.Fits (.field ref))
    (h : p.fieldRef i = .ok ref) : ∃ d, p.get? i = some d ∧ kind.accepts d = true := by
  obtain ⟨owner, member, s, t, hc, -⟩ := Pool.fieldRef_eq_ok.mp h
  exact ⟨_, hc, hk⟩

theorem loadable_ok (hp : p.WellFormed) {l : Loadable} (hw : l.IsWritable) (h : loadable l p = .ok i q) :
    Result p q (q.loadable i = .ok l) := by
  rw [Pool.loadable_eq_ok]
  cases l with
  | integer | float | long | double => exact intern_zero hp (by intros; simp) rfl h
  | string bytes =>
    obtain ⟨text, p1, h1, h⟩ := Outcome.estate_bind.mp h
    have r1 := utf8_ok hp h1
    have r2 := intern_one r1.wellFormed (by intros; simp) rfl ⟨_, r1.post, rfl⟩ h
    exact ⟨r2.wellFormed, r1.grows.trans r2.grows, text, r2.post, Pool.utf8_eq_ok.mpr (r2.grows.get? r1.post)⟩
  | classLiteral type => exact refType_ok hp hw h
  | methodType descriptor =>
    obtain ⟨text, p1, h1, h⟩ := Outcome.estate_bind.mp h
    have r1 := text_ok hp h1
    have r2 := intern_one r1.wellFormed (by intros; simp) rfl (accepts_of_text r1.post) h
    exact ⟨r2.wellFormed, r1.grows.trans r2.grows, text, _, r2.post, r2.grows.text r1.post,
      asMethodDescriptor_render hw⟩
  | methodHandle kind member =>
    obtain ⟨index, p1, h1, h2⟩ := Outcome.estate_bind.mp h
    cases member with
    -- a handle refers to a member of its kind, or it is not interned
    | field ref =>
      have r1 := fieldRef_ok hp hw.1 h1
      have r2 := intern_ok r1.wellFormed
        (Pool.checkReferences_methodHandle.mpr (accepts_of_fieldRef hw.2 r1.post)) h2
      exact ⟨r2.wellFormed, r1.grows.trans r2.grows, hw.2, index, r2.post, r2.grows.fieldRef r1.post⟩
    | method method =>
      have r1 := methodRef_ok hp hw.1 h1
      have r2 := intern_ok r1.wellFormed
        (Pool.checkReferences_methodHandle.mpr (accepts_of_methodRef hw.2 r1.post)) h2
      exact ⟨r2.wellFormed, r1.grows.trans r2.grows, HandleKind.not_isField_of_fits hw.2, index, r2.post,
        r2.grows.methodRef r1.post⟩
  | dynamic constant =>
    obtain ⟨member, p1, h1, h⟩ := Outcome.estate_bind.mp h
    have r1 := nameAndType_ok hp h1
    have r2 := intern_one r1.wellFormed (by intros; simp) rfl (accepts_of_nameAndTypeTexts r1.post) h
    exact ⟨r2.wellFormed, r1.grows.trans r2.grows, member, _, _, r2.post, r2.grows.nameAndTypeTexts r1.post,
      asUnqualifiedName_text constant.name, asFieldType_render hw⟩

end Interning

end ClassWeave
