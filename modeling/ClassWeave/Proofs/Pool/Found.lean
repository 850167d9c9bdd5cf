import ClassWeave.Proofs.Instruction.Plain
import ClassWeave.Proofs.Pool.Repeatable
import ClassWeave.Proofs.Pool.Requests

/-!
# Constants that are found

What was interned is found again in every later pool, so an index that an action gave can be looked at as one
that the later pool gives without adding anything. Nothing is asked of the other entries of that pool:
references that lead nowhere, or a handle of the wrong kind, may stand next to those that are looked up.
-/

namespace ClassWeave

/-- A sequence that was done is done again on the pool that it left, part by part. -/
theorem Repeatable.bind_again {ε α β : Type} {x : EStateM ε Pool α} {f : α → EStateM ε Pool β}
    (hx : Repeatable x) (hf : ∀ a, Repeatable (f a)) {p q : Pool} {b : β} (h : (x >>= f) p = .ok b q) :
    ∃ a, x q = .ok a q ∧ f a q = .ok b q := by
  obtain ⟨a, p1, ha, hb⟩ := Outcome.estate_bind.mp h
  obtain ⟨hgrows, hagain⟩ := hf a p1 q b hb
  exact ⟨a, (hx p p1 a ha).2 q hgrows, hagain q (.refl q)⟩

/-- The index of a constant that is there is one where it stands. -/
theorem Pool.Consistent.get_of_intern {p : Pool} (hp : p.Consistent) {c : Constant} {i : UInt16}
    (h : Interning.intern c p = .ok i p) : p.get? i = some c := by
  by_cases hmem : c ∈ p.entries.map Prod.snd
  · obtain ⟨j, hj, hentry, -⟩ := hp.found c hmem
    rw [h] at hj
    cases hj
    exact get_eq_ok.mp ((hp.get i c).mpr hentry)
  · by_cases hroom : p.nextIndex + c.width ≤ 65535
    · obtain ⟨j, q, hq, -, hentries⟩ := hp.appended c hmem hroom
      rw [h] at hq
      cases hq
      simp at hentries
    · have hfull := hp.full c hmem (by omega)
      rw [h] at hfull
      cases hfull

namespace Interning

variable {p : Pool} {i : UInt16}

theorem text_found (hp : p.Consistent) {s : String} (h : text s p = .ok i p) : p.text i = .ok s :=
  Pool.text_eq_ok.mpr ⟨_, hp.get_of_intern h, ModifiedUtf8.decode_encode s⟩

theorem classRef_found (hp : p.Consistent) {s : String} (h : classRef s p = .ok i p) :
    p.classText i = .ok s := by
  obtain ⟨name, hname, h⟩ := (Repeatable.text s).bind_again (fun _ => .intern _) h
  exact Pool.classText_eq_ok.mpr ⟨name, hp.get_of_intern h, text_found hp hname⟩

theorem nameAndType_found (hp : p.Consistent) {s t : String} (h : nameAndType s t p = .ok i p) :
    p.nameAndTypeTexts i = .ok (s, t) := by
  obtain ⟨name, hname, h⟩ := (Repeatable.text s).bind_again
    (fun _ => (Repeatable.text t).bind fun _ => .intern _) h
  obtain ⟨type, htype, h⟩ := (Repeatable.text t).bind_again (fun _ => .intern _) h
  exact Pool.nameAndTypeTexts_eq_ok.mpr ⟨name, type, hp.get_of_intern h, text_found hp hname,
    text_found hp htype⟩

theorem refType_found (hp : p.Consistent) {type : RefType} (hw : type.IsWritable)
    (h : refType type p = .ok i p) : p.refType i = .ok type := by
  refine Pool.refType_eq_ok.mpr ⟨_, classRef_found hp h, ?_⟩
  rw [RefType.ofClassName_className hw]
  rfl

theorem fieldRef_found (hp : p.Consistent) {ref : FieldRef} (hw : ref.IsWritable)
    (h : fieldRef ref p = .ok i p) : p.fieldRef i = .ok ref := by
  obtain ⟨owner, howner, h⟩ := (Repeatable.classRef _).bind_again
    (fun _ => (Repeatable.nameAndType _ _).bind fun _ => .intern _) h
  obtain ⟨member, hmember, h⟩ := (Repeatable.nameAndType _ _).bind_again (fun _ => .intern _) h
  have hbinary : p.binaryName owner = .ok ref.owner := by
    refine Pool.binaryName_eq_ok.mpr ⟨_, classRef_found hp howner, ?_⟩
    unfold asBinaryName
    rw [BinaryName.ofString_text]
    rfl
  exact Pool.fieldRef_eq_ok.mpr ⟨owner, member, _, _, hp.get_of_intern h, hbinary, nameAndType_found hp hmember,
    asUnqualifiedName_text ref.name, asFieldType_render hw⟩

theorem methodRef_found (hp : p.Consistent) {method : MethodRef} (hw : method.IsWritable)
    (h : methodRef method p = .ok i p) : p.methodRef i = .ok method := by
  obtain ⟨owner, howner, h⟩ := (Repeatable.refType _).bind_again
    (fun _ => (Repeatable.nameAndType _ _).bind fun _ => .intern _) h
  obtain ⟨member, hmember, h⟩ := (Repeatable.nameAndType _ _).bind_again (fun _ => .intern _) h
  exact Pool.methodRef_eq_ok.mpr ⟨owner, member, _, _, hp.get_of_intern h, nameAndType_found hp hmember,
    refType_found hp hw.owner howner, asUnqualifiedName_text method.name,
    asMethodDescriptor_render hw.descriptor⟩

theorem callSite_found (hp : p.Consistent) {site : CallSite} (hw : site.descriptor.IsWritable)
    (h : callSite site p = .ok i p) : p.callSite i = .ok site := by
  obtain ⟨member, hmember, h⟩ := (Repeatable.nameAndType _ _).bind_again (fun _ => .intern _) h
  exact Pool.callSite_eq_ok.mpr ⟨member, _, _, hp.get_of_intern h, nameAndType_found hp hmember,
    asUnqualifiedName_text site.name, asMethodDescriptor_render hw⟩

theorem loadable_found (hp : p.Consistent) {l : Loadable} (hw : l.IsReadable) (h : loadable l p = .ok i p) :
    p.loadable i = .ok l := by
  rw [Pool.loadable_eq_ok]
  cases l with
  | integer | float | long | double => exact hp.get_of_intern h
  | string bytes =>
    obtain ⟨text, htext, h⟩ := (Repeatable.utf8 bytes).bind_again (fun _ => .intern _) h
    exact ⟨text, hp.get_of_intern h, Pool.utf8_eq_ok.mpr (hp.get_of_intern htext)⟩
  | classLiteral type => exact refType_found hp hw h
  | methodType descriptor =>
    obtain ⟨text, htext, h⟩ := (Repeatable.text descriptor.render).bind_again (fun _ => .intern _) h
    exact ⟨text, _, hp.get_of_intern h, text_found hp htext, asMethodDescriptor_render hw⟩
  | methodHandle kind member =>
    obtain ⟨index, hindex, hhandle⟩ := (Repeatable.memberRef member).bind_again (fun _ => .intern _) h
    have hentry := hp.get_of_intern hhandle
    cases member with
    | field ref => exact ⟨hw.2, index, hentry, fieldRef_found hp hw.1 hindex⟩
    | method method => exact ⟨hw.2, index, hentry, methodRef_found hp hw.1 hindex⟩
  | dynamic constant =>
    obtain ⟨member, hmember, h⟩ := (Repeatable.nameAndType _ _).bind_again (fun _ => .intern _) h
    exact ⟨member, _, _, hp.get_of_intern h, nameAndType_found hp hmember, asUnqualifiedName_text constant.name,
      asFieldType_render hw⟩

end Interning

/-- Bytes that an instruction has without adding anything to the pool are read as the instruction. -/
theorem Instruction.readsAs_of_encode {instruction : Instruction} {p : Pool} {bytes : Bytes} (hp : p.Consistent)
    (hw : instruction.IsReadable) (h : instruction.encode p = .ok bytes p) :
    CodeOp.ReadsAs p bytes instruction := by
  refine readsAs_of_foundIn h ?_
  cases instruction with
  | loadConstant => exact fun _ => Interning.loadable_found hp hw
  | field => exact fun _ => Interning.fieldRef_found hp hw
  | invoke => exact fun _ => Interning.methodRef_found hp hw
  | invokeDynamic => exact fun _ => Interning.callSite_found hp hw
  | newObject | newRefArray | checkCast | instanceOf | newMultiArray =>
    exact fun _ => Interning.refType_found hp hw
  | _ => trivial

end ClassWeave
