import ClassWeave.Frame.Transfer
import ClassWeave.Proofs.Descriptor
import ClassWeave.Proofs.Frame.Order

/-!
# Effects respect relations of types

An instruction does the same to two frames whose types are related place by place: where it succeeds on one it
succeeds on the other, and the results are related again. `TransferRelation` lists what the relation has to
respect. Taken as an order it says that effects are monotone; taken as a property of single types, that the
property is an invariant.
-/

namespace ClassWeave

open ClassWeave.Frame (slotAt)

/-- The values that the parameters stand for take as many words as the parameters. -/
theorem MethodDescriptor.sum_width_parameters (descriptor : MethodDescriptor) :
    ((descriptor.parameters.map VerificationType.ofFieldType).map fun type : AnalysisType => type.width).sum =
      descriptor.parameterWords := by
  rw [parameterWords_eq_sum, List.map_map]
  exact congrArg List.sum (List.map_congr_left fun type _ => VerificationType.width_ofFieldType type)

/-! ## Slots after a store -/

namespace Frame

theorem slotAt_append (xs ys : List AnalysisType) (slot : Nat) :
    slotAt (xs ++ ys) slot = if slot < xs.length then slotAt xs slot else slotAt ys (slot - xs.length) := by
  unfold slotAt
  split_ifs with hlt
  · rw [List.getElem?_append_left hlt]
  · rw [List.getElem?_append_right (Nat.le_of_not_lt hlt)]

theorem slotAt_drop (xs : List AnalysisType) (count slot : Nat) : slotAt (xs.drop count) slot = slotAt xs
    (count + slot) := by
  unfold slotAt
  rw [List.getElem?_drop]

theorem slotAt_map {f : AnalysisType → AnalysisType} (hf : f .top = .top) (xs : List AnalysisType)
    (slot : Nat) : slotAt (xs.map f) slot = f (slotAt xs slot) := by
  unfold slotAt
  rw [List.getElem?_map]
  cases xs[slot]? with
  | none => exact hf.symm
  | some t => rfl

/-- A type that cannot be the first half of a value any more. -/
def cut (type : AnalysisType) : AnalysisType :=
  if type.isWide then .top else type

theorem length_cutLocals : ∀ (count : Nat) (locals : List AnalysisType), (cutLocals count locals).length = count
  | 0, _ => rfl
  | 1, [] => rfl
  | 1, _ :: _ => rfl
  | count + 2, [] => congrArg Nat.succ (length_cutLocals (count + 1) [])
  | count + 2, _ :: rest => congrArg Nat.succ (length_cutLocals (count + 1) rest)

theorem slotAt_cutLocals : ∀ {count : Nat} (locals : List AnalysisType) {slot : Nat}, slot < count →
    slotAt (cutLocals count locals) slot = if slot + 1 = count then cut
    (slotAt locals slot) else slotAt locals slot
  | 1, [], 0, _ => rfl
  | 1, _ :: _, 0, _ => rfl
  | count + 2, [], 0, _ => by rw [if_neg (by omega)]; rfl
  | count + 2, _ :: _, 0, _ => by rw [if_neg (by omega)]; rfl
  | count + 2, [], slot + 1, hlt => by
    have ih := @slotAt_cutLocals (count + 1) [] slot (by omega)
    change slotAt (cutLocals (count + 1) []) slot = _
    rw [ih]
    simp only [Nat.add_right_cancel_iff]
    rfl
  | count + 2, _ :: rest, slot + 1, hlt => by
    have ih := @slotAt_cutLocals (count + 1) rest slot (by omega)
    change slotAt (cutLocals (count + 1) rest) slot = _
    rw [ih]
    simp only [Nat.add_right_cancel_iff]
    rfl

theorem width_eq (type : AnalysisType) : type.width = if type.isWide then 2 else 1 := by
  cases type <;> rfl

/-- Every value on a stack takes a word at least. -/
theorem length_stack_le (frame : AnalysisFrame) : frame.stack.length ≤ frame.stackWidth := by
  have hfold : ∀ (types : List AnalysisType) (words : Nat),
      words + types.length ≤ types.foldl (fun words type => words + type.width) words := by
    intro types
    induction types with
    | nil => exact fun words => Nat.le_refl _
    | cons type types ih =>
      intro words
      have hpos : 1 ≤ type.width := by
        rw [width_eq]
        split_ifs <;> decide
      have hrest := ih (words + type.width)
      rw [List.length_cons, List.foldl_cons]
      omega
  have h := hfold frame.stack 0
  rwa [Nat.zero_add] at h

/-- A run of slots that are overwritten. -/
theorem slotAt_overwrite (count : Nat) (locals stored : List AnalysisType) (slot : Nat) :
    slotAt (cutLocals count locals ++ stored ++ locals.drop (count + stored.length)) slot =
      if slot < count then slotAt (cutLocals count locals) slot
      else if slot < count + stored.length then slotAt stored (slot - count)
      else slotAt locals slot := by
  rw [slotAt_append, slotAt_append, List.length_append, length_cutLocals, slotAt_drop]
  by_cases hlt : slot < count
  · rw [if_pos (by omega), if_pos hlt, if_pos hlt]
  · rw [if_neg hlt, if_neg hlt]
    by_cases hstored : slot < count + stored.length
    · rw [if_pos hstored, if_pos hstored]
    · rw [if_neg hstored, if_neg hstored]
      congr 1
      omega

/-- The locals after a store, slot by slot. -/
theorem slotAt_store (index : UInt16) (type : AnalysisType) (frame : AnalysisFrame) (slot : Nat) :
    slotAt (frame.store index type).locals slot =
      if slot < index.toNat then
        if slot + 1 = index.toNat then cut (slotAt frame.locals slot) else slotAt frame.locals slot
      else if slot = index.toNat then type
      else if slot = index.toNat + 1 ∧ type.isWide = true then .top
      else slotAt frame.locals slot := by
  have h := slotAt_overwrite index.toNat frame.locals (if type.isWide then [type, .top] else [type]) slot
  have hlen : (if type.isWide then [type, .top] else [type] : List AnalysisType).length = type.width := by
    rw [width_eq]
    split_ifs <;> rfl
  rw [hlen] at h
  refine h.trans ?_
  by_cases hlt : slot < index.toNat
  · rw [if_pos hlt, if_pos hlt, slotAt_cutLocals _ hlt]
  -- behind the slot, the width of the type says whether the next one is overwritten
  rw [if_neg hlt, if_neg hlt, width_eq]
  by_cases heq : slot = index.toNat
  · rw [if_pos heq, heq, Nat.sub_self]
    split_ifs <;> first | rfl | omega
  rw [if_neg heq]
  cases hwide : type.isWide with
  | true =>
    by_cases hsecond : slot = index.toNat + 1
    · simp only [hsecond, if_true, and_self, Nat.add_sub_cancel_left]
      rw [if_pos (by omega)]
      rfl
    · simp only [hsecond, if_true, false_and, if_false]
      rw [if_neg (by omega)]
  | false =>
    simp only [Bool.false_eq_true, and_false, if_false]
    rw [if_neg (by omega)]

end Frame

/-! ## Related frames -/

/-- The types of two frames are related: in each slot, and at each place of stacks of the same height. -/
structure Frame.Related (onLocals onStack : AnalysisType → AnalysisType → Prop) (f g : AnalysisFrame) :
    Prop where
  locals : ∀ slot, onLocals (slotAt f.locals slot) (slotAt g.locals slot)
  stack : List.Forall₂ onStack f.stack g.stack

/-- The types that are part of an instruction, or that it pushes whatever the frame. -/
def Instruction.introduced : Instruction → List AnalysisType
  | .simple op => op.pushes
  | .pushByte _ | .pushShort _ | .instanceOf _ => [.integer]
  | .loadConstant constant => [constant.type]
  | .load kind _ | .store kind _ => kind.type?.toList
  | .field _ ref => [.ofFieldType ref.type]
  | .invoke _ m => (m.descriptor.result.map .ofFieldType).toList
  | .invokeDynamic site => (site.descriptor.result.map .ofFieldType).toList
  | .newArray element => [.object (.arrayOf (.base element))]
  | .newRefArray element => [.object (.arrayOf (.ref element))]
  | .checkCast type | .newMultiArray type _ => [.object type]
  | _ => []

/-- A type after a constructor call that turned `site` into an object. -/
def constructedFrom (site : AnalysisType) (type : RefType) (t : AnalysisType) : AnalysisType :=
  if t = site then .object type else t

/-- What a relation of types has to respect so that an instruction respects it, standing at `index'` on the left
and at `index` on the right. -/
structure TransferRelation (owner : BinaryName) (strict : Bool) (index' index : Nat) (instruction : Instruction)
    (onLocals onStack : AnalysisType → AnalysisType → Prop) : Prop where
  toLocals : ∀ {s t}, onStack s t → onLocals s t
  wide : ∀ {s t}, onStack s t → s.isWide = t.isWide
  cut : ∀ {s t}, onLocals s t → onLocals (Frame.cut s) (Frame.cut t)
  top : onLocals .top .top
  load : ∀ {s t}, onLocals s t → (strict = true → t ≠ .top) → (strict = true → s ≠ .top) ∧ onStack s t
  element : ∀ {s t e}, onStack s t → elementType strict t = .ok e → ∃ d, elementType strict s = .ok d ∧
    onStack d e
  constructed : ∀ {mode method s t type}, instruction = .invoke mode method → onStack s t →
    constructedType owner method t = .ok type → constructedType owner method s = .ok type ∧
      (∀ {u v}, onStack u v → onStack (constructedFrom s type u) (constructedFrom t type v)) ∧
      (∀ {u v}, onLocals u v → onLocals (constructedFrom s type u) (constructedFrom t type v))
  introduced : ∀ t ∈ instruction.introduced, onStack t t
  created : ∀ {type}, instruction = .newObject type → onStack (.uninitialized index') (.uninitialized index)

namespace Frame

variable {onLocals onStack : AnalysisType → AnalysisType → Prop} {f g g' : AnalysisFrame}

/-- Frames are related slot by slot, and place by place on the stack, counted from the bottom. -/
theorem related_iff_places : f.Related onLocals onStack g ↔
    (∀ slot, onLocals (slotAt f.locals slot) (slotAt g.locals slot)) ∧ f.stack.length = g.stack.length ∧
    ∀ {place : Nat} {s t : AnalysisType}, f.stack.reverse[place]? = some s →
      g.stack.reverse[place]? = some t → onStack s t := by
  constructor
  · intro h
    refine ⟨h.locals, h.stack.length_eq, fun {place s t} hs ht => ?_⟩
    obtain ⟨hlt, rfl⟩ := List.getElem?_eq_some_iff.mp hs
    obtain ⟨hlt', rfl⟩ := List.getElem?_eq_some_iff.mp ht
    exact (List.rel_reverse h.stack).get hlt hlt'
  · rintro ⟨hlocals, hheight, hstack⟩
    refine ⟨hlocals, ?_⟩
    have hreverse : List.Forall₂ onStack f.stack.reverse g.stack.reverse :=
      List.forall₂_iff_get.mpr ⟨by rw [List.length_reverse, List.length_reverse, hheight], fun place hlt hlt' =>
        hstack (List.getElem?_eq_getElem hlt) (List.getElem?_eq_getElem hlt')⟩
    have hback := List.rel_reverse hreverse
    rwa [List.reverse_reverse, List.reverse_reverse] at hback

/-- Related stacks have as many words. -/
theorem Related.stackWidth (hwide : ∀ {s t}, onStack s t → s.isWide = t.isWide)
    (h : f.Related onLocals onStack g) : f.stackWidth = g.stackWidth := by
  have hfold : ∀ {xs ys : List AnalysisType}, List.Forall₂ onStack xs ys → ∀ words : Nat,
      xs.foldl (fun words type => words + type.width) words = ys.foldl (fun words type => words + type.width)
      words := by
    intro xs ys hxy
    induction hxy with
    | nil => exact fun _ => rfl
    | @cons s t _ _ hst _ ih =>
      intro words
      rw [List.foldl_cons, List.foldl_cons, width_eq s, width_eq t, hwide hst]
      exact ih _
  exact hfold h.stack 0

theorem Related.push (h : f.Related onLocals onStack g) {s t : AnalysisType} (hst : onStack s t) :
    (f.push s).Related onLocals onStack (g.push t) :=
  ⟨h.locals, .cons hst h.stack⟩

theorem Related.pushResult (h : f.Related onLocals onStack g) {result : Option FieldType}
    (hresult : ∀ t ∈ (result.map VerificationType.ofFieldType).toList, onStack t t) :
    (f.pushResult result).Related onLocals onStack (g.pushResult result) := by
  cases result with
  | none => exact h
  | some type => exact h.push (hresult _ (List.mem_singleton_self _))

theorem Related.pop (h : f.Related onLocals onStack g) {t : AnalysisType} (hg : g.pop = .ok (t, g')) :
    ∃ s f', f.pop = .ok (s, f') ∧ onStack s t ∧ f'.Related onLocals onStack g' := by
  obtain ⟨locals, stack⟩ := g
  obtain ⟨locals', stack'⟩ := f
  cases h.stack with
  | nil => cases hg
  | @cons s t' ss ts hst hss =>
    cases hg
    exact ⟨s, ⟨locals', ss⟩, rfl, hst, h.locals, hss⟩

end Frame

namespace OperandStack

variable {onStack : AnalysisType → AnalysisType → Prop} {xs ys ys' : OperandStack}

theorem popN_related : ∀ {count : Nat} {xs ys ys' : OperandStack}, List.Forall₂ onStack xs ys →
    popN count ys = .ok ys' → ∃ xs', popN count xs = .ok xs' ∧ List.Forall₂ onStack xs' ys'
  | 0, xs, _, _, h, hp => by
    cases hp
    exact ⟨xs, rfl, h⟩
  | count + 1, _, _, _, h, hp => by
    cases h with
    | nil => cases hp
    | @cons s t ss ts _ hss =>
      obtain ⟨xs', hxs, hrel⟩ := popN_related hss (show popN count ts = .ok _ from hp)
      exact ⟨xs', hxs, hrel⟩

theorem splitFrom_related (hwide : ∀ {s t}, onStack s t → s.isWide = t.isWide) {words : Nat} :
    ∀ {taken : Nat} {xs ys group rest : OperandStack}, List.Forall₂ onStack xs ys →
      splitFrom words taken ys = .ok (group, rest) →
        ∃ group' rest', splitFrom words taken xs = .ok (group', rest') ∧ List.Forall₂ onStack group' group ∧
          List.Forall₂ onStack rest' rest := by
  intro taken xs ys group rest h hp
  induction h generalizing taken group rest with
  | nil =>
    unfold splitFrom at hp ⊢
    split_ifs at hp ⊢ with hlt heq
    · cases hp
      exact ⟨[], [], rfl, .nil, .nil⟩
  | @cons s t xs ys hst h ih =>
    unfold splitFrom at hp ⊢
    split_ifs at hp ⊢ with hlt heq
    · -- related types are equally wide, so as much remains to be taken
      obtain ⟨⟨group1, rest1⟩, h1, hp⟩ := Outcome.except_bind.mp hp
      cases hp
      obtain ⟨group', rest', h2, hgroup, hrest⟩ := ih h1
      have hwidth : s.width = t.width := by rw [Frame.width_eq, Frame.width_eq, hwide hst]
      rw [← hwidth] at h2
      exact ⟨s :: group', rest', Outcome.except_bind.mpr ⟨_, h2, rfl⟩, .cons hst hgroup, hrest⟩
    · cases hp
      exact ⟨[], s :: xs, rfl, .nil, .cons hst h⟩

theorem copyBelow_related (hwide : ∀ {s t}, onStack s t → s.isWide = t.isWide) {words below : Nat}
    (h : List.Forall₂ onStack xs ys) (hp : copyBelow words below ys = .ok ys') :
    ∃ xs', copyBelow words below xs = .ok xs' ∧ List.Forall₂ onStack xs' ys' := by
  obtain ⟨⟨group, rest⟩, h1, hp⟩ := Outcome.except_bind.mp hp
  obtain ⟨⟨passed, rest2⟩, h2, hp⟩ := Outcome.except_bind.mp hp
  cases hp
  obtain ⟨group', rest', h1', hgroup, hrest⟩ := splitFrom_related hwide h h1
  obtain ⟨passed', rest2', h2', hpassed, hrest2⟩ := splitFrom_related hwide hrest h2
  refine ⟨group' ++ passed' ++ group' ++ rest2',
    Outcome.except_bind.mpr ⟨_, h1', Outcome.except_bind.mpr ⟨_, h2', rfl⟩⟩, ?_⟩
  exact List.rel_append (List.rel_append (List.rel_append hgroup hpassed) hgroup) hrest2

/-- Stack instructions look at the widths of types and at nothing else. -/
theorem shuffle_related (hwide : ∀ {s t}, onStack s t → s.isWide = t.isWide) {op : StackOp}
    (h : List.Forall₂ onStack xs ys) (hp : op.transfer ys = .ok ys') :
    ∃ xs', op.transfer xs = .ok xs' ∧ List.Forall₂ onStack xs' ys' := by
  have drop : ∀ {words : Nat}, (splitWords words ys >>= fun split => pure split.2) = .ok ys' →
      ∃ xs', (splitWords words xs >>= fun split => pure split.2) = .ok xs' ∧ List.Forall₂ onStack xs' ys' := by
    intro words hp
    obtain ⟨⟨group, rest⟩, h1, hp⟩ := Outcome.except_bind.mp hp
    cases hp
    obtain ⟨group', rest', h1', -, hrest⟩ := splitFrom_related hwide h h1
    exact ⟨rest', Outcome.except_bind.mpr ⟨_, h1', rfl⟩, hrest⟩
  cases op with
  | pop => exact drop hp
  | pop2 => exact drop hp
  | dup => exact copyBelow_related hwide h hp
  | dupX1 => exact copyBelow_related hwide h hp
  | dupX2 => exact copyBelow_related hwide h hp
  | dup2 => exact copyBelow_related hwide h hp
  | dup2X1 => exact copyBelow_related hwide h hp
  | dup2X2 => exact copyBelow_related hwide h hp
  -- two groups are split off, one after the other
  | swap =>
    obtain ⟨⟨first, rest⟩, h1, hp⟩ := Outcome.except_bind.mp hp
    obtain ⟨⟨second, rest2⟩, h2, hp⟩ := Outcome.except_bind.mp hp
    cases hp
    obtain ⟨first', rest', h1', hfirst, hrest⟩ := splitFrom_related hwide h h1
    obtain ⟨second', rest2', h2', hsecond, hrest2⟩ := splitFrom_related hwide hrest h2
    exact ⟨second' ++ first' ++ rest2', Outcome.except_bind.mpr ⟨_, h1', Outcome.except_bind.mpr ⟨_, h2', rfl⟩⟩,
      List.rel_append (List.rel_append hsecond hfirst) hrest2⟩

end OperandStack

/-! ## Instructions -/

namespace Frame

variable {onLocals onStack : AnalysisType → AnalysisType → Prop} {f g g' : AnalysisFrame} {owner : BinaryName}
  {strict : Bool} {index' index : Nat} {instruction : Instruction}

theorem Related.popN (h : f.Related onLocals onStack g) {count : Nat} (hg : g.popN count = .ok g') :
    ∃ f', f.popN count = .ok f' ∧ f'.Related onLocals onStack g' := by
  obtain ⟨ys, hys, hg⟩ := Outcome.except_bind.mp hg
  cases hg
  obtain ⟨xs, hxs, hrel⟩ := OperandStack.popN_related h.stack hys
  exact ⟨⟨f.locals, xs⟩, Outcome.except_bind.mpr ⟨xs, hxs, rfl⟩, h.locals, hrel⟩

/-- A store of related values. -/
theorem Related.store (hrel : TransferRelation owner strict index' index instruction onLocals onStack)
    (h : f.Related onLocals onStack g) {s t : AnalysisType} (hst : onStack s t) (slot : UInt16) :
    (f.store slot s).Related onLocals onStack (g.store slot t) := by
  refine ⟨fun place => ?_, h.stack⟩
  rw [slotAt_store, slotAt_store, hrel.wide hst]
  split_ifs
  · exact hrel.cut (h.locals place)
  · exact h.locals place
  · exact hrel.toLocals hst
  · exact hrel.top
  · exact h.locals place

/-- A load gives the type in the slot, which strict code cannot load if it is unusable. -/
theorem loadRef_eq_ok {k : AnalysisFrame} {slot : UInt16} {t : AnalysisType} :
    k.loadRef strict slot = .ok t ↔ t = slotAt k.locals slot.toNat ∧ (strict = true → t ≠ .top) := by
  unfold Frame.loadRef
  rw [show k.locals[slot.toNat]?.getD .top = slotAt k.locals slot.toNat from rfl]
  cases slotAt k.locals slot.toNat with
  | top =>
    cases strict with
    | true => exact ⟨fun h => (by cases h), fun h => absurd h.1 (h.2 rfl)⟩
    | false => exact ⟨fun h => (by cases h; exact ⟨rfl, fun hs => by cases hs⟩), fun h => by rw [h.1]; rfl⟩
  | _ => exact ⟨fun h => (by cases h; exact ⟨rfl, fun _ hne => by cases hne⟩), fun h => by rw [h.1]⟩

theorem Related.loadRef (hrel : TransferRelation owner strict index' index instruction onLocals onStack)
    (h : f.Related onLocals onStack g) {slot : UInt16} {t : AnalysisType} (hg : g.loadRef strict slot = .ok t) :
    ∃ s, f.loadRef strict slot = .ok s ∧ onStack s t := by
  obtain ⟨rfl, hne⟩ := loadRef_eq_ok.mp hg
  obtain ⟨hs, hst⟩ := hrel.load (h.locals slot.toNat) hne
  exact ⟨_, loadRef_eq_ok.mpr ⟨rfl, hs⟩, hst⟩

theorem constructed_eq (site : AnalysisType) (type : RefType) (k : AnalysisFrame) :
    k.constructed site type = ⟨k.locals.map (constructedFrom site type),
    k.stack.map (constructedFrom site type)⟩ := rfl

theorem constructedFrom_top {site : AnalysisType} {type owner' : RefType} {method : MethodRef}
    (h : constructedType owner method site = .ok type) : constructedFrom site owner' .top = .top := by
  unfold constructedFrom
  rw [if_neg]
  rintro rfl
  cases h

theorem isWide_of_constructedType {site : AnalysisType} {type : RefType} {method : MethodRef}
    (h : constructedType owner method site = .ok type) : site.isWide = false := by
  cases site with
  | uninitializedThis => rfl
  | uninitialized index => rfl
  | _ => cases h

theorem Related.receiver {mode : InvokeMode} {method : MethodRef}
    (hrel : TransferRelation owner strict index' index (.invoke mode method) onLocals onStack)
    (h : f.Related onLocals onStack g) (hg : method.transferReceiver owner g = .ok g') :
    ∃ f', method.transferReceiver owner f = .ok f' ∧ f'.Related onLocals onStack g' := by
  obtain ⟨⟨t, g1⟩, h1, hg⟩ := Outcome.except_bind.mp hg
  obtain ⟨s, f1, h1', hst, hfg⟩ := h.pop h1
  dsimp only at hg
  split_ifs at hg with hinit
  · -- a constructor: every copy of the object is initialized, in locals and on the stack
    obtain ⟨type, htype, hg⟩ := Outcome.except_bind.mp hg
    cases hg
    obtain ⟨htype', hstack, hlocals⟩ := hrel.constructed rfl hst htype
    refine ⟨f1.constructed s type, Outcome.except_bind.mpr ⟨_, h1', ?_⟩, ?_⟩
    · dsimp only
      rw [if_pos hinit]
      exact Outcome.except_bind.mpr ⟨type, htype', rfl⟩
    · refine ⟨fun slot => ?_, ?_⟩
      · rw [constructed_eq, constructed_eq, slotAt_map (constructedFrom_top htype'),
          slotAt_map (constructedFrom_top htype)]
        exact hlocals (hfg.locals slot)
      · rw [constructed_eq, constructed_eq]
        exact List.forall₂_map_left_iff.mpr
          (List.forall₂_map_right_iff.mpr (hfg.stack.imp fun _ _ huv => hstack huv))
  · cases hg
    refine ⟨f1, Outcome.except_bind.mpr ⟨_, h1', ?_⟩, hfg⟩
    dsimp only
    rw [if_neg hinit]
    rfl

/-- A call takes its arguments, then its receiver, and gives its result. -/
theorem transfer_invoke (owner : BinaryName) (strict : Bool) (index : Nat) (mode : InvokeMode)
    (method : MethodRef) (k : AnalysisFrame) : (Instruction.invoke mode method).transfer owner strict index k =
      (k.popN method.descriptor.parameters.length >>= fun k1 =>
        (if mode = .static then pure k1 else method.transferReceiver owner k1) >>= fun k2 =>
          pure (k2.pushResult method.descriptor.result)) := by
  unfold Instruction.transfer
  dsimp only
  congr 1
  funext k1
  split_ifs <;> rfl

/-- An instruction that succeeds on the right succeeds on the left, with related results. -/
theorem Related.transfer (hrel : TransferRelation owner strict index' index instruction onLocals onStack)
    (h : f.Related onLocals onStack g) (hg : instruction.transfer owner strict index g = .ok g') :
    ∃ f', instruction.transfer owner strict index' f = .ok f' ∧ f'.Related onLocals onStack g' := by
  -- most instructions pop some types and push one that they introduce
  have pushes : ∀ {count : Nat} {t : AnalysisType}, onStack t t →
      (g.popN count >>= fun k => pure (k.push t)) = .ok g' →
      ∃ f', (f.popN count >>= fun k => pure (k.push t)) = .ok f' ∧ f'.Related onLocals onStack g' := by
    intro count t ht hg
    obtain ⟨g1, h1, hg⟩ := Outcome.except_bind.mp hg
    cases hg
    obtain ⟨f1, h1', hfg⟩ := h.popN h1
    exact ⟨_, Outcome.except_bind.mpr ⟨f1, h1', rfl⟩, hfg.push ht⟩
  cases instruction with
  | simple op =>
    obtain ⟨g1, h1, hg⟩ := Outcome.except_bind.mp hg
    cases hg
    obtain ⟨f1, h1', hfg⟩ := h.popN h1
    refine ⟨_, Outcome.except_bind.mpr ⟨f1, h1', rfl⟩, hfg.locals, List.rel_append ?_ hfg.stack⟩
    exact List.forall₂_same.mpr hrel.introduced
  | shuffle op =>
    obtain ⟨ys, h1, hg⟩ := Outcome.except_bind.mp hg
    cases hg
    obtain ⟨xs, h1', hxy⟩ := OperandStack.shuffle_related hrel.wide h.stack h1
    exact ⟨_, Outcome.except_bind.mpr ⟨xs, h1', rfl⟩, h.locals, hxy⟩
  -- the element of an array: the only push that depends on what was popped
  | loadElement =>
    obtain ⟨⟨t1, g1⟩, h1, hg⟩ := Outcome.except_bind.mp hg
    obtain ⟨⟨t2, g2⟩, h2, hg⟩ := Outcome.except_bind.mp hg
    obtain ⟨e, he, hg⟩ := Outcome.except_bind.mp hg
    cases hg
    obtain ⟨s1, f1, h1', -, hfg1⟩ := h.pop h1
    obtain ⟨s2, f2, h2', hst2, hfg2⟩ := hfg1.pop h2
    obtain ⟨d, hd, hde⟩ := hrel.element hst2 he
    exact ⟨_, Outcome.except_bind.mpr ⟨_, h1', Outcome.except_bind.mpr ⟨_, h2',
      Outcome.except_bind.mpr ⟨d, hd, rfl⟩⟩⟩, hfg2.push hde⟩
  | pushByte value =>
    cases hg
    exact ⟨_, rfl, h.push (hrel.introduced _ (List.mem_singleton_self _))⟩
  | pushShort value =>
    cases hg
    exact ⟨_, rfl, h.push (hrel.introduced _ (List.mem_singleton_self _))⟩
  | loadConstant constant =>
    cases hg
    exact ⟨_, rfl, h.push (hrel.introduced _ (List.mem_singleton_self _))⟩
  | load kind slot =>
    have hintro := hrel.introduced
    cases kind with
    | ref =>
      obtain ⟨t, ht, hg⟩ := Outcome.except_bind.mp hg
      cases hg
      obtain ⟨s, hs, hst⟩ := h.loadRef hrel ht
      exact ⟨_, Outcome.except_bind.mpr ⟨s, hs, rfl⟩, h.push hst⟩
    | _ =>
      cases hg
      exact ⟨_, rfl, h.push (hintro _ (List.mem_singleton_self _))⟩
  -- only references are stored as they were; other kinds store the type of their kind
  | store kind slot =>
    obtain ⟨⟨t, g1⟩, h1, hg⟩ := Outcome.except_bind.mp hg
    cases hg
    obtain ⟨s, f1, h1', hst, hfg⟩ := h.pop h1
    refine ⟨_, Outcome.except_bind.mpr ⟨_, h1', rfl⟩, hfg.store hrel ?_ slot⟩
    have hintro := hrel.introduced
    cases kind with
    | ref => exact hst
    | _ => exact hintro _ (List.mem_singleton_self _)
  | increment slot amount =>
    cases hg
    exact ⟨f, rfl, h⟩
  | field access ref =>
    have hintro := hrel.introduced _ (List.mem_singleton_self _)
    cases access with
    | getStatic =>
      cases hg
      exact ⟨_, rfl, h.push hintro⟩
    | putStatic => exact h.popN hg
    | get => exact pushes hintro hg
    | put => exact h.popN hg
  | invoke mode method =>
    rw [transfer_invoke] at hg ⊢
    obtain ⟨g1, h1, hg⟩ := Outcome.except_bind.mp hg
    obtain ⟨g2, h2, hg⟩ := Outcome.except_bind.mp hg
    cases hg
    obtain ⟨f1, h1', hfg1⟩ := h.popN h1
    -- the receiver comes off below the arguments, and a constructor replaces it everywhere
    have hreceiver : ∃ f2, (if mode = .static then pure f1 else method.transferReceiver owner f1) = .ok f2 ∧
        f2.Related onLocals onStack g2 := by
      split_ifs at h2 ⊢ with hstatic
      · cases h2
        exact ⟨f1, rfl, hfg1⟩
      · exact hfg1.receiver hrel h2
    obtain ⟨f2, h2', hfg2⟩ := hreceiver
    exact ⟨_, Outcome.except_bind.mpr ⟨f1, h1', Outcome.except_bind.mpr ⟨f2, h2', rfl⟩⟩,
      hfg2.pushResult hrel.introduced⟩
  | invokeDynamic site =>
    obtain ⟨g1, h1, hg⟩ := Outcome.except_bind.mp hg
    cases hg
    obtain ⟨f1, h1', hfg⟩ := h.popN h1
    exact ⟨_, Outcome.except_bind.mpr ⟨f1, h1', rfl⟩, hfg.pushResult hrel.introduced⟩
  | newObject type =>
    cases hg
    exact ⟨_, rfl, h.push (hrel.created rfl)⟩
  | newArray element => exact pushes (hrel.introduced _ (List.mem_singleton_self _)) hg
  | newRefArray element => exact pushes (hrel.introduced _ (List.mem_singleton_self _)) hg
  | checkCast type => exact pushes (hrel.introduced _ (List.mem_singleton_self _)) hg
  | instanceOf type => exact pushes (hrel.introduced _ (List.mem_singleton_self _)) hg
  | newMultiArray type dimensions => exact pushes (hrel.introduced _ (List.mem_singleton_self _)) hg

/-- The same of branches, whatever their targets. -/
theorem Related.branch {τ τ' : Type} (h : f.Related onLocals onStack g) {b : Branch τ} {b' : Branch τ'}
    (hpops : b'.pops = b.pops) (hsub : b'.isSubroutine = b.isSubroutine) (hg : b.transfer strict g = .ok g') :
    ∃ f', b'.transfer strict f = .ok f' ∧ f'.Related onLocals onStack g' := by
  unfold Branch.transfer at hg ⊢
  rw [hsub, hpops]
  split_ifs at hg ⊢
  · exact h.popN hg

end Frame

/-! ## Invariants of types -/

/-- What makes a property of types an invariant of an instruction at `index`. -/
structure TypeInvariant (owner : BinaryName) (strict : Bool) (index : Nat) (instruction : Instruction)
    (Q : AnalysisType → Prop) : Prop where
  top : Q .top
  element : ∀ {t e}, Q t → elementType strict t = .ok e → Q e
  constructed : ∀ {mode method t type}, instruction = .invoke mode method →
    constructedType owner method t = .ok type → Q (.object type)
  introduced : ∀ t ∈ instruction.introduced, Q t
  created : ∀ {type}, instruction = .newObject type → Q (.uninitialized index)

variable {Q : AnalysisType → Prop} {owner : BinaryName} {strict : Bool} {index : Nat}
  {instruction : Instruction}

/-- A property of types as a relation: the same type on both sides, and it has the property. -/
theorem TypeInvariant.relation (hQ : TypeInvariant owner strict index instruction Q) :
    TransferRelation owner strict index index instruction (fun s t => s = t ∧ Q t)
    (fun s t => s = t ∧ Q t) where
  toLocals := id
  wide := fun hst => by rw [hst.1]
  cut := fun hst => by
    obtain ⟨rfl, hs⟩ := hst
    refine ⟨rfl, ?_⟩
    unfold Frame.cut
    split_ifs
    · exact hQ.top
    · exact hs
  top := ⟨rfl, hQ.top⟩
  load := fun hst hne => ⟨fun hstrict => hst.1 ▸ hne hstrict, hst⟩
  element := fun hst he => by
    obtain ⟨rfl, hs⟩ := hst
    exact ⟨_, he, rfl, hQ.element hs he⟩
  constructed := fun {mode method s t type} hinstr hst htype => by
    obtain ⟨rfl, -⟩ := hst
    have hobject := hQ.constructed hinstr htype
    have hreplace : ∀ {u v}, u = v ∧ Q v →
        constructedFrom s type u = constructedFrom s type v ∧ Q (constructedFrom s type v) := by
      rintro u v ⟨rfl, hu⟩
      refine ⟨rfl, ?_⟩
      unfold constructedFrom
      split_ifs
      · exact hobject
      · exact hu
    exact ⟨htype, hreplace, hreplace⟩
  introduced := fun t ht => ⟨rfl, hQ.introduced t ht⟩
  created := fun hinstr => ⟨rfl, hQ.created hinstr⟩

namespace Frame

theorem Holds.related {f : AnalysisFrame} (hf : f.Holds Q) :
    f.Related (fun s t => s = t ∧ Q t) (fun s t => s = t ∧ Q t) f :=
  ⟨fun slot => ⟨rfl, hf.locals slot⟩, List.forall₂_same.mpr fun t ht => ⟨rfl, hf.stack t ht⟩⟩

theorem Related.holds {f g : AnalysisFrame}
    (h : f.Related (fun s t => s = t ∧ Q t) (fun s t => s = t ∧ Q t) g) :
    g.Holds Q := by
  refine ⟨fun slot => (h.locals slot).2, fun t ht => ?_⟩
  obtain ⟨i, hi⟩ := List.mem_iff_getElem?.mp ht
  obtain ⟨hlt, rfl⟩ := List.getElem?_eq_some_iff.mp hi
  exact ((List.forall₂_iff_get.mp h.stack).2 i (h.stack.length_eq ▸ hlt) hlt).2

/-- An instruction keeps an invariant of types. -/
theorem Holds.transfer (hQ : TypeInvariant owner strict index instruction Q) {f g : AnalysisFrame}
    (hf : f.Holds Q) (hg : instruction.transfer owner strict index f = .ok g) : g.Holds Q := by
  obtain ⟨g', -, hrel⟩ := Related.transfer hQ.relation hf.related hg
  exact hrel.holds

theorem Holds.branch {τ : Type} {b : Branch τ} {f g : AnalysisFrame} (hf : f.Holds Q)
    (hg : b.transfer strict f = .ok g) : g.Holds Q := by
  obtain ⟨g', -, hrel⟩ := Related.branch hf.related rfl rfl hg
  exact hrel.holds

theorem Holds.push {f : AnalysisFrame} (hf : f.Holds Q) {t : AnalysisType} (ht : Q t) : (f.push t).Holds Q :=
  ⟨hf.locals, fun u hu => by
    rcases List.mem_cons.mp hu with rfl | hu
    · exact ht
    · exact hf.stack u hu⟩

/-! ## What happens to the locals and to the height of the stack -/

/-- The locals after an instruction: those before, with a value stored, or with a constructor called on some. -/
inductive LocalsStep (owner : BinaryName) (instruction : Instruction) (f g : AnalysisFrame) : Prop where
  | same : g.locals = f.locals → LocalsStep owner instruction f g
  | stored (kind : SlotKind) (slot : UInt16) (type : AnalysisType) : instruction = .store kind slot →
    (kind ≠ .ref → type.width = kind.width) → (kind = .ref → ∃ rest, f.stack = type :: rest) →
      g.locals = (f.store slot type).locals → LocalsStep owner instruction f g
  | constructed (site : AnalysisType) (type : RefType) : constructedFrom site type .top = .top →
    site.isWide = false → g.locals = f.locals.map (constructedFrom site type) → LocalsStep owner instruction f g

theorem popN_locals {count : Nat} {f g : AnalysisFrame} (h : f.popN count = .ok g) : g.locals = f.locals := by
  obtain ⟨stack, -, h⟩ := Outcome.except_bind.mp h
  cases h
  rfl

theorem pop_locals {t : AnalysisType} {f g : AnalysisFrame} (h : f.pop = .ok (t, g)) :
    g.locals = f.locals ∧ f.stack = t :: g.stack := by
  obtain ⟨locals, stack⟩ := f
  cases stack with
  | nil => cases h
  | cons u rest =>
    cases h
    exact ⟨rfl, rfl⟩

theorem branch_locals {τ : Type} {b : Branch τ} {f g : AnalysisFrame} (h : b.transfer strict f = .ok g) :
    g.locals = f.locals := by
  unfold Branch.transfer at h
  split_ifs at h
  exact popN_locals h

theorem pushResult_locals (result : Option FieldType) (f : AnalysisFrame) :
    (f.pushResult result).locals = f.locals := by
  cases result <;> rfl

theorem store_locals {slot : UInt16} {type : AnalysisType} {f g : AnalysisFrame} (h : g.locals = f.locals) :
    (g.store slot type).locals = (f.store slot type).locals := by
  unfold store
  rw [h]

theorem length_store (slot : UInt16) (type : AnalysisType) (f : AnalysisFrame) :
    (f.store slot type).locals.length = max f.locals.length (slot.toNat + type.width) := by
  have hstored : (if type.isWide then [type, .top] else [type] : List AnalysisType).length = type.width := by
    rw [width_eq]
    split_ifs <;> rfl
  unfold store
  dsimp only
  rw [List.length_append, List.length_append, length_cutLocals, hstored, List.length_drop]
  omega

theorem transfer_locals {f g : AnalysisFrame} (h : instruction.transfer owner strict index f = .ok g) :
    LocalsStep owner instruction f g := by
  -- popping and pushing leave the local variables alone
  have pushes : ∀ {count : Nat} {t : AnalysisType}, (f.popN count >>= fun k => pure (k.push t)) = .ok g →
      g.locals = f.locals := by
    intro count t h
    obtain ⟨k, hk, h⟩ := Outcome.except_bind.mp h
    cases h
    change k.locals = f.locals
    exact popN_locals hk
  cases instruction with
  | simple op =>
    obtain ⟨k, hk, h⟩ := Outcome.except_bind.mp h
    cases h
    exact .same (show k.locals = f.locals from popN_locals hk)
  | shuffle op =>
    obtain ⟨stack, -, h⟩ := Outcome.except_bind.mp h
    cases h
    exact .same rfl
  | loadElement =>
    obtain ⟨⟨t1, f1⟩, h1, h⟩ := Outcome.except_bind.mp h
    obtain ⟨⟨t2, f2⟩, h2, h⟩ := Outcome.except_bind.mp h
    obtain ⟨e, -, h⟩ := Outcome.except_bind.mp h
    cases h
    exact .same ((pop_locals h2).1.trans (pop_locals h1).1)
  | load kind slot =>
    cases kind with
    | ref =>
      obtain ⟨t, -, h⟩ := Outcome.except_bind.mp h
      cases h
      exact .same rfl
    | _ =>
      cases h
      exact .same rfl
  | store kind slot =>
    obtain ⟨⟨t, f1⟩, h1, h⟩ := Outcome.except_bind.mp h
    cases h
    refine .stored kind slot (kind.type?.getD t) rfl (fun hkind => ?_) (fun hkind => ?_)
      (store_locals (pop_locals h1).1)
    · cases kind with
      | ref => exact absurd rfl hkind
      | _ => rfl
    · subst hkind
      exact ⟨f1.stack, (pop_locals h1).2⟩
  | field access ref =>
    cases access with
    | getStatic =>
      cases h
      exact .same rfl
    | putStatic => exact .same (popN_locals h)
    | get => exact .same (pushes h)
    | put => exact .same (popN_locals h)
  | invoke mode method =>
    rw [transfer_invoke] at h
    obtain ⟨f1, h1, h⟩ := Outcome.except_bind.mp h
    obtain ⟨f2, h2, h⟩ := Outcome.except_bind.mp h
    cases h
    have hargs := popN_locals h1
    split_ifs at h2 with hstatic
    · cases h2
      exact .same ((pushResult_locals _ _).trans hargs)
    · obtain ⟨⟨t, f3⟩, h3, h2⟩ := Outcome.except_bind.mp h2
      have hreceiver := (pop_locals h3).1.trans hargs
      dsimp only at h2
      split_ifs at h2 with hinit
      · obtain ⟨type, htype, h2⟩ := Outcome.except_bind.mp h2
        cases h2
        -- only a constructor changes more than one local variable: all copies of its receiver
        refine .constructed t type (constructedFrom_top htype) (isWide_of_constructedType htype)
          ((pushResult_locals _ _).trans ?_)
        rw [constructed_eq, hreceiver]
      · cases h2
        exact .same ((pushResult_locals _ _).trans hreceiver)
  | invokeDynamic site =>
    obtain ⟨f1, h1, h⟩ := Outcome.except_bind.mp h
    cases h
    exact .same ((pushResult_locals _ _).trans (popN_locals h1))
  | newArray element => exact .same (pushes h)
  | newRefArray element => exact .same (pushes h)
  | checkCast type => exact .same (pushes h)
  | instanceOf type => exact .same (pushes h)
  | newMultiArray type dimensions => exact .same (pushes h)
  | _ =>
    cases h
    exact .same rfl

theorem popN_height {count : Nat} : ∀ {xs ys : OperandStack}, OperandStack.popN count xs = .ok ys →
    ys.length ≤ xs.length := by
  induction count with
  | zero =>
    intro xs ys h
    cases h
    exact Nat.le_refl _
  | succ count ih =>
    intro xs ys h
    cases xs with
    | nil => cases h
    | cons x xs => exact Nat.le_succ_of_le (ih h)

/-- The words split off are no fewer than the values, and nothing gets lost. -/
theorem splitFrom_height {words : Nat} {taken : Nat} {xs group rest : OperandStack}
    (h : OperandStack.splitFrom words taken xs = .ok (group, rest)) :
    xs = group ++ rest ∧ taken + group.length ≤ words := by
  induction xs generalizing taken group rest with
  | nil =>
    unfold OperandStack.splitFrom at h
    split_ifs at h with hlt heq
    · cases h
      exact ⟨rfl, Nat.le_of_eq heq⟩
  | cons t xs ih =>
    unfold OperandStack.splitFrom at h
    split_ifs at h with hlt heq
    · obtain ⟨⟨group1, rest1⟩, h1, h⟩ := Outcome.except_bind.mp h
      cases h
      obtain ⟨rfl, hle⟩ := ih h1
      refine ⟨rfl, ?_⟩
      rw [width_eq] at hle
      rw [List.length_cons]
      split_ifs at hle <;> omega
    · cases h
      exact ⟨rfl, Nat.le_of_eq heq⟩

theorem copyBelow_height {words below : Nat} {xs ys : OperandStack}
    (h : OperandStack.copyBelow words below xs = .ok ys) : ys.length ≤ xs.length + words := by
  obtain ⟨⟨group, rest⟩, h1, h⟩ := Outcome.except_bind.mp h
  obtain ⟨⟨passed, rest2⟩, h2, h⟩ := Outcome.except_bind.mp h
  cases h
  obtain ⟨rfl, hle1⟩ := splitFrom_height h1
  obtain ⟨hrest, hle2⟩ := splitFrom_height h2
  subst hrest
  simp only [List.length_append]
  omega

theorem shuffle_height {op : StackOp} {xs ys : OperandStack} (h : op.transfer xs = .ok ys) :
    ys.length ≤ xs.length + 2 := by
  have drop : ∀ {words : Nat}, (OperandStack.splitWords words xs >>= fun split => pure split.2) = .ok ys →
      ys.length ≤ xs.length + 2 := by
    intro words h
    obtain ⟨⟨group, rest⟩, h1, h⟩ := Outcome.except_bind.mp h
    cases h
    obtain ⟨rfl, -⟩ := splitFrom_height h1
    change rest.length ≤ _
    rw [List.length_append]
    omega
  -- copies are of two words at most
  have copy : ∀ {words below : Nat}, words ≤ 2 → OperandStack.copyBelow words below xs = .ok ys →
      ys.length ≤ xs.length + 2 := by
    intro words below hle h
    have := copyBelow_height h
    omega
  cases op with
  | pop => exact drop h
  | pop2 => exact drop h
  | dup => exact copy (by omega) h
  | dupX1 => exact copy (by omega) h
  | dupX2 => exact copy (by omega) h
  | dup2 => exact copy (by omega) h
  | dup2X1 => exact copy (by omega) h
  | dup2X2 => exact copy (by omega) h
  | swap =>
    obtain ⟨⟨first, rest⟩, h1, h⟩ := Outcome.except_bind.mp h
    obtain ⟨⟨second, rest2⟩, h2, h⟩ := Outcome.except_bind.mp h
    cases h
    obtain ⟨rfl, -⟩ := splitFrom_height h1
    obtain ⟨hrest, -⟩ := splitFrom_height h2
    subst hrest
    simp only [List.length_append]
    omega

theorem popN_stack {count : Nat} {f g : AnalysisFrame} (h : f.popN count = .ok g) :
    g.stack.length ≤ f.stack.length := by
  obtain ⟨stack, hs, h⟩ := Outcome.except_bind.mp h
  cases h
  exact popN_height hs

theorem pushResult_stack (result : Option FieldType) (f : AnalysisFrame) :
    (f.pushResult result).stack.length ≤ f.stack.length + 1 := by
  cases result with
  | none => exact Nat.le_succ _
  | some type => exact Nat.le_refl _

/-- No instruction leaves more than two further values on the stack. -/
theorem transfer_height {f g : AnalysisFrame} (h : instruction.transfer owner strict index f = .ok g) :
    g.stack.length ≤ f.stack.length + 2 := by
  -- one that pops and pushes once adds no more than one entry
  have pushes : ∀ {count : Nat} {t : AnalysisType}, (f.popN count >>= fun k => pure (k.push t)) = .ok g →
      g.stack.length ≤ f.stack.length + 2 := by
    intro count t h
    obtain ⟨k, hk, h⟩ := Outcome.except_bind.mp h
    cases h
    have := popN_stack hk
    change k.stack.length + 1 ≤ _
    omega
  cases instruction with
  | simple op =>
    obtain ⟨k, hk, h⟩ := Outcome.except_bind.mp h
    cases h
    have h1 := popN_stack hk
    have h2 : (op.pushes : List AnalysisType).length ≤ 1 := by cases op <;> decide
    dsimp only
    rw [List.length_append]
    omega
  | shuffle op =>
    obtain ⟨stack, hs, h⟩ := Outcome.except_bind.mp h
    cases h
    exact shuffle_height hs
  | loadElement =>
    obtain ⟨⟨t1, f1⟩, h1, h⟩ := Outcome.except_bind.mp h
    obtain ⟨⟨t2, f2⟩, h2, h⟩ := Outcome.except_bind.mp h
    obtain ⟨e, -, h⟩ := Outcome.except_bind.mp h
    cases h
    rw [(pop_locals h1).2, (pop_locals h2).2]
    change f2.stack.length + 1 ≤ f2.stack.length + 1 + 1 + 2
    omega
  | load kind slot =>
    cases kind with
    | ref =>
      obtain ⟨t, -, h⟩ := Outcome.except_bind.mp h
      cases h
      exact Nat.le_succ _
    | _ =>
      cases h
      exact Nat.le_succ _
  | store kind slot =>
    obtain ⟨⟨t, f1⟩, h1, h⟩ := Outcome.except_bind.mp h
    cases h
    rw [(pop_locals h1).2]
    change f1.stack.length ≤ f1.stack.length + 1 + 2
    omega
  | increment slot amount =>
    cases h
    omega
  | field access ref =>
    cases access with
    | getStatic =>
      cases h
      exact Nat.le_succ _
    | putStatic => exact Nat.le_trans (popN_stack h) (Nat.le_add_right _ _)
    | get => exact pushes h
    | put => exact Nat.le_trans (popN_stack h) (Nat.le_add_right _ _)
  | invoke mode method =>
    rw [transfer_invoke] at h
    obtain ⟨f1, h1, h⟩ := Outcome.except_bind.mp h
    obtain ⟨f2, h2, h⟩ := Outcome.except_bind.mp h
    cases h
    have hargs := popN_stack h1
    have hresult := pushResult_stack method.descriptor.result f2
    -- what comes off for the receiver makes up for the result
    have hreceiver : f2.stack.length ≤ f1.stack.length := by
      split_ifs at h2 with hstatic
      · cases h2
        exact Nat.le_refl _
      · obtain ⟨⟨t, f3⟩, h3, h2⟩ := Outcome.except_bind.mp h2
        rw [(pop_locals h3).2]
        dsimp only at h2
        split_ifs at h2 with hinit
        · obtain ⟨type, -, h2⟩ := Outcome.except_bind.mp h2
          cases h2
          rw [constructed_eq, List.length_map]
          exact Nat.le_succ _
        · cases h2
          exact Nat.le_succ _
    omega
  | invokeDynamic site =>
    obtain ⟨f1, h1, h⟩ := Outcome.except_bind.mp h
    cases h
    have hargs := popN_stack h1
    have hresult := pushResult_stack site.descriptor.result f1
    omega
  | newArray element => exact pushes h
  | newRefArray element => exact pushes h
  | checkCast type => exact pushes h
  | instanceOf type => exact pushes h
  | newMultiArray type dimensions => exact pushes h
  | _ =>
    cases h
    exact Nat.le_succ _

end Frame

end ClassWeave
