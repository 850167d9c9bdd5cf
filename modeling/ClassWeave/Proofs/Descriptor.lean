import ClassWeave.Descriptor.Parser
import ClassWeave.Proofs.Outcome
import Mathlib.Tactic.Common

/-!
# Descriptors determine types

A type that can be written, one whose arrays have at most 255 dimensions, is the type that its descriptor stands
for, and the type that its class name stands for. Each reader takes the descriptor off the front of a text and
leaves the rest, so the readers of parameter lists and methods follow from those of single types. The other way
round, whatever a reader gives can be written, and what is written for it stands at the front of the text.
-/

namespace ClassWeave

/-! ## Names -/

/-- A character of a text is a slash or lies in one of its segments. -/
theorem mem_slashSegments : ∀ {cs : List Char} {c : Char}, c ∈ cs → c = '/' ∨ ∃ segment ∈ slashSegments cs,
    c ∈ segment
  | d :: cs, c, h => by
    unfold slashSegments
    by_cases hd : d = '/'
    · rw [if_pos hd]
      rcases List.mem_cons.mp h with rfl | h
      · exact .inl hd
      · rcases mem_slashSegments h with h | ⟨segment, hs, hc⟩
        · exact .inl h
        · exact .inr ⟨segment, List.mem_cons_of_mem _ hs, hc⟩
    · -- the character stays in the first segment
      rw [if_neg hd]
      cases hsegs : slashSegments cs with
      | nil =>
        rcases List.mem_cons.mp h with rfl | h
        · exact .inr ⟨[c], List.mem_cons_self, List.mem_cons_self⟩
        · rcases mem_slashSegments h with h | ⟨segment, hs, hc⟩
          · exact .inl h
          · rw [hsegs] at hs; cases hs
      | cons first segments =>
        rcases List.mem_cons.mp h with rfl | h
        · exact .inr ⟨c :: first, List.mem_cons_self, List.mem_cons_self⟩
        · rcases mem_slashSegments h with h | ⟨segment, hs, hc⟩
          · exact .inl h
          · rw [hsegs] at hs
            rcases List.mem_cons.mp hs with rfl | hs
            · exact .inr ⟨d :: segment, List.mem_cons_self, List.mem_cons_of_mem _ hc⟩
            · exact .inr ⟨segment, List.mem_cons_of_mem _ hs, hc⟩

namespace BinaryName

/-- A class name has no separator but the slash. -/
theorem not_separator (name : BinaryName) {c : Char} (h : c ∈ name.text.toList) :
    c = '/' ∨ isNameSeparator c = false := by
  rcases mem_slashSegments h with h | ⟨segment, hs, hc⟩
  · exact .inl h
  · have hv := name.valid
    unfold isBinaryName at hv
    have hseg := List.all_eq_true.mp hv segment hs
    unfold isNameSegment at hseg
    rw [Bool.and_eq_true] at hseg
    have hchar := List.all_eq_true.mp hseg.2 c hc
    exact .inr (by simpa using hchar)

theorem ne_semicolon (name : BinaryName) {c : Char} (h : c ∈ name.text.toList) : c ≠ ';' := by
  rintro rfl
  rcases name.not_separator h with h | h
  · exact absurd h (by decide)
  · exact absurd h (by decide)

theorem ne_bracket (name : BinaryName) {c : Char} (h : c ∈ name.text.toList) : c ≠ '[' := by
  rintro rfl
  rcases name.not_separator h with h | h
  · exact absurd h (by decide)
  · exact absurd h (by decide)

@[simp] theorem ofString_text (name : BinaryName) : ofString name.text = .ok name := by
  unfold ofString
  rw [dif_pos name.valid]

/-- A class name between `L` and `;` is read. -/
theorem parse_render (name : BinaryName) (rest : List Char) :
    parse ('L' :: name.text.toList ++ ';' :: rest) = .ok (name, rest) := by
  have hall : ∀ c ∈ name.text.toList, (c != ';') = true := fun c hc => by
    simpa using name.ne_semicolon hc
  have htake : (name.text.toList ++ ';' :: rest).takeWhile (· != ';') = name.text.toList := by
    rw [List.takeWhile_append_of_pos hall]
    simp
  have hdrop : (name.text.toList ++ ';' :: rest).dropWhile (· != ';') = ';' :: rest := by
    rw [List.dropWhile_append_of_pos hall]
    simp
  rw [List.cons_append, parse]
  simp only [htake, hdrop, String.ofList_toList, ofString_text]

end BinaryName

namespace UnqualifiedName

@[simp] theorem ofString_text (name : UnqualifiedName) : ofString name.text = .ok name := by
  unfold ofString
  rw [dif_pos name.valid]

end UnqualifiedName

/-! ## Words of the parameters -/

theorem MethodDescriptor.parameterWords_eq_sum (descriptor : MethodDescriptor) :
    descriptor.parameterWords = (descriptor.parameters.map FieldType.width).sum := by
  unfold parameterWords
  rw [List.sum_eq_foldr, List.foldr_map]

/-! ## Types that can be written -/

/-- Class files have no arrays of more than 255 dimensions. -/
def RefType.IsWritable : RefType → Prop
  | .object _ => True
  | .array inner _ => inner + 1 ≤ maxDimensions

/-- The same of field types. -/
def FieldType.IsWritable : FieldType → Prop
  | .base _ => True
  | .ref type => type.IsWritable

/-- The same of the types in a method type. -/
structure MethodDescriptor.IsWritable (descriptor : MethodDescriptor) : Prop where
  parameters : ∀ type ∈ descriptor.parameters, type.IsWritable
  result : ∀ type ∈ descriptor.result, type.IsWritable

/-! ## Readers of a part -/

namespace BaseType

theorem letter_ne (type : BaseType) : type.letter ≠ 'L' ∧ type.letter ≠ '[' ∧ type.letter ≠ ')' ∧
    type.letter ≠ 'V' := by
  cases type <;> decide

end BaseType

namespace ArrayLeaf

theorem parse_render (leaf : ArrayLeaf) (rest : List Char) : parse (leaf.render ++ rest) = .ok
    (leaf, rest) := by
  cases leaf with
  | base type =>
    cases type <;> rfl
  | object name =>
    have h := name.parse_render rest
    change parse (('L' :: name.text.toList ++ [';']) ++ rest) = _
    rw [List.append_assoc, List.singleton_append]
    change (BinaryName.parse ('L' :: name.text.toList ++ ';' :: rest) >>= fun p => pure (object p.1, p.2)) = _
    rw [h]
    rfl

/-- No leaf starts with a bracket. -/
theorem render_head (leaf : ArrayLeaf) : ∃ c cs, leaf.render = c :: cs ∧ c ≠ '[' := by
  cases leaf with
  | base type => exact ⟨type.letter, [], rfl, type.letter_ne.2.1⟩
  | object name => exact ⟨'L', _, rfl, by decide⟩

end ArrayLeaf

namespace RefType

theorem parse_renderChars {type : RefType} (h : type.IsWritable) (rest : List Char) :
    parse (type.renderChars ++ rest) = .ok (type, rest) := by
  cases type with
  | object name =>
    have hname := name.parse_render rest
    change parse (('L' :: name.text.toList ++ [';']) ++ rest) = _
    rw [List.append_assoc, List.singleton_append]
    change (BinaryName.parse ('L' :: name.text.toList ++ ';' :: rest) >>= fun p => pure (object p.1, p.2)) = _
    rw [hname]
    rfl
  | array inner leaf =>
    obtain ⟨c, cs, hleaf, hc⟩ := leaf.render_head
    -- the brackets end where the leaf begins
    have hall : ∀ b ∈ List.replicate inner '[', (b == '[') = true := fun b hb => by
      rw [List.eq_of_mem_replicate hb]; rfl
    have hb : (c == '[') = false := by simpa using hc
    have htake : (List.replicate inner '[' ++ (leaf.render ++ rest)).takeWhile
        (· == '[') = List.replicate inner '[' := by
      rw [List.takeWhile_append_of_pos hall, hleaf, List.cons_append, List.takeWhile_cons, hb]
      simp
    have hdrop : (List.replicate inner '[' ++ (leaf.render ++ rest)).dropWhile (· == '[') = leaf.render ++
        rest := by
      rw [List.dropWhile_append_of_pos hall, hleaf, List.cons_append, List.dropWhile_cons, hb]
      simp
    have hdims : ¬ maxDimensions < inner + 1 := Nat.not_lt.mpr h
    change parse ((List.replicate (inner + 1) '[' ++ leaf.render) ++ rest) = _
    rw [List.replicate_succ, List.append_assoc, List.cons_append, parse]
    simp only [htake, hdrop, List.length_replicate, if_neg hdims, leaf.parse_render rest, Nat.add_sub_cancel]
    rfl

/-- A reference type starts with `L` or a bracket. -/
theorem renderChars_head (type : RefType) : ∃ c cs, type.renderChars = c :: cs ∧ (c = 'L' ∨ c = '[') := by
  cases type with
  | object name => exact ⟨'L', _, rfl, .inl rfl⟩
  | array inner leaf => exact ⟨'[', List.replicate inner '[' ++ leaf.render, rfl, .inr rfl⟩

end RefType

namespace FieldType

theorem parse_renderChars {type : FieldType} (h : type.IsWritable) (rest : List Char) :
    parse (type.renderChars ++ rest) = .ok (type, rest) := by
  cases type with
  | base type => cases type <;> rfl
  | ref type =>
    have href := RefType.parse_renderChars h rest
    obtain ⟨c, cs, hc, rfl | rfl⟩ := type.renderChars_head
    all_goals
      change parse (type.renderChars ++ rest) = _
      rw [hc] at href ⊢
      change (RefType.parse _ >>= fun p => pure (ref p.1, p.2)) = _
      rw [href]
      rfl

/-- No type starts like the end of a parameter list, or like `void`. -/
theorem renderChars_head (type : FieldType) : ∃ c cs, type.renderChars = c :: cs ∧ c ≠ ')' ∧ c ≠ 'V' := by
  cases type with
  | base type => exact ⟨type.letter, [], rfl, type.letter_ne.2.2.1, type.letter_ne.2.2.2⟩
  | ref type =>
    obtain ⟨c, cs, hc, rfl | rfl⟩ := type.renderChars_head
    · exact ⟨_, cs, hc, by decide, by decide⟩
    · exact ⟨_, cs, hc, by decide, by decide⟩

end FieldType

namespace MethodDescriptor

/-- As many rounds as there are characters are enough for all parameters. -/
theorem parseParameters_render : ∀ {types : List FieldType} {rounds : Nat} {rest : List Char},
    (∀ type ∈ types, type.IsWritable) → types.length < rounds →
      parseParameters rounds (types.flatMap FieldType.renderChars ++ ')' :: rest) = .ok (types, rest)
  | [], rounds, rest, _, _ => by
    rw [List.flatMap_nil, List.nil_append, parseParameters.eq_def]
    cases rounds <;> rfl
  | type :: types, 0, rest, _, hr => absurd hr (Nat.not_lt_zero _)
  | type :: types, rounds + 1, rest, h, hr => by
    have htype := FieldType.parse_renderChars (h type List.mem_cons_self)
      (types.flatMap FieldType.renderChars ++ ')' :: rest)
    have htypes := @parseParameters_render types rounds rest (fun t ht => h t (List.mem_cons_of_mem _ ht))
      (Nat.lt_of_succ_lt_succ hr)
    -- a type never begins with the closing parenthesis, so the parser goes on
    obtain ⟨c, cs, hc, hparen, -⟩ := type.renderChars_head
    rw [List.flatMap_cons, List.append_assoc]
    rw [hc] at htype ⊢
    rw [List.cons_append] at htype ⊢
    rw [parseParameters.eq_def]
    split
    · rename_i heq
      cases heq
      exact absurd rfl hparen
    · rename_i heq
      cases heq
    · omega
    · rename_i r heq _ _
      obtain rfl : rounds = r := Nat.succ.inj heq
      rw [htype]
      change (parseParameters rounds _ >>= fun p => pure (type :: p.1, p.2)) = _
      rw [htypes]
      rfl

theorem length_le_renderChars (types : List FieldType) :
    types.length ≤ (types.flatMap FieldType.renderChars).length := by
  induction types with
  | nil => exact Nat.le_refl 0
  | cons type types ih =>
    obtain ⟨c, cs, hc, -⟩ := type.renderChars_head
    rw [List.flatMap_cons, List.length_append, hc, List.length_cons, List.length_cons]
    omega

theorem parse_renderChars {descriptor : MethodDescriptor} (h : descriptor.IsWritable) (rest : List Char) :
    parse (descriptor.renderChars ++ rest) = .ok (descriptor, rest) := by
  have hlen := length_le_renderChars descriptor.parameters
  unfold renderChars
  rw [List.cons_append, List.cons_append, List.append_assoc, List.cons_append, parse]
  rw [parseParameters_render h.parameters (by rw [List.length_append, List.length_cons]; omega)]
  rcases descriptor with ⟨parameters, _ | type⟩
  · rfl
  · have htype := FieldType.parse_renderChars (h.result type rfl) rest
    obtain ⟨c, cs, hc, -, hvoid⟩ := type.renderChars_head
    dsimp only [bind, Except.bind]
    rw [hc] at htype ⊢
    split
    · rename_i heq
      cases heq
      exact absurd rfl hvoid
    · rw [htype]
      rfl

end MethodDescriptor

/-! ## What is read is what would be written -/

theorem BinaryName.text_of_ofString {text : String} {name : BinaryName} (h : ofString text = .ok name) :
    name.text = text := by
  unfold ofString at h
  split_ifs at h
  cases h
  rfl

theorem BinaryName.eq_of_parse {source rest : List Char} {name : BinaryName}
    (h : parse source = .ok (name, rest)) : source = 'L' :: name.text.toList ++ ';' :: rest := by
  unfold parse at h
  split at h
  · rename_i more
    dsimp only at h
    split at h
    · cases h
    · rename_i c after hdrop
      split at h
      · rename_i found hname
        cases h
        have hstop := List.head?_dropWhile_not (· != ';') more
        rw [hdrop] at hstop
        obtain rfl : c = ';' := by simpa using hstop
        rw [text_of_ofString hname, String.toList_ofList, ← hdrop, List.cons_append,
          List.takeWhile_append_dropWhile]
      · cases h
  · cases h

theorem BaseType.eq_of_parse {source rest : List Char} {type : BaseType} (h : parse source = .ok (type, rest)) :
    source = type.letter :: rest := by
  have hletter : ∀ {c : Char} {found : BaseType}, ofLetter? c = some found → found.letter = c := by
    intro c found hfound
    unfold ofLetter? at hfound
    split at hfound
    all_goals cases hfound
    all_goals rfl
  unfold parse at h
  split at h
  · cases h
  · split at h
    · rename_i hfound
      cases h
      rw [hletter hfound]
    · cases h

theorem ArrayLeaf.eq_of_parse {source rest : List Char} {leaf : ArrayLeaf}
    (h : parse source = .ok (leaf, rest)) : source = leaf.render ++ rest := by
  unfold parse at h
  split at h
  · obtain ⟨⟨name, rest'⟩, hname, h⟩ := Outcome.except_bind.mp h
    cases h
    rw [BinaryName.eq_of_parse hname]
    simp [render]
  · obtain ⟨⟨type, rest'⟩, htype, h⟩ := Outcome.except_bind.mp h
    cases h
    exact BaseType.eq_of_parse htype

/-- A run of brackets is all that is taken of an array type before its leaf. -/
theorem takeWhile_brackets (cs : List Char) :
    cs.takeWhile (· == '[') = List.replicate (cs.takeWhile (· == '[')).length '[' := by
  refine List.eq_replicate_of_mem fun c hc => ?_
  simpa using List.all_eq_true.mp List.all_takeWhile c hc

theorem RefType.written_of_parse {source rest : List Char} {type : RefType}
    (h : parse source = .ok (type, rest)) : type.IsWritable ∧ source = type.renderChars ++ rest := by
  unfold parse at h
  split at h
  · cases h
  · obtain ⟨⟨name, rest'⟩, hname, h⟩ := Outcome.except_bind.mp h
    cases h
    refine ⟨trivial, ?_⟩
    rw [BinaryName.eq_of_parse hname]
    simp [renderChars]
  · rename_i more
    dsimp only at h
    split_ifs at h with hmany
    · cases h
    · obtain ⟨⟨leaf, rest'⟩, hleaf, h⟩ := Outcome.except_bind.mp h
      cases h
      refine ⟨Nat.le_of_not_lt hmany, ?_⟩
      rw [renderChars, Nat.add_sub_cancel, List.replicate_succ, ← takeWhile_brackets, List.cons_append,
        List.cons_append, List.append_assoc, ← ArrayLeaf.eq_of_parse hleaf, List.takeWhile_append_dropWhile]
  · cases h

theorem FieldType.written_of_parse {source rest : List Char} {type : FieldType}
    (h : parse source = .ok (type, rest)) : type.IsWritable ∧ source = type.renderChars ++ rest := by
  have href : ∀ {source : List Char},
      (RefType.parse source >>= fun found => pure (FieldType.ref found.1, found.2)) =
      .ok (type, rest) → type.IsWritable ∧ source = type.renderChars ++ rest := by
    intro source h
    obtain ⟨⟨found, rest'⟩, hfound, h⟩ := Outcome.except_bind.mp h
    cases h
    exact RefType.written_of_parse hfound
  unfold parse at h
  split at h
  · cases h
  · exact href h
  · exact href h
  · obtain ⟨⟨base, rest'⟩, hbase, h⟩ := Outcome.except_bind.mp h
    cases h
    exact ⟨trivial, BaseType.eq_of_parse hbase⟩

/-- Each parameter takes its own part of the text, by the rounds that are left for the parameters after it. -/
theorem MethodDescriptor.written_of_parseParameters : ∀ {rounds : Nat} {source rest : List Char}
    {types : List FieldType}, parseParameters rounds source = .ok (types, rest) →
      (∀ type ∈ types, type.IsWritable) ∧ source = types.flatMap FieldType.renderChars ++ ')' :: rest
  | 0, source, rest, types, h => by
    unfold parseParameters at h
    split at h
    · cases h
      exact ⟨fun type htype => absurd htype List.not_mem_nil, rfl⟩
    · cases h
    · cases h
    · rename_i heq _ _
      cases heq
  | rounds + 1, source, rest, types, h => by
    unfold parseParameters at h
    split at h
    · cases h
      exact ⟨fun type htype => absurd htype List.not_mem_nil, rfl⟩
    · cases h
    · rename_i heq _ _
      cases heq
    · rename_i heq _ _
      cases heq
      -- a parameter, and then those behind it
      obtain ⟨⟨type, rest1⟩, htype, h⟩ := Outcome.except_bind.mp h
      obtain ⟨⟨others, rest2⟩, hothers, h⟩ := Outcome.except_bind.mp h
      cases h
      obtain ⟨hwritable, hsource⟩ := FieldType.written_of_parse htype
      obtain ⟨hwritables, hrest⟩ := written_of_parseParameters hothers
      refine ⟨List.forall_mem_cons.mpr ⟨hwritable, hwritables⟩, ?_⟩
      rw [hsource, hrest, List.flatMap_cons, List.append_assoc]

theorem MethodDescriptor.written_of_parse {source rest : List Char} {descriptor : MethodDescriptor}
    (h : parse source = .ok (descriptor, rest)) : descriptor.IsWritable ∧ source = descriptor.renderChars ++
    rest := by
  unfold parse at h
  split at h
  · obtain ⟨⟨parameters, rest1⟩, hparameters, h⟩ := Outcome.except_bind.mp h
    obtain ⟨hwritable, hsource⟩ := written_of_parseParameters hparameters
    dsimp only at h
    split at h
    · cases h
      refine ⟨⟨hwritable, fun type htype => by cases htype⟩, ?_⟩
      rw [hsource]
      simp [renderChars]
    · obtain ⟨⟨type, rest2⟩, htype, h⟩ := Outcome.except_bind.mp h
      cases h
      obtain ⟨hresult, hrest⟩ := FieldType.written_of_parse htype
      refine ⟨⟨hwritable, fun found hfound => ?_⟩, ?_⟩
      · cases hfound
        exact hresult
      · rw [hsource, hrest]
        simp [renderChars]
  · cases h

/-! ## Whole texts -/

/-- A reader that gives back what is written, and nothing else, is the inverse of writing on whole texts. -/
theorem inverts_wholeDescriptor {α : Type} {parse : List Char → Except DescriptorFault (α × List Char)}
    {write : α → List Char} {valid : α → Prop}
    (hback : ∀ value, valid value → ∀ rest, parse (write value ++ rest) = .ok (value, rest))
    (hread : ∀ {source rest value}, parse source = .ok (value, rest) → valid value ∧
    source = write value ++ rest) : Outcome.Inverts (wholeDescriptor parse)
    (fun value => String.ofList (write value)) valid := by
  refine Outcome.inverts_of (fun value hvalid => ?_) fun source value h => ?_
  · have h := hback value hvalid []
    rw [List.append_nil] at h
    unfold wholeDescriptor
    rw [String.toList_ofList, h]
    rfl
  · obtain ⟨⟨found, rest⟩, hfound, h⟩ := Outcome.except_bind.mp h
    obtain ⟨hvalid, hsource⟩ := hread hfound
    cases rest with
    | nil =>
      cases h
      rw [List.append_nil] at hsource
      exact ⟨hvalid, by rw [← hsource, String.ofList_toList]⟩
    | cons c cs => cases h

theorem RefType.inverts_ofDescriptor : Outcome.Inverts ofDescriptor render IsWritable :=
  inverts_wholeDescriptor (fun _ => parse_renderChars) written_of_parse

theorem FieldType.inverts_ofDescriptor : Outcome.Inverts ofDescriptor render IsWritable :=
  inverts_wholeDescriptor (fun _ => parse_renderChars) written_of_parse

theorem MethodDescriptor.inverts_ofDescriptor : Outcome.Inverts ofDescriptor render IsWritable :=
  inverts_wholeDescriptor (fun _ => parse_renderChars) written_of_parse

/-- A class constant holds the bare name of a class, and the descriptor of an array, which no name looks like. -/
theorem RefType.inverts_ofClassName : Outcome.Inverts ofClassName className IsWritable := by
  refine Outcome.inverts_of (fun type hwritable => ?_) fun text type h => ?_
  · cases type with
    | object name =>
      change ofClassName name.text = _
      unfold ofClassName
      split
      · rename_i heq
        exact absurd rfl (name.ne_bracket (by rw [heq]; exact List.mem_cons_self))
      · rw [BinaryName.ofString_text]
    | array inner leaf =>
      have hdescriptor := inverts_ofDescriptor.read_write.mpr hwritable
      -- arrays have their descriptors for names, and no name of a class begins as these do
      have hhead : (RefType.array inner leaf).render.toList = '[' ::
          (List.replicate inner '[' ++ leaf.render) := by
        unfold RefType.render
        rw [String.toList_ofList]
        rfl
      change ofClassName (RefType.render _) = _
      unfold ofClassName
      rw [hhead]
      exact hdescriptor
  · unfold ofClassName at h
    split at h
    · rename_i more heq
      obtain ⟨hwritable, rfl⟩ := (inverts_ofDescriptor text type).mp h
      refine ⟨hwritable, ?_⟩
      cases type with
      | object name =>
        rw [render, String.toList_ofList] at heq
        exact absurd (List.cons.inj heq).1 (by decide)
      | array inner leaf => rfl
    · split at h
      · rename_i name hname
        cases h
        exact ⟨trivial, BinaryName.text_of_ofString hname⟩
      · cases h

/-! ## Reading and writing types -/

theorem FieldType.ofDescriptor_render {type : FieldType} (h : type.IsWritable) :
    ofDescriptor type.render = .ok type :=
  inverts_ofDescriptor.read_write.mpr h

theorem MethodDescriptor.ofDescriptor_render {descriptor : MethodDescriptor} (h : descriptor.IsWritable) :
    ofDescriptor descriptor.render = .ok descriptor :=
  inverts_ofDescriptor.read_write.mpr h

/-- The class name of a type stands for the type. -/
theorem RefType.ofClassName_className {type : RefType} (h : type.IsWritable) :
    ofClassName type.className = .ok type :=
  inverts_ofClassName.read_write.mpr h

/-- Types that are read from texts can be written. -/
theorem FieldType.isWritable_of_ofDescriptor {source : String} {type : FieldType}
    (h : ofDescriptor source = .ok type) : type.IsWritable :=
  ((inverts_ofDescriptor source type).mp h).1

theorem MethodDescriptor.isWritable_of_ofDescriptor {source : String} {descriptor : MethodDescriptor}
    (h : ofDescriptor source = .ok descriptor) : descriptor.IsWritable :=
  ((inverts_ofDescriptor source descriptor).mp h).1

theorem RefType.isWritable_of_ofClassName {source : String} {type : RefType}
    (h : ofClassName source = .ok type) : type.IsWritable :=
  ((inverts_ofClassName source type).mp h).1

/-- A text is read as a type just if it is what is written for the type and the type can be written: its names
are legal, as `BinaryName` has them, and no array in it has more than 255 dimensions. So no two types that can
be written share a text. -/
theorem descriptors_invert :
    Outcome.Inverts FieldType.ofDescriptor FieldType.render FieldType.IsWritable ∧
    Outcome.Inverts RefType.ofDescriptor RefType.render RefType.IsWritable ∧
    Outcome.Inverts MethodDescriptor.ofDescriptor MethodDescriptor.render MethodDescriptor.IsWritable ∧
    Outcome.Inverts RefType.ofClassName RefType.className RefType.IsWritable :=
  ⟨FieldType.inverts_ofDescriptor, RefType.inverts_ofDescriptor, MethodDescriptor.inverts_ofDescriptor,
    RefType.inverts_ofClassName⟩

/-- A class name may have parentheses and the letters of types in it. -/
example : MethodDescriptor.ofDescriptor "(ILV)I(;[[Z)V" =
    .ok ⟨[.base .int, .ref (.object ⟨"V)I(", by decide⟩), .ref (.array 1 (.base .boolean))], none⟩ := by
  decide

end ClassWeave
