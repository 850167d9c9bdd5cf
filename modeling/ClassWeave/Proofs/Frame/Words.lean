import ClassWeave.Proofs.Frame.Transfer

/-!
# Stack instructions on words

The machine defines the stack instructions on words, and a frame has one entry for each value. `StackOp.onWords`
is what the machine does, and `OperandStack.words` is a stack with two words for each wide value. An instruction
takes words off in one or two groups. It succeeds on a frame exactly if the words are there and no group ends
inside a wide value (`OperandStack.Halves`), and then it does to the words what the machine does.
-/

namespace ClassWeave

/-! ## Words -/

/-- A word on the stack of the machine: a narrow value, or one half of a wide one. -/
inductive StackWord where
  | whole (type : AnalysisType)
  | upper (type : AnalysisType)
  | lower (type : AnalysisType)
deriving DecidableEq, Repr

/-- The words of a value, the topmost first. -/
def VerificationType.words (type : AnalysisType) : List StackWord :=
  if type.isWide then [.upper type, .lower type] else [.whole type]

@[simp]
theorem VerificationType.length_words (type : AnalysisType) : type.words.length = type.width := by
  unfold words
  rw [Frame.width_eq]
  split_ifs <;> rfl

namespace OperandStack

/-- The words of a stack, the topmost first. -/
def words (stack : OperandStack) : List StackWord :=
  stack.flatMap VerificationType.words

/-- A wide value has one half among the topmost `count` words, and the other half below them. -/
def Halves (stack : OperandStack) (count : Nat) : Prop :=
  ∃ above type below, stack = above ++ type :: below ∧ type.isWide = true ∧ count = (words above).length + 1

@[simp]
theorem words_nil : words [] = [] := rfl

@[simp]
theorem words_cons (type : AnalysisType) (rest : OperandStack) :
    words (type :: rest) = type.words ++ words rest := rfl

@[simp]
theorem words_append (xs ys : OperandStack) : words (xs ++ ys) = words xs ++ words ys :=
  List.flatMap_append

theorem length_words : ∀ stack : OperandStack, (words stack).length = (stack.map (·.width)).sum
  | [] => rfl
  | type :: rest => by
    rw [words_cons, List.length_append, VerificationType.length_words, length_words rest, List.map_cons,
      List.sum_cons]

variable {stack group rest : OperandStack} {count : Nat}

theorem width_pos (type : AnalysisType) : 0 < type.width := by
  rw [Frame.width_eq]
  split_ifs <;> decide

theorem halves_cons (type : AnalysisType) (rest : OperandStack) (count : Nat) : Halves (type :: rest) count ↔
    (type.isWide = true ∧ count = 1) ∨ ∃ below, Halves rest below ∧ count = type.width + below := by
  constructor
  · rintro ⟨above, wide, below, hstack, hwide, rfl⟩
    cases above with
    | nil =>
      obtain ⟨rfl, rfl⟩ := List.cons.inj hstack
      exact .inl ⟨hwide, rfl⟩
    | cons t above =>
      obtain ⟨rfl, rfl⟩ := List.cons.inj hstack
      refine .inr ⟨_, ⟨above, wide, below, rfl, hwide, rfl⟩, ?_⟩
      simp only [words_cons, List.length_append, VerificationType.length_words]
      omega
  · rintro (⟨hwide, rfl⟩ | ⟨_, ⟨above, wide, below, rfl, hwide, rfl⟩, rfl⟩)
    · exact ⟨[], type, rest, rfl, hwide, rfl⟩
    · refine ⟨type :: above, wide, below, rfl, hwide, ?_⟩
      simp only [words_cons, List.length_append, VerificationType.length_words]
      omega

/-- Words on top are whole values unless there are too few or the last of them is half of a value. -/
theorem exists_group_iff : ∀ {stack : OperandStack} {count : Nat},
    (∃ group rest, stack = group ++ rest ∧ (words group).length = count) ↔
      count ≤ (words stack).length ∧ ¬ Halves stack count
  | [], count => by
    have hnone : ¬ Halves [] count := by
      rintro ⟨above, type, below, hstack, -⟩
      simp at hstack
    constructor
    · rintro ⟨group, rest, hstack, rfl⟩
      obtain ⟨rfl, rfl⟩ := List.append_eq_nil_iff.mp hstack.symm
      exact ⟨Nat.le_refl _, hnone⟩
    · rintro ⟨hle, -⟩
      exact ⟨[], [], rfl, (Nat.le_zero.mp hle).symm⟩
  | type :: rest, count => by
    have hpos := width_pos type
    have hwidth := Frame.width_eq type
    rw [halves_cons]
    simp only [words_cons, List.length_append, VerificationType.length_words]
    constructor
    -- a group takes the first entry whole, or takes nothing
    · rintro ⟨group, below, hstack, rfl⟩
      cases group with
      | nil =>
        refine ⟨Nat.zero_le _, ?_⟩
        rintro (⟨-, hcount⟩ | ⟨_, -, hcount⟩) <;> simp at hcount
        omega
      | cons t group =>
        obtain ⟨rfl, rfl⟩ := List.cons.inj hstack
        obtain ⟨hle, hno⟩ := (@exists_group_iff (group ++ below) _).mp ⟨group, below, rfl, rfl⟩
        simp only [words_cons, List.length_append, VerificationType.length_words]
        refine ⟨Nat.add_le_add_left hle _, ?_⟩
        rintro (⟨hwide, hcount⟩ | ⟨further, hhalves, hcount⟩)
        · rw [if_pos hwide] at hwidth
          omega
        · rw [Nat.add_left_cancel hcount] at hno
          exact hno hhalves
    · rintro ⟨hle, hno⟩
      rw [not_or] at hno
      by_cases hzero : count = 0
      · exact ⟨[], type :: rest, rfl, hzero.symm⟩
      -- less than the first entry is half of it, which is excluded
      have hge : type.width ≤ count := by
        by_contra hlt
        cases hwide : type.isWide with
        | true =>
          rw [hwide, if_pos rfl] at hwidth
          exact hno.1 ⟨hwide, by omega⟩
        | false =>
          rw [hwide, if_neg Bool.false_ne_true] at hwidth
          omega
      obtain ⟨group, below, rfl, hgroup⟩ := (@exists_group_iff rest (count - type.width)).mpr
        ⟨by omega, fun hhalves => hno.2 ⟨_, hhalves, by omega⟩⟩
      refine ⟨type :: group, below, rfl, ?_⟩
      simp only [words_cons, List.length_append, VerificationType.length_words]
      omega

/-! ## Groups of words -/

/-- A group is split off if and only if its values have as many words as are left to take. -/
theorem splitFrom_eq_ok {count taken : Nat} : splitFrom count taken stack = .ok (group, rest) ↔
    stack = group ++ rest ∧ taken + (words group).length = count := by
  induction stack generalizing taken group with
  | nil =>
    have happend : [] = group ++ rest ↔ group = [] ∧ rest = [] := by
      rw [eq_comm, List.append_eq_nil_iff]
    unfold splitFrom
    rw [happend]
    constructor
    · intro h
      split_ifs at h with hlt heq
      cases h
      exact ⟨⟨rfl, rfl⟩, heq⟩
    · rintro ⟨⟨rfl, rfl⟩, heq⟩
      have htaken : taken = count := heq
      rw [if_neg (by omega), if_pos htaken]
  | cons type stack ih =>
    have hpos := width_pos type
    unfold splitFrom
    constructor
    · intro h
      split_ifs at h with hlt heq
      · obtain ⟨⟨group', rest'⟩, hsplit, h⟩ := Outcome.except_bind.mp h
        cases h
        obtain ⟨rfl, hwords⟩ := ih.mp hsplit
        refine ⟨rfl, ?_⟩
        simp only [words_cons, List.length_append, VerificationType.length_words]
        omega
      · cases h
        exact ⟨rfl, heq⟩
    · rintro ⟨hstack, hwords⟩
      -- either enough has been taken, or the entry is taken and the rest splits
      cases group with
      | nil =>
        have htaken : taken = count := hwords
        rw [if_neg (by omega), if_pos htaken]
        exact congrArg (fun rest => Except.ok ([], rest)) hstack
      | cons t group =>
        obtain ⟨rfl, rfl⟩ := List.cons.inj hstack
        simp only [words_cons, List.length_append, VerificationType.length_words] at hwords
        rw [if_pos (by omega)]
        exact Outcome.except_bind.mpr ⟨_, ih.mpr ⟨rfl, by omega⟩, rfl⟩

theorem splitWords_eq_ok {count : Nat} : splitWords count stack = .ok (group, rest) ↔
    stack = group ++ rest ∧ (words group).length = count := by
  unfold splitWords
  rw [splitFrom_eq_ok, Nat.zero_add]

theorem Halves.append (group : OperandStack) (h : Halves rest count) :
    Halves (group ++ rest) ((words group).length + count) := by
  obtain ⟨above, type, below, rfl, hwide, rfl⟩ := h
  refine ⟨group ++ above, type, below, by simp, hwide, ?_⟩
  rw [words_append, List.length_append]
  omega

/-- Two groups, one below the other, are there if the words are and neither group ends inside a wide value. -/
theorem exists_groups_iff {first second : Nat} :
    (∃ group passed rest, stack = group ++ passed ++ rest ∧ (words group).length = first ∧
      (words passed).length = second) ↔
        first + second ≤ (words stack).length ∧ ¬ Halves stack first ∧ ¬ Halves stack (first + second) := by
  constructor
  · rintro ⟨group, passed, rest, rfl, rfl, rfl⟩
    have hfirst := exists_group_iff.mp ⟨group, passed ++ rest, List.append_assoc .., rfl⟩
    have hboth := exists_group_iff.mp ⟨group ++ passed, rest, rfl, rfl⟩
    rw [words_append, List.length_append] at hboth
    exact ⟨hboth.1, hfirst.2, hboth.2⟩
  · rintro ⟨hle, hfirst, hboth⟩
    obtain ⟨group, below, rfl, hgroup⟩ := exists_group_iff.mpr ⟨by omega, hfirst⟩
    rw [words_append, List.length_append] at hle
    have hbelow : ¬ Halves below second := by
      intro h
      have happend := h.append group
      rw [hgroup] at happend
      exact hboth happend
    obtain ⟨passed, rest, rfl, hpassed⟩ := exists_group_iff.mpr ⟨by omega, hbelow⟩
    exact ⟨group, passed, rest, (List.append_assoc ..).symm, hgroup, hpassed⟩

theorem eq_nil_of_words (h : (words stack).length = 0) : stack = [] := by
  cases stack with
  | nil => rfl
  | cons type rest =>
    have hpos := width_pos type
    simp only [words_cons, List.length_append, VerificationType.length_words] at h
    omega

/-- Taking one group off leaves the rest. -/
theorem dropGroup_eq_ok {result : OperandStack} {first : Nat} :
    (splitWords first stack >>= fun split => pure split.2) = .ok result ↔
      ∃ group passed rest, stack = group ++ passed ++ rest ∧ (words group).length = first ∧
        (words passed).length = 0 ∧ result = rest := by
  rw [Outcome.except_bind]
  constructor
  · rintro ⟨⟨group, rest⟩, hsplit, h⟩
    cases h
    obtain ⟨rfl, hgroup⟩ := splitWords_eq_ok.mp hsplit
    exact ⟨group, [], rest, by simp, hgroup, rfl, rfl⟩
  · rintro ⟨group, passed, rest, hstack, hgroup, hpassed, rfl⟩
    rw [eq_nil_of_words hpassed, List.append_nil] at hstack
    exact ⟨_, splitWords_eq_ok.mpr ⟨hstack, hgroup⟩, rfl⟩

/-- Taking two groups off and putting something made of them back. -/
theorem moveGroups_eq_ok {result : OperandStack} {first second : Nat}
    {arrange : OperandStack → OperandStack → OperandStack} :
    (splitWords first stack >>= fun split => splitWords second split.2 >>= fun split' =>
      pure (arrange split.1 split'.1 ++ split'.2)) = .ok result ↔
        ∃ group passed rest, stack = group ++ passed ++ rest ∧ (words group).length = first ∧
          (words passed).length = second ∧ result = arrange group passed ++ rest := by
  rw [Outcome.except_bind]
  constructor
  · rintro ⟨⟨group, below⟩, hsplit, h⟩
    obtain ⟨⟨passed, rest⟩, hsplit', h⟩ := Outcome.except_bind.mp h
    cases h
    obtain ⟨rfl, hgroup⟩ := splitWords_eq_ok.mp hsplit
    obtain ⟨rfl, hpassed⟩ := splitWords_eq_ok.mp hsplit'
    exact ⟨group, passed, rest, (List.append_assoc ..).symm, hgroup, hpassed, rfl⟩
  · rintro ⟨group, passed, rest, rfl, hgroup, hpassed, rfl⟩
    exact ⟨_, splitWords_eq_ok.mpr ⟨List.append_assoc .., hgroup⟩,
      Outcome.except_bind.mpr ⟨_, splitWords_eq_ok.mpr ⟨rfl, hpassed⟩, rfl⟩⟩

end OperandStack

open OperandStack (words Halves exists_groups_iff dropGroup_eq_ok moveGroups_eq_ok)

/-! ## What the machine does -/

namespace StackOp

variable {α : Type}

/-- What the machine does to the words of its stack. -/
def onWords : StackOp → List α → Option (List α)
  | .pop, _ :: rest => some rest
  | .pop2, _ :: _ :: rest => some rest
  | .dup, a :: rest => some (a :: a :: rest)
  | .dupX1, a :: b :: rest => some (a :: b :: a :: rest)
  | .dupX2, a :: b :: c :: rest => some (a :: b :: c :: a :: rest)
  | .dup2, a :: b :: rest => some (a :: b :: a :: b :: rest)
  | .dup2X1, a :: b :: c :: rest => some (a :: b :: c :: a :: b :: rest)
  | .dup2X2, a :: b :: c :: d :: rest => some (a :: b :: c :: d :: a :: b :: rest)
  | .swap, a :: b :: rest => some (b :: a :: rest)
  | _, _ => none

/-- Where the groups of words end that the instruction moves, counted from the top. -/
def boundaries : StackOp → List Nat
  | .pop | .dup => [1]
  | .pop2 | .dup2 => [2]
  | .dupX1 | .swap => [1, 2]
  | .dupX2 => [1, 3]
  | .dup2X1 => [2, 3]
  | .dup2X2 => [2, 4]

/-- The words in the group on top. -/
def groupWords : StackOp → Nat
  | .pop | .dup | .dupX1 | .dupX2 | .swap => 1
  | .pop2 | .dup2 | .dup2X1 | .dup2X2 => 2

/-- The words in the group below it. -/
def passedWords : StackOp → Nat
  | .pop | .pop2 | .dup | .dup2 => 0
  | .dupX1 | .dup2X1 | .swap => 1
  | .dupX2 | .dup2X2 => 2

/-- What takes the place of the two groups. -/
def arrange : StackOp → List α → List α → List α
  | .pop, _, _ | .pop2, _, _ => []
  | .swap, group, passed => passed ++ group
  | _, group, passed => group ++ passed ++ group

theorem forall_boundaries (op : StackOp) {P : Nat → Prop} :
    (∀ boundary ∈ op.boundaries, P boundary) ↔ P op.groupWords ∧ P (op.groupWords + op.passedWords) := by
  cases op <;> simp [boundaries, groupWords, passedWords]

theorem onWords_groups (op : StackOp) {group passed : List α} (hgroup : group.length = op.groupWords)
    (hpassed : passed.length = op.passedWords) (rest : List α) :
    op.onWords (group ++ passed ++ rest) = some (op.arrange group passed ++ rest) := by
  match op, group, passed, hgroup, hpassed with
  | .pop, [_], [], _, _ | .pop2, [_, _], [], _, _ | .dup, [_], [], _, _ | .dupX1, [_], [_], _, _
  | .dupX2, [_], [_, _], _, _ | .dup2, [_, _], [], _, _ | .dup2X1, [_, _], [_], _, _
  | .dup2X2, [_, _], [_, _], _, _ | .swap, [_], [_], _, _ => rfl

/-- The machine needs the words of both groups. -/
theorem exists_onWords_iff (op : StackOp) {stack : List α} :
    (∃ moved, op.onWords stack = some moved) ↔ op.groupWords + op.passedWords ≤ stack.length := by
  constructor
  · rintro ⟨moved, h⟩
    unfold onWords at h
    split at h <;> simp [groupWords, passedWords] at h ⊢
  · intro hle
    have hsplit : stack = stack.take op.groupWords ++ (stack.drop op.groupWords).take op.passedWords ++
        (stack.drop op.groupWords).drop op.passedWords := by
      rw [List.append_assoc, List.take_append_drop, List.take_append_drop]
    rw [hsplit]
    refine ⟨_, onWords_groups op ?_ ?_ _⟩
    · rw [List.length_take]
      omega
    · rw [List.length_take, List.length_drop]
      omega

theorem words_arrange (op : StackOp) (group passed : OperandStack) :
    words (op.arrange group passed) = op.arrange (words group) (words passed) := by
  cases op <;> simp [arrange]

/-! ## Stack instructions -/

/-- A stack instruction takes off two groups of words and puts others in their place. -/
theorem transfer_eq_ok {op : StackOp} {stack result : OperandStack} : op.transfer stack = .ok result ↔
    ∃ group passed rest, stack = group ++ passed ++ rest ∧ (words group).length = op.groupWords ∧
      (words passed).length = op.passedWords ∧ result = op.arrange group passed ++ rest := by
  cases op with
  | pop => exact dropGroup_eq_ok
  | pop2 => exact dropGroup_eq_ok
  | dup => exact @moveGroups_eq_ok _ _ 1 0 fun group passed => group ++ passed ++ group
  | dupX1 => exact @moveGroups_eq_ok _ _ 1 1 fun group passed => group ++ passed ++ group
  | dupX2 => exact @moveGroups_eq_ok _ _ 1 2 fun group passed => group ++ passed ++ group
  | dup2 => exact @moveGroups_eq_ok _ _ 2 0 fun group passed => group ++ passed ++ group
  | dup2X1 => exact @moveGroups_eq_ok _ _ 2 1 fun group passed => group ++ passed ++ group
  | dup2X2 => exact @moveGroups_eq_ok _ _ 2 2 fun group passed => group ++ passed ++ group
  | swap => exact @moveGroups_eq_ok _ _ 1 1 fun group passed => passed ++ group

end StackOp

/-- A stack instruction succeeds on a frame exactly if the machine has the words that it takes and none of its
groups ends inside a wide value. Then the words of the stack are those that the machine leaves, and the values
below stay. -/
theorem Instruction.transfer_shuffle_words (owner : BinaryName) (strict : Bool) (index : Nat) (op : StackOp)
    (frame : AnalysisFrame) :
    ((∃ after, (Instruction.shuffle op).transfer owner strict index frame = .ok after) ↔
      (∃ moved, op.onWords (words frame.stack) = some moved) ∧
        ∀ boundary ∈ op.boundaries, ¬ Halves frame.stack boundary) ∧
    ∀ after, (Instruction.shuffle op).transfer owner strict index frame = .ok after →
      after.locals = frame.locals ∧ op.onWords (words frame.stack) = some (words after.stack) ∧
        ∃ top moved below, frame.stack = top ++ below ∧ after.stack = moved ++ below ∧
          (words top).length = op.groupWords + op.passedWords := by
  have hframe : ∀ {after : AnalysisFrame}, (Instruction.shuffle op).transfer owner strict index frame =
      .ok after ↔ ∃ stack, op.transfer frame.stack = .ok stack ∧ (⟨frame.locals, stack⟩ : AnalysisFrame) =
      after := by
    intro after
    refine Outcome.except_bind.trans (exists_congr fun stack => and_congr_right fun _ => ?_)
    exact ⟨fun h => (by cases h; rfl), fun h => congrArg Except.ok h⟩
  constructor
  · -- it succeeds where the stack splits into whole groups of the right size
    rw [StackOp.exists_onWords_iff, StackOp.forall_boundaries, ← exists_groups_iff]
    constructor
    · rintro ⟨after, h⟩
      obtain ⟨stack, hstack, -⟩ := hframe.mp h
      obtain ⟨group, passed, rest, heq, hgroup, hpassed, -⟩ := StackOp.transfer_eq_ok.mp hstack
      exact ⟨group, passed, rest, heq, hgroup, hpassed⟩
    · rintro ⟨group, passed, rest, heq, hgroup, hpassed⟩
      exact ⟨_, hframe.mpr ⟨_, StackOp.transfer_eq_ok.mpr ⟨group, passed, rest, heq, hgroup, hpassed,
        rfl⟩, rfl⟩⟩
  · intro after h
    obtain ⟨stack, hstack, rfl⟩ := hframe.mp h
    obtain ⟨group, passed, rest, heq, hgroup, hpassed, rfl⟩ := StackOp.transfer_eq_ok.mp hstack
    refine ⟨rfl, ?_, group ++ passed, op.arrange group passed, rest, heq, rfl, ?_⟩
    · rw [heq, OperandStack.words_append, OperandStack.words_append, OperandStack.words_append,
        StackOp.words_arrange]
      exact StackOp.onWords_groups op hgroup hpassed _
    · rw [OperandStack.words_append, List.length_append, hgroup, hpassed]

/-- Where the machine would copy a wide value, one value is copied. -/
example : StackOp.dup2X1.transfer [.long, .integer, .float] = .ok [.long, .integer, .long, .float] := rfl

/-- Half of a wide value is no group. -/
example : StackOp.dupX1.transfer [.integer, .long] = .error (.invalidWidth 2) := rfl

end ClassWeave
