import ClassWeave.Proofs.Method.Trimmed
import ClassWeave.Proofs.Patch.Diverted

/-!
# Programs that were patched

A program that was patched, written where frames are needed and read again has a jump behind each test of the
flag. Neither a branch nor a handler refers to the position of that jump (`Program.Patched`).
-/

namespace ClassWeave

open Layout (ofItems place place_inj place_succ)
open MethodBody (collapse collapsedAt)

namespace Program

variable {program source found : Program} {frames : Array (Option AnalysisFrame)} {pool : Pool}
  {items : List LayoutItem}

/-- A position that has moved is not that of a jump that was put in. -/
theorem Tests.shift_ne {i target : Nat} (h : program.Tests i target) (k : Nat) :
    program.shift k ≠ program.shift (i + 1) + 1 := by
  have hsucc := h.shift_succ
  rcases Nat.lt_or_ge (i + 1) k with hlt | hge
  · rcases Nat.eq_or_lt_of_le (Nat.succ_le_of_lt hlt) with rfl | hlt
    · change program.shift (i + 2) ≠ _
      omega
    · have hbehind : program.shift (i + 2) < program.shift k := shift_lt hlt
      omega
  · rcases Nat.eq_or_lt_of_le hge with rfl | hlt
    · omega
    · have hbefore := program.shift_lt hlt
      omega

/-- Nothing refers to a jump that was put in. -/
theorem Tests.unnamed {i target : Nat} (h : program.Tests i target) :
    Unnamed program.diverted.ops program.diverted.handlers (program.shift (i + 1) + 1) where
  targets := by
    intro op hop ht
    obtain ⟨op', -, rfl⟩ := List.mem_map.mp hop
    rw [CodeOp.targets_mapTargets] at ht
    obtain ⟨t, -, heq⟩ := List.mem_map.mp ht
    exact h.shift_ne t heq
  handlers := by
    change ∀ handler ∈ program.handlers.map _, _
    rw [List.forall_mem_map]
    exact fun handler _ => ⟨h.shift_ne _, h.shift_ne _, h.shift_ne _⟩

/-- What a program is that was patched, written where frames are needed and read again: trimmed, with a jump
behind each test of the flag that nothing refers to. It goes where the test goes, unless the test is the negation
of a branch that was too far from its target, and skips the jump. -/
structure Patched (program : Program) : Prop extends Trimmed program.ops program.handlers where
  jump : ∀ {i target}, program.Tests i target →
    ∃ next, program.ops[i + 2]? = some (.branch (.goto next)) ∧ (next = target ∨ target = i + 3)
  unnamed : ∀ {i target}, program.Tests i target → Unnamed program.ops program.handlers (i + 2)

/-- A test of a program that was patched is a test of the program before, or the negation of a wide branch. -/
theorem CollapsedAs.tests_cases (h : CollapsedAs pool source.diverted found frames items) {i target : Nat}
    (ht : found.Tests i target) :
    (∃ x t f, source.Tests x t ∧ (frames[source.shift (x + 1)]?).join = some f ∧
        i + 1 = place (ofItems items).widened (collapsedAt frames (source.shift (x + 1))) ∧
          collapsedAt frames (source.shift (x + 1)) ∉ (ofItems items).widened ∧
            target = place (ofItems items).widened (collapsedAt frames (source.shift t))) ∨
      ∃ k next, k ∈ (ofItems items).widened ∧ i + 1 = place (ofItems items).widened k ∧ target = i + 3 ∧
        found.ops[i + 2]? = some (.branch (.goto next)) := by
  refine (h.exists_test ht.test).imp_left ?_
  rintro ⟨b, t, f, hb, hf, hplace, hnarrow, rfl⟩
  obtain ⟨a, g, ha, hg, -, hnext, -⟩ := h.exists_plain ht.load
  -- the branch is right behind the instruction that loads the flag, since nothing is put in between
  obtain ⟨g', hg'⟩ := (h.framesOf.framed (a + 1)).mpr (((h.framesOf.framed a).mp ⟨g, hg⟩).next ha rfl)
  obtain rfl := MethodBody.collapsedAt_inj hg' hf (place_inj (hnext.symm.trans hplace))
  rcases diverted_cases ha with ⟨x, old, hx, rfl, heq⟩ | ⟨_, _, -, -, heq⟩
  · have hload : old = .plain (.field .get LiteralPattern.substituteFlag) := CodeOp.mapTargets_eq_plain heq.symm
    subst hload
    have hsucc := shift_succ hx (by rintro ⟨_, heq⟩; cases heq)
    rw [← hsucc] at hb hf hplace hnarrow
    rcases diverted_cases hb with ⟨y, old, hy, hshift, heq⟩ | ⟨_, _, -, -, heq⟩
    · obtain rfl := shift_inj hshift
      obtain ⟨t', rfl, rfl⟩ := CodeOp.mapTargets_eq_conditional heq.symm
      refine ⟨x, t', f, ⟨hx, hy, fun line hline heq => ?_⟩, hf, hplace, hnarrow, rfl⟩
      refine ht.line (line.1, place (ofItems items).widened (collapsedAt frames (source.shift line.2))) ?_ ?_
      · rw [h.lines]
        exact List.mem_map.mpr ⟨(line.1, source.shift line.2), List.mem_map_of_mem hline, rfl⟩
      · rw [heq]
        exact hplace.symm
    · cases heq
  · cases heq

/-- A program that was patched is known by what it looks like. -/
theorem CollapsedAs.patched (h : CollapsedAs pool source.diverted found frames items) : found.Patched := by
  have htrimmed := h.framesOf.trimmed_collapse.respelled h.encoding
  rw [← h.ops, ← h.handlers] at htrimmed
  refine ⟨htrimmed, fun {i target} ht => ?_, fun {i target} ht => ?_⟩
  · -- behind each test is its jump: the one that was inserted, or that of a wide branch
    rcases h.tests_cases ht with ⟨x, t, f, htest, hf, hplace, hnarrow, rfl⟩ | ⟨_, next, -, -, htarget, hjump⟩
    · refine ⟨_, ?_, .inl rfl⟩
      obtain ⟨f', hf'⟩ := (h.framesOf.framed _).mpr (((h.framesOf.framed _).mp ⟨f, hf⟩).next
        (getElem?_diverted htest.test) rfl)
      have hjump := (@MethodBody.collapse_reachable _ _ source.diverted.handlers _ _ _
        htest.getElem?_diverted hf').1
      rw [MethodBody.collapsedAt_succ hf] at hjump
      have hnarrow' : collapsedAt frames (source.shift (x + 1)) + 1 ∉ (ofItems items).widened := by
        intro hwide
        obtain ⟨_, _, heq⟩ := h.encoding.exists_conditional hjump hwide
        cases heq
      have hfound := h.encoding.getElem?_narrow hjump hnarrow'
      rw [place_succ, if_neg hnarrow, ← hplace] at hfound
      rw [h.ops]
      exact hfound
    · exact ⟨next, hjump, .inr htarget⟩
  · rw [h.ops, h.handlers]
    -- and nothing else leads to what is behind that
    rcases h.tests_cases ht with ⟨x, t, f, htest, hf, hplace, hnarrow, -⟩ | ⟨k, _, hwide, hplace, -, -⟩
    · have hframed := (h.framesOf.framed _).mpr (((h.framesOf.framed _).mp ⟨f, hf⟩).next
        (getElem?_diverted htest.test) rfl)
      have hunnamed := h.framesOf.unnamed_collapse htest.unnamed ⟨f, hf⟩ hframed
      rw [MethodBody.collapsedAt_succ hf] at hunnamed
      have hfound := hunnamed.respelled h.encoding hnarrow
      rw [place_succ, if_neg hnarrow, ← hplace] at hfound
      exact hfound
    · rw [show i + 2 = place (ofItems items).widened k + 1 from congrArg (· + 1) hplace]
      exact h.encoding.unnamed_wide hwide

end Program

end ClassWeave
