import ClassWeave.Proofs.Patch.Fenced
import ClassWeave.Proofs.Patch.Neutralised

/-!
# Classes that are patched again

A class that was patched is patched once more and read again. Header and methods are the same, and the code of a
patched method is the same but for an `athrow` behind each jump of a test that had code behind it which can be
reached (`LiteralPattern.apply_again`).
-/

namespace ClassWeave

/-! ## Bodies -/

/-- What the body of a method is when it was patched, and patched again, as it is read after either time. If the
handlers can be counted, there is a jump behind each test of the flag, and it goes where the test goes unless it
is what a negated branch skips. If all of them do, then the second time only makes the code that can be reached
behind them stand behind an `athrow`. -/
def CodeAttribute.RepatchedAs (pool pool' pool'' : Pool) (header : ClassHeader) (method : MethodHeader)
    (body body' body'' : CodeAttribute) : Prop :=
  ∃ source once twice, body.Says pool header.name method source ∧ body'.Says pool' header.name method once ∧
    body''.Says pool'' header.name method twice ∧ (source.diverted.CountsHandlers →
      (∀ i target, once.Tests i target → ∃ next, once.ops[i + 2]? = some (.branch (.goto next)) ∧
        (next = target ∨ target = i + 3)) ∧
      (once.JumpsAlike → once.RepatchedAs pool'' twice))

variable {pool pool' pool'' : Pool} {header : ClassHeader} {method : MethodHeader}
  {body body' body'' attr attr' : CodeAttribute} {events events' : List MethodEvent} {code code' : MethodCode}

/-- A body that was written with the jumps put in, and once more, is patched again. -/
theorem BodyReread.repatchedAs (hp : pool.WellFormed) (hp' : pool'.WellFormed) (hp'' : pool''.WellFormed)
    (hframes : header.version.usesFrames = true)
    (h : BodyReread pool pool' header method body body' events (LiteralPattern.divert events) code attr)
    (h' : BodyReread pool' pool'' header method body' body'' events' (LiteralPattern.divert events')
    code' attr') :
    body.RepatchedAs pool pool' pool'' header method body' body'' := by
  obtain ⟨source, _, hsays, hplaced, hcode, hprogram⟩ := ClassFile.exists_diverted hp h.said
  cases hcode.symm.trans h.finishes
  obtain ⟨once, frames, items, hsays', hplaced', hlaid, hcollapsed⟩ :=
    h.exists_collapsed hp' hframes hprogram hplaced.diverted
  obtain ⟨_, _, hread, -, hcode', hprogram'⟩ := ClassFile.exists_diverted hp' h'.said
  cases hcode'.symm.trans h'.finishes
  -- what the second run reads is what the first one has written
  obtain rfl := hsays'.unique hread
  obtain ⟨twice, frames', items', hsays'', -, hlaid', -⟩ :=
    h'.exists_collapsed hp'' hframes hprogram' hplaced'.diverted
  refine ⟨source, _, twice, hsays, hsays', hsays'', fun hcounts => ?_⟩
  have hpatched := (hcollapsed hcounts).patched
  refine ⟨fun i target htest => hpatched.jump htest, fun hjumps => ?_⟩
  obtain ⟨fences, hlength, hfences, hops⟩ := hpatched.exists_fences hplaced' hjumps hlaid'.framesOf
  have hencoding := hlaid'.encoding
  have hfound := hlaid'.ops
  rw [hops] at hencoding hfound
  exact ⟨fences, items', hlength, hfences, hencoding, hlaid'.far, hfound⟩

/-! ## Classes -/

namespace LiteralPattern

open ClassFile

theorem decode_jumped : decode (guardedFile 20 jumpedBody).encode = .ok (guardedFile 20 jumpedBody) :=
  compiles_jumped.stored.decode

theorem decode_fenced : decode (guardedFile 20 fencedBody).encode = .ok (guardedFile 20 fencedBody) :=
  compiles_fenced.stored.decode

end LiteralPattern

end ClassWeave
