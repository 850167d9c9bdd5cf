import ClassWeave.Analysis
import ClassWeave.Proofs.Layout.Decoded

/-!
# Instructions with other targets

On the way into a class file and out of it, targets go from labels to positions, from positions to other
positions, and from positions to offsets. `CodeOp.Retargeted` relates instructions that differ in their targets
only.
-/

namespace ClassWeave

variable {τ τ' τ'' : Type} {R S : τ → τ' → Prop} {T : τ' → τ'' → Prop}

/-! ## Branches -/

/-- Two branches are the same but for their targets, which are related. -/
inductive Branch.Retargeted (R : τ → τ' → Prop) : Branch τ → Branch τ' → Prop
  | conditional {condition : Condition} {target : τ} {target' : τ'} : R target target' →
    Retargeted R (.conditional condition target) (.conditional condition target')
  | jump {kind : JumpKind} {target : τ} {target' : τ'} : R target target' →
    Retargeted R (.jump kind target) (.jump kind target')
  | ret {slot : UInt16} : Retargeted R (.ret slot) (.ret slot)
  | tableSwitch {otherwise : τ} {otherwise' : τ'} {low : Int32} {targets : List τ} {targets' : List τ'} :
    R otherwise otherwise' → List.Forall₂ R targets targets' →
      Retargeted R (.tableSwitch otherwise low targets) (.tableSwitch otherwise' low targets')
  | lookupSwitch {otherwise : τ} {otherwise' : τ'} {cases : List (Int32 × τ)} {cases' : List (Int32 × τ')} :
    R otherwise otherwise' → List.Forall₂ (fun c c' => c.1 = c'.1 ∧ R c.2 c'.2) cases cases' →
      Retargeted R (.lookupSwitch otherwise cases) (.lookupSwitch otherwise' cases')
  | returnValue {kind : SlotKind} : Retargeted R (.returnValue kind) (.returnValue kind)
  | returnVoid : Retargeted R .returnVoid .returnVoid
  | athrow : Retargeted R .athrow .athrow

namespace Branch

variable {b : Branch τ} {b' : Branch τ'}

theorem Retargeted.imp (hRS : ∀ t t', R t t' → S t t') (h : Retargeted R b b') : Retargeted S b b' := by
  cases h with
  | conditional ht => exact .conditional (hRS _ _ ht)
  | jump ht => exact .jump (hRS _ _ ht)
  | ret => exact .ret
  | tableSwitch ht hts => exact .tableSwitch (hRS _ _ ht) (hts.imp hRS)
  | lookupSwitch ht hcs => exact .lookupSwitch (hRS _ _ ht) (hcs.imp fun _ _ hc => ⟨hc.1, hRS _ _ hc.2⟩)
  | returnValue => exact .returnValue
  | returnVoid => exact .returnVoid
  | athrow => exact .athrow

/-- Related the other way round. -/
theorem Retargeted.flip (h : Retargeted R b b') : Retargeted (Function.swap R) b' b := by
  cases h with
  | conditional ht => exact .conditional ht
  | jump ht => exact .jump ht
  | ret => exact .ret
  | tableSwitch ht hts => exact .tableSwitch ht hts.flip
  | lookupSwitch ht hcs => exact .lookupSwitch ht (hcs.flip.imp fun _ _ hc => ⟨hc.1.symm, hc.2⟩)
  | returnValue => exact .returnValue
  | returnVoid => exact .returnVoid
  | athrow => exact .athrow

theorem Retargeted.comp {b'' : Branch τ''} (h : Retargeted R b b') (h' : Retargeted T b' b'') :
    Retargeted (fun t t'' => ∃ t', R t t' ∧ T t' t'') b b'' := by
  cases h with
  | conditional ht => cases h' with | conditional ht' => exact .conditional ⟨_, ht, ht'⟩
  | jump ht => cases h' with | jump ht' => exact .jump ⟨_, ht, ht'⟩
  | ret => cases h'; exact .ret
  | tableSwitch ht hts =>
    cases h' with
    | tableSwitch ht' hts' => exact .tableSwitch ⟨_, ht, ht'⟩ (Lists.forall₂_comp hts hts')
  | lookupSwitch ht hcs =>
    cases h' with
    | lookupSwitch ht' hcs' =>
      exact .lookupSwitch ⟨_, ht, ht'⟩ ((Lists.forall₂_comp hcs hcs').imp fun _ _ ⟨_, hc, hc'⟩ =>
        ⟨hc.1.trans hc'.1, _, hc.2, hc'.2⟩)
  | returnValue => cases h'; exact .returnValue
  | returnVoid => cases h'; exact .returnVoid
  | athrow => cases h'; exact .athrow

theorem Retargeted.targets (h : Retargeted R b b') : List.Forall₂ R b.targets b'.targets := by
  cases h with
  | conditional ht => exact .cons ht .nil
  | jump ht => exact .cons ht .nil
  | tableSwitch ht hts => exact .cons ht hts
  | lookupSwitch ht hcs =>
    refine .cons ht (List.forall₂_map_left_iff.mpr (List.forall₂_map_right_iff.mpr ?_))
    exact hcs.imp fun _ _ hc => hc.2
  | _ => exact .nil

theorem Retargeted.fallsThrough (h : Retargeted R b b') : b'.fallsThrough = b.fallsThrough := by
  cases h with
  | jump ht =>
    rename_i kind _ _
    cases kind <;> rfl
  | _ => rfl

theorem Retargeted.isWritable (h : Retargeted R b b') : b'.IsWritable ↔ b.IsWritable := by
  cases h with
  | @tableSwitch otherwise otherwise' low targets targets' ht hts =>
    change targets' ≠ [] ∧ low.toInt + targets'.length ≤ 2 ^ 31 ↔ targets ≠ [] ∧
      low.toInt + targets.length ≤ 2 ^ 31
    rw [Ne, Ne, ← List.length_eq_zero_iff, ← List.length_eq_zero_iff, hts.length_eq]
  | @lookupSwitch otherwise otherwise' cases cases' ht hcs =>
    change cases'.length < 2 ^ 31 ↔ cases.length < 2 ^ 31
    rw [hcs.length_eq]
  | _ => exact Iff.rfl

/-- Only what becomes of the targets counts. -/
theorem retargeted_of_targets {f : τ → τ'} (h : ∀ t ∈ b.targets, R t (f t)) :
    Retargeted R b (b.mapTargets f) := by
  cases b with
  | conditional condition target => exact .conditional (h _ List.mem_cons_self)
  | jump kind target => exact .jump (h _ List.mem_cons_self)
  | ret slot => exact .ret
  | tableSwitch otherwise low targets =>
    refine .tableSwitch (h _ List.mem_cons_self)
      (List.forall₂_map_right_iff.mpr (List.forall₂_same.mpr fun t ht => ?_))
    exact h t (List.mem_cons_of_mem _ ht)
  | lookupSwitch otherwise cases =>
    refine .lookupSwitch (h _ List.mem_cons_self)
      (List.forall₂_map_right_iff.mpr (List.forall₂_same.mpr fun c hc => ⟨rfl, ?_⟩))
    exact h c.2 (List.mem_cons_of_mem _ (List.mem_map_of_mem hc))
  | returnValue kind => exact .returnValue
  | returnVoid => exact .returnVoid
  | athrow => exact .athrow

theorem retargeted_mapTargets (f : τ → τ') (b : Branch τ) : Retargeted (fun t t' => t' = f t) b
    (b.mapTargets f) :=
  retargeted_of_targets fun _ _ => rfl

theorem fallsThrough_mapTargets (f : τ → τ') (b : Branch τ) : (b.mapTargets f).fallsThrough = b.fallsThrough :=
  (b.retargeted_mapTargets f).fallsThrough

theorem pops_mapTargets (f : τ → τ') (b : Branch τ) : (b.mapTargets f).pops = b.pops := by
  cases b <;> rfl

theorem isSubroutine_mapTargets (f : τ → τ') (b : Branch τ) :
    (b.mapTargets f).isSubroutine = b.isSubroutine := by
  cases b with
  | jump kind target => cases kind <;> rfl
  | _ => rfl

theorem mapTargets_id (b : Branch τ) : b.mapTargets id = b := by
  cases b with
  | tableSwitch otherwise low targets => exact congrArg (Branch.tableSwitch otherwise low) (List.map_id targets)
  | lookupSwitch otherwise entries => exact congrArg (Branch.lookupSwitch otherwise) (List.map_id entries)
  | _ => rfl

theorem Retargeted.eq_mapTargets {f : τ → τ'} (h : Retargeted (fun t t' => t' = f t) b b') :
    b' = b.mapTargets f := by
  have hmap : ∀ {ts : List τ} {ts' : List τ'}, List.Forall₂ (fun t t' => t' = f t) ts ts' → ts' = ts.map f := by
    intro ts ts' hts
    induction hts with
    | nil => rfl
    | cons ht _ ih => rw [List.map_cons, ht, ih]
  cases h with
  | conditional ht => exact congrArg _ ht
  | jump ht => exact congrArg _ ht
  | tableSwitch ht hts => exact congr (congrArg (Branch.tableSwitch · _) ht) (hmap hts)
  | @lookupSwitch otherwise otherwise' entries entries' ht hcs =>
    have hentries : entries' = entries.map fun c => (c.1, f c.2) := by
      induction hcs with
      | nil => rfl
      | @cons c c' _ _ hc _ ih => rw [List.map_cons, ← ih, hc.1, ← hc.2]
    exact congr (congrArg Branch.lookupSwitch ht) hentries
  | _ => rfl

/-- Targets are converted one by one. -/
theorem retargeted_convertTargets {ε : Type} {f : τ → Except ε τ'} (h : b.convertTargets f = .ok b') :
    Retargeted (fun t t' => f t = .ok t') b b' := by
  cases b with
  | conditional condition target =>
    obtain ⟨target', ht, h⟩ := Outcome.except_bind.mp h
    cases h
    exact .conditional ht
  | jump kind target =>
    obtain ⟨target', ht, h⟩ := Outcome.except_bind.mp h
    cases h
    exact .jump ht
  | ret slot =>
    cases h
    exact .ret
  | tableSwitch otherwise low targets =>
    obtain ⟨otherwise', ho, h⟩ := Outcome.except_bind.mp h
    obtain ⟨targets', hts, h⟩ := Outcome.except_bind.mp h
    cases h
    exact .tableSwitch ho (Outcome.except_mapM.mp hts)
  | lookupSwitch otherwise cases =>
    obtain ⟨otherwise', ho, h⟩ := Outcome.except_bind.mp h
    obtain ⟨cases', hcs, h⟩ := Outcome.except_bind.mp h
    cases h
    refine .lookupSwitch ho ((Outcome.except_mapM.mp hcs).imp fun c c' hc => ?_)
    obtain ⟨target', ht, hc⟩ := Outcome.except_bind.mp hc
    cases hc
    exact ⟨rfl, ht⟩
  | returnValue kind =>
    cases h
    exact .returnValue
  | returnVoid =>
    cases h
    exact .returnVoid
  | athrow =>
    cases h
    exact .athrow

theorem Retargeted.convertTargets {ε : Type} {f : τ → Except ε τ'}
    (h : Retargeted (fun t t' => f t = .ok t') b b') : b.convertTargets f = .ok b' := by
  cases h with
  | conditional ht => exact Outcome.except_bind.mpr ⟨_, ht, rfl⟩
  | jump ht => exact Outcome.except_bind.mpr ⟨_, ht, rfl⟩
  | tableSwitch ht hts =>
    exact Outcome.except_bind.mpr ⟨_, ht, Outcome.except_bind.mpr ⟨_, Outcome.except_mapM.mpr hts, rfl⟩⟩
  | lookupSwitch ht hcs =>
    refine Outcome.except_bind.mpr ⟨_, ht,
      Outcome.except_bind.mpr ⟨_, Outcome.except_mapM.mpr (hcs.imp ?_), rfl⟩⟩
    rintro ⟨key, t⟩ ⟨key', t'⟩ ⟨rfl, hc⟩
    exact Outcome.except_bind.mpr ⟨_, hc, rfl⟩
  | _ => rfl

end Branch

/-! ## Instructions -/

/-- Two instructions are the same but for their targets, which are related. -/
inductive CodeOp.Retargeted (R : τ → τ' → Prop) : CodeOp τ → CodeOp τ' → Prop
  | plain {instruction : Instruction} : Retargeted R (.plain instruction) (.plain instruction)
  | branch {b : Branch τ} {b' : Branch τ'} : b.Retargeted R b' → Retargeted R (.branch b) (.branch b')

namespace CodeOp

variable {op : CodeOp τ} {op' : CodeOp τ'}

theorem Retargeted.imp (hRS : ∀ t t', R t t' → S t t') (h : Retargeted R op op') : Retargeted S op op' := by
  cases h with
  | plain => exact .plain
  | branch hb => exact .branch (hb.imp hRS)

theorem Retargeted.flip (h : Retargeted R op op') : Retargeted (Function.swap R) op' op := by
  cases h with
  | plain => exact .plain
  | branch hb => exact .branch hb.flip

theorem Retargeted.comp {op'' : CodeOp τ''} (h : Retargeted R op op') (h' : Retargeted T op' op'') :
    Retargeted (fun t t'' => ∃ t', R t t' ∧ T t' t'') op op'' := by
  cases h with
  | plain => cases h'; exact .plain
  | branch hb => cases h' with | branch hb' => exact .branch (hb.comp hb')

theorem Retargeted.targets (h : Retargeted R op op') : List.Forall₂ R op.targets op'.targets := by
  cases h with
  | plain => exact .nil
  | branch hb => exact hb.targets

theorem Retargeted.isWritable (h : Retargeted R op op') : op'.IsWritable ↔ op.IsWritable := by
  cases h with
  | plain => exact Iff.rfl
  | branch hb => exact hb.isWritable

theorem Retargeted.depth (h : Retargeted R op op') : op'.depth = op.depth := by
  cases h with
  | plain => rfl
  | branch hb => rfl

theorem retargeted_of_targets {f : τ → τ'} (h : ∀ t ∈ op.targets, R t (f t)) :
    Retargeted R op (op.mapTargets f) := by
  cases op with
  | plain instruction => exact .plain
  | branch b => exact .branch (Branch.retargeted_of_targets h)

theorem retargeted_mapTargets (f : τ → τ') (op : CodeOp τ) : Retargeted (fun t t' => t' = f t) op
    (op.mapTargets f) := by
  cases op with
  | plain instruction => exact .plain
  | branch b => exact .branch (b.retargeted_mapTargets f)

theorem fallsThrough_mapTargets (f : τ → τ') (op : CodeOp τ) :
    (op.mapTargets f).fallsThrough = op.fallsThrough := by
  cases op with
  | plain instruction => rfl
  | branch b => exact b.fallsThrough_mapTargets f

theorem mapTargets_id (op : CodeOp τ) : op.mapTargets id = op := by
  cases op with
  | plain instruction => rfl
  | branch b => exact congrArg CodeOp.branch b.mapTargets_id

theorem targets_mapTargets (f : τ → τ') (op : CodeOp τ) : (op.mapTargets f).targets = op.targets.map f := by
  cases op with
  | plain instruction => rfl
  | branch b => exact b.targets_mapTargets f

theorem Retargeted.eq_mapTargets {f : τ → τ'} (h : Retargeted (fun t t' => t' = f t) op op') :
    op' = op.mapTargets f := by
  cases h with
  | plain => rfl
  | branch hb => exact congrArg CodeOp.branch hb.eq_mapTargets

theorem mapTargets_eq_plain {f : τ → τ'} {instruction : Instruction} (h : op.mapTargets f = .plain instruction) :
    op = .plain instruction := by
  cases op with
  | plain other =>
    cases h
    rfl
  | branch b => cases h

theorem mapTargets_eq_conditional {f : τ → τ'} {condition : Condition} {target : τ'}
    (h : op.mapTargets f = .branch (.conditional condition target)) :
    ∃ t, op = .branch (.conditional condition t) ∧ target = f t := by
  cases op with
  | plain other => cases h
  | branch b =>
    cases b with
    | conditional condition' t =>
      cases h
      exact ⟨t, rfl, rfl⟩
    | _ => cases h

/-- Only what becomes of the targets makes a difference. -/
theorem mapTargets_congr {f g : τ → τ'} (h : ∀ t ∈ op.targets, f t = g t) : op.mapTargets f = op.mapTargets g :=
  Retargeted.eq_mapTargets (retargeted_of_targets (R := fun t t' => t' = g t) h)

theorem mapTargets_mapTargets (f : τ → τ') (g : τ' → τ'') (op : CodeOp τ) :
    (op.mapTargets f).mapTargets g = op.mapTargets (g ∘ f) := by
  have hcomp := (op.retargeted_mapTargets f).comp ((op.mapTargets f).retargeted_mapTargets g)
  refine Retargeted.eq_mapTargets (hcomp.imp ?_)
  rintro t _ ⟨_, rfl, rfl⟩
  rfl

/-- Where a target is related to one other at most, an instruction is as well. -/
theorem Retargeted.unique {op'' : CodeOp τ'} (hR : ∀ t t' t'', R t t' → R t t'' → t'' = t')
    (h : Retargeted R op op') (h' : Retargeted R op op'') : op'' = op' := by
  have hsame : Retargeted (fun t' t'' => t'' = id t') op' op'' :=
    (h.flip.comp h').imp fun _ _ ⟨_, ht', ht''⟩ => hR _ _ _ ht' ht''
  rw [hsame.eq_mapTargets, mapTargets_id]

theorem Retargeted.convertTargets {ε : Type} {f : τ → Except ε τ'}
    (h : Retargeted (fun t t' => f t = .ok t') op op') : op.convertTargets f = .ok op' := by
  cases h with
  | plain => rfl
  | branch hb => exact Outcome.except_bind.mpr ⟨_, hb.convertTargets, rfl⟩

theorem retargeted_convertTargets {ε : Type} {f : τ → Except ε τ'} (h : op.convertTargets f = .ok op') :
    Retargeted (fun t t' => f t = .ok t') op op' := by
  cases op with
  | plain instruction =>
    cases h
    exact .plain
  | branch b =>
    obtain ⟨b', hb, h⟩ := Outcome.except_bind.mp h
    cases h
    exact .branch (Branch.retargeted_convertTargets hb)

end CodeOp

end ClassWeave
