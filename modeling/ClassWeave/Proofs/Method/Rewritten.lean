import ClassWeave.Proofs.Layout.Respelled
import ClassWeave.Proofs.Method.Tables
import ClassWeave.Proofs.Method.Whole

/-!
# Bodies that are written and read again

What is read from an assembled body is what was assembled (`MethodCode.ReadFrom`): instructions and handlers
have moved only as far as widened branches take more room, and the debug tables have the entries that they were
written with. If the body is whole, then a program has become the program that it is in the respelled code
(`Program.RewrittenAs`).
-/

namespace ClassWeave

open Layout (ofItems place)
open Outcome (except_bind except_mapM)

/-! ## Tables -/

namespace StoredTable

/-- The entries of a table of source lines. -/
def lineEntries : StoredTable → List LineEntry
  | .lines entries => entries
  | _ => []

/-- The entries of a table of local variables. -/
def variableEntries : StoredTable → List VariableEntry
  | .locals entries => entries
  | _ => []

/-- The entries of a table of signatures. -/
def signatureEntries : StoredTable → List VariableEntry
  | .signatures entries => entries
  | _ => []

/-- What is read as a table has the entries that were written for it. -/
structure ReadAs (stored : StoredTable) (table : BodyTable) : Prop where
  lines : table.lineEntries = stored.lineEntries
  locals : table.variableEntries = stored.variableEntries
  signatures : table.signatureEntries = stored.signatureEntries

/-- The attribute that holds a table is read as the table. -/
theorem Stands.readAs {pool : Pool} {entry : Attribute UInt16} {stored : StoredTable} {table : BodyTable}
    (hstands : stored.Stands pool entry) (hholds : table.Holds pool entry) : stored.ReadAs table := by
  have hsame : ∀ {name}, pool.text entry.name = .ok name → stored.name = name :=
    fun hname => Except.ok.inj (hstands.name.symm.trans hname)
  have hinfo := hstands.info
  -- names tell the kinds of tables apart, so each table is read as what it was stored as
  cases hholds with
  | frames hname =>
    cases stored with
    | frames entries => exact ⟨rfl, rfl, rfl⟩
    | lines entries | locals entries | signatures entries =>
      exact absurd (hsame hname) (by simp only [StoredTable.name]; decide)
  | lines hname hdecode =>
    cases stored with
    | lines entries =>
      rw [hinfo] at hdecode
      exact ⟨LineEntry.eq_of_decodeTable hdecode, rfl, rfl⟩
    | frames entries | locals entries | signatures entries =>
      exact absurd (hsame hname) (by simp only [StoredTable.name]; decide)
  | locals hname hdecode =>
    cases stored with
    | locals entries =>
      rw [hinfo] at hdecode
      exact ⟨rfl, VariableEntry.eq_of_decodeTable hdecode, rfl⟩
    | frames entries | lines entries | signatures entries =>
      exact absurd (hsame hname) (by simp only [StoredTable.name]; decide)
  | signatures hname hdecode =>
    cases stored with
    | signatures entries =>
      rw [hinfo] at hdecode
      exact ⟨rfl, rfl, VariableEntry.eq_of_decodeTable hdecode⟩
    | frames entries | lines entries | locals entries =>
      exact absurd (hsame hname) (by simp only [StoredTable.name]; decide)
  | other hname hframes hlines hlocals hsignatures =>
    cases stored with
    | frames entries => exact absurd (hsame hname).symm hframes
    | lines entries => exact absurd (hsame hname).symm hlines
    | locals entries => exact absurd (hsame hname).symm hlocals
    | signatures entries => exact absurd (hsame hname).symm hsignatures

/-- Entries of tables that are not written are missed by nothing. -/
theorem flatMap_filter_hasEntries {β : Type} {f : StoredTable → List β}
    (h : ∀ table, table.count = 0 → f table = []) : ∀ tables :
    List StoredTable, (tables.filter hasEntries).flatMap f = tables.flatMap f
  | [] => rfl
  | table :: rest => by
    rw [List.filter_cons, List.flatMap_cons, ← flatMap_filter_hasEntries h rest]
    split_ifs with hentries
    · exact List.flatMap_cons
    · rw [hasEntries_iff, not_not] at hentries
      rw [h table hentries, List.nil_append]

end StoredTable

namespace BodyEntries

variable {entries : BodyEntries} {tables : List BodyTable}

/-- The entries of all tables that are written, each of which has entries of one kind. -/
theorem flatMap_tables {β : Type} {f : StoredTable → List β} (h : ∀ table, table.count = 0 → f table = []) :
    entries.tables.flatMap f = f (.frames entries.frames) ++ (f (.lines entries.lines) ++
      (f (.locals entries.locals) ++ f (.signatures entries.signatures))) := by
  unfold tables
  rw [StoredTable.flatMap_filter_hasEntries h]
  simp only [List.flatMap_cons, List.flatMap_nil, List.append_nil]

/-- What is read as the tables has the entries that are written. -/
theorem entries_read {written : List StoredTable} (h : List.Forall₂ StoredTable.ReadAs written tables) :
    tables.flatMap BodyTable.lineEntries = written.flatMap StoredTable.lineEntries ∧
      tables.flatMap BodyTable.variableEntries = written.flatMap StoredTable.variableEntries ∧
        tables.flatMap BodyTable.signatureEntries = written.flatMap StoredTable.signatureEntries := by
  induction h with
  | nil => exact ⟨rfl, rfl, rfl⟩
  | cons hfirst _ ih =>
    obtain ⟨hlines, hlocals, hsignatures⟩ := ih
    simp only [List.flatMap_cons, hfirst.lines, hfirst.locals, hfirst.signatures, hlines, hlocals,
      hsignatures, and_self]

theorem flatMap_lineEntries : entries.tables.flatMap StoredTable.lineEntries = entries.lines := by
  rw [flatMap_tables fun stored hcount => ?_]
  · simp only [StoredTable.lineEntries, List.nil_append, List.append_nil]
  · cases stored with
    | lines entries => exact List.length_eq_zero_iff.mp hcount
    | frames entries | locals entries | signatures entries => rfl

theorem flatMap_variableEntries : entries.tables.flatMap StoredTable.variableEntries = entries.locals := by
  rw [flatMap_tables fun stored hcount => ?_]
  · simp only [StoredTable.variableEntries, List.nil_append, List.append_nil]
  · cases stored with
    | locals entries => exact List.length_eq_zero_iff.mp hcount
    | frames entries | lines entries | signatures entries => rfl

theorem flatMap_signatureEntries : entries.tables.flatMap StoredTable.signatureEntries =
    entries.signatures := by
  rw [flatMap_tables fun stored hcount => ?_]
  · simp only [StoredTable.signatureEntries, List.nil_append]
  · cases stored with
    | signatures entries => exact List.length_eq_zero_iff.mp hcount
    | frames entries | lines entries | locals entries => rfl

end BodyEntries

/-! ## Variables -/

/-- The variable with its range moved. -/
def PlacedVariable.move (f : Nat → Nat) (v : PlacedVariable) : PlacedVariable :=
  { v with start := f v.start, stop := f v.stop }

/-- Variables that are in one place when positions have moved have the same signature. -/
def Program.SharesSignatures (move : Nat → Nat) (program : Program) : Prop :=
  ∀ v ∈ program.locals, ∀ w ∈ program.locals, move v.start = move w.start → move v.stop = move w.stop →
    v.slot = w.slot → v.signature = w.signature

/-- Where a variable is stored: its range in offsets, and its slot. -/
structure VariableEntry.StoredAt (layout : Layout) (placed : PlacedVariable) (entry : VariableEntry) :
    Prop where
  start : entry.start.toNat = layout.offset placed.start
  stop : entry.start.toNat + entry.length.toNat = layout.offset placed.stop
  slot : entry.slot = placed.slot

/-- The entries of one variable are for one place. -/
theorem VariableEntry.StoredAt.place_eq {layout : Layout} {placed : PlacedVariable}
    {entry entry' : VariableEntry} (h : entry.StoredAt layout placed) (h' : entry'.StoredAt layout placed) :
    entry.place = entry'.place := by
  have hstart : entry.start = entry'.start := UInt16.toNat_inj.mp (h.start.trans h'.start.symm)
  have hlength : entry.length = entry'.length := by
    refine UInt16.toNat_inj.mp (Nat.add_left_cancel (n := entry.start.toNat) ?_)
    rw [h.stop, hstart, h'.stop]
  unfold VariableEntry.place
  rw [hstart, hlength, h.slot, h'.slot]

/-! ## Code and handlers -/

namespace MethodCode

variable {code : MethodCode} {context : MethodContext} {pool : Pool} {attr : CodeAttribute} {body : MethodBody}
  {items : List LayoutItem} {entries : BodyEntries} {decoded : List (Nat × CodeOp Nat)}
  {tables : List BodyTable} {found : Program}

/-- A program that is read from an assembled body. -/
structure ReadFrom (code : MethodCode) (context : MethodContext) (pool : Pool) (attr : CodeAttribute)
    (body : MethodBody) (items : List LayoutItem) (entries : BodyEntries) (decoded : List (Nat × CodeOp Nat))
    (tables : List BodyTable) (found : Program) :
    Prop extends Layout.ReadCode pool attr.code body.ops items decoded where
  stored : code.Stored context pool attr body items entries
  attributes : List.Forall₂ (BodyTable.Holds pool) attr.attributes tables
  read : found.ReadAs pool attr decoded tables

namespace ReadFrom

variable (h : ReadFrom code context pool attr body items entries decoded tables found)

include h

/-- A handler is read at its places. -/
theorem handler_eq {handler moved : Handler Nat BinaryName} {stored : Handler UInt16 UInt16}
    (hinside : handler.Inside body.ops.length) (hstores : Handler.Stores pool (ofItems items) handler stored)
    (hread : Handler.ReadAs pool (Code.starts attr.code decoded) stored moved) :
    moved = handler.move (place (ofItems items).widened) := by
  have hstart := hread.start
  have hstop := hread.stop
  have htarget := hread.target
  rw [hstores.start, h.toNat_offset16 hinside.start] at hstart
  rw [hstores.stop, h.toNat_offset16 hinside.stop] at hstop
  rw [hstores.target, h.toNat_offset16 hinside.target] at htarget
  -- the name of the class that is caught is read as it was stored
  have hcatches : moved.catches = handler.catches := by
    have hnames := hstores.catches
    have hnames' := hread.catches
    generalize stored.catches = stored at hnames hnames'
    generalize handler.catches = catches at hnames ⊢
    generalize moved.catches = catches' at hnames' ⊢
    cases hnames with
    | none => cases hnames'; rfl
    | some hname =>
      cases hnames' with
      | some hname' => rw [Except.ok.inj (hname.symm.trans hname')]
  cases moved
  obtain rfl := h.eq_place hinside.start hstart
  obtain rfl := h.eq_place hinside.stop hstop
  obtain rfl := h.eq_place hinside.target htarget
  obtain rfl := hcatches
  rfl

/-- Handlers are read at their places. -/
theorem handlers_eq (hinside : ∀ handler ∈ body.handlers, handler.Inside body.ops.length) :
    found.handlers = body.handlers.map (Handler.move (place (ofItems items).widened)) := by
  refine Lists.eq_map_of_forall₂ (fun handler hmem stored moved hstores hread => ?_) h.stored.handlers
    h.read.handlers
  exact h.handler_eq (hinside handler hmem) hstores hread

/-! ## Debug tables -/

/-- The tables that are read are those that were written. -/
theorem tables_read : List.Forall₂ StoredTable.ReadAs entries.tables tables :=
  (Lists.forall₂_comp h.stored.attributes.flip h.attributes).imp fun _ _ ⟨_, hstands, hholds⟩ =>
    hstands.readAs hholds

theorem lineEntries_eq : tables.flatMap BodyTable.lineEntries = entries.lines :=
  (BodyEntries.entries_read h.tables_read).1.trans BodyEntries.flatMap_lineEntries

theorem variableEntries_eq : tables.flatMap BodyTable.variableEntries = entries.locals :=
  (BodyEntries.entries_read h.tables_read).2.1.trans BodyEntries.flatMap_variableEntries

theorem signatureEntries_eq : tables.flatMap BodyTable.signatureEntries = entries.signatures :=
  (BodyEntries.entries_read h.tables_read).2.2.trans BodyEntries.flatMap_signatureEntries

end ReadFrom

/-- Labels have the offsets of what their positions have become. -/
theorem labelOffset_of_places {count : Nat} {move : Nat → Nat} {layout : Layout}
    (hplaces : body.Places count move) {label : Label} {i : Nat} {offset : UInt16}
    (hposition : code.position label = .ok i) (hi : i ≤ count)
    (h : code.labelOffset body layout label = .ok offset) : offset = layout.offset16 (move i) := by
  obtain ⟨j, hj, h⟩ := except_bind.mp h
  cases hposition.symm.trans hj
  rw [hplaces.position_eq hi] at h
  exact (Except.ok.inj h).symm

/-- A program that is read from the body that was assembled of another one, whose positions have moved. -/
structure ReadPlaced (code : MethodCode) (context : MethodContext) (pool : Pool) (attr : CodeAttribute)
    (body : MethodBody) (items : List LayoutItem) (entries : BodyEntries) (decoded : List (Nat × CodeOp Nat))
    (tables : List BodyTable) (found source : Program) (move : Nat → Nat) :
    Prop extends ReadFrom code context pool attr body items entries decoded tables found where
  program : code.program = .ok source
  placed : source.WellFormed
  places : body.Places source.ops.length move

namespace ReadPlaced

variable {source : Program} {move : Nat → Nat}
  (h : ReadPlaced code context pool attr body items entries decoded tables found source move)

include h

/-- The range of a variable lies in the code. -/
theorem range_inside {placed : PlacedVariable} (hmem : placed ∈ source.locals) :
    placed.start ≤ source.ops.length ∧ placed.stop ≤ source.ops.length ∧
      move placed.start ≤ move placed.stop ∧ move placed.stop ≤ body.ops.length := by
  obtain ⟨hle, hstop⟩ := h.placed.ranges placed hmem
  exact ⟨Nat.le_trans hle hstop, hstop, h.places.mono hle hstop, h.places.le hstop⟩

/-- Lines are read where they were placed. -/
theorem lines_eq : found.lines = source.lines.map fun line =>
    (line.1, place (ofItems items).widened (move line.2)) := by
  obtain ⟨-, hlines, -⟩ := program_parts h.program
  have hentries := Lists.forall₂_comp hlines.flip h.stored.tabulates.lines
  rw [h.read.lines, h.lineEntries_eq]
  refine LineEntry.placed_eq h.decoded_ok.increasing ?_ (List.forall₂_map_left_iff.mpr ?_)
  · rw [List.map_map]
    have hsorted := List.pairwise_map.mp h.placed.sorted
    refine List.pairwise_map.mpr (hsorted.imp_of_mem fun {x y} _ hy hle => ?_)
    exact Layout.place_le (h.places.mono hle (Nat.le_of_lt (h.placed.lines y hy)))
  · refine ((List.forall₂_and_left _ _).mpr ⟨h.placed.lines, hentries⟩).imp ?_
    rintro placed entry ⟨hlt, line, ⟨hposition, hline⟩, hoffset, hentry⟩
    have hk := h.places.lt hlt
    rw [labelOffset_of_places h.places hposition (Nat.le_of_lt hlt) hoffset,
      h.toNat_offset16 (Nat.le_of_lt hk)]
    exact ⟨hentry.trans hline.symm, h.begins hk⟩

/-- The entry of a variable has the range and the slot of the variable. -/
theorem storedAt {v : LocalVariable} {placed : PlacedVariable} {entry : VariableEntry}
    (hmem : placed ∈ source.locals) (hv : code.PlacedAs v placed)
    (hstart : code.labelOffset body (ofItems items) v.start = .ok entry.start)
    (hlength : ∃ stop, code.labelOffset body (ofItems items) v.stop = .ok stop ∧
      entry.length = if stop < entry.start then 0 else stop - entry.start) (hslot : entry.slot = v.slot) :
    entry.StoredAt (ofItems items) (placed.move move) := by
  obtain ⟨hstart_in, hstop_in, hle, hstop⟩ := h.range_inside hmem
  obtain ⟨stop, hstop', hlength⟩ := hlength
  have hstart_eq := labelOffset_of_places h.places hv.start hstart_in hstart
  have hstop_eq := labelOffset_of_places h.places hv.stop hstop_in hstop'
  have hstart16 := h.toNat_offset16 (Nat.le_trans hle hstop)
  have hstop16 := h.toNat_offset16 hstop
  rw [← hstart_eq] at hstart16
  rw [← hstop_eq] at hstop16
  -- ranges go forward, so the length is not cut
  have hforward := h.offset_le hle hstop
  have hnot : ¬ stop < entry.start := by
    rw [UInt16.lt_iff_toNat_lt]
    omega
  rw [if_neg hnot] at hlength
  refine ⟨hstart16, ?_, hslot.trans hv.slot.symm⟩
  rw [hlength, UInt16.toNat_sub_of_le _ _ (by rw [UInt16.le_iff_toNat_le]; omega)]
  change _ = (ofItems items).offset (move placed.stop)
  omega

/-- The entries of the variables, each with what is stored of it. -/
theorem locals_stored : List.Forall₂ (fun placed entry =>
      VariableEntry.StoredAt (ofItems items) (placed.move move) entry ∧
        pool.text entry.name = .ok placed.name ∧ pool.text entry.type = .ok placed.descriptor)
    source.locals entries.locals := by
  obtain ⟨-, -, hlocals⟩ := program_parts h.program
  have hentries := Lists.forall₂_comp hlocals.flip h.stored.tabulates.locals
  refine ((List.forall₂_and_left _ _).mpr ⟨fun _ hmem => hmem, hentries⟩).imp ?_
  rintro placed entry ⟨hmem, v, hv, hstores⟩
  refine ⟨h.storedAt hmem hv hstores.start hstores.length hstores.slot, ?_, ?_⟩
  · rw [hv.name, hstores.name]
  · rw [hv.descriptor, hstores.type]

/-- The entries of the signatures, each of a variable that has it. -/
theorem signatures_stored : List.Forall₂ (fun placed entry =>
      VariableEntry.StoredAt (ofItems items) (placed.move move) entry ∧
        ∃ signature, placed.signature = some signature ∧ pool.text entry.type = .ok signature)
    (source.locals.filter fun placed => placed.signature.isSome) entries.signatures := by
  obtain ⟨-, -, hlocals⟩ := program_parts h.program
  have hfilter : List.Forall₂ code.PlacedAs (code.localVariables.toList.filter fun v => v.signature.isSome)
      (source.locals.filter fun placed => placed.signature.isSome) :=
    List.rel_filter (fun v placed hv => by dsimp only; rw [hv.signature]) hlocals
  have hentries := Lists.forall₂_comp hfilter.flip h.stored.tabulates.signatures
  refine ((List.forall₂_and_left _ _).mpr ⟨fun _ hmem => List.mem_of_mem_filter hmem, hentries⟩).imp ?_
  rintro placed entry ⟨hmem, v, hv, hstores⟩
  refine ⟨h.storedAt hmem hv hstores.start hstores.length hstores.slot, ?_⟩
  obtain ⟨signature, hsignature, htext⟩ := hstores.type
  exact ⟨signature, hv.signature.trans hsignature, htext⟩

/-- Variables that are stored at one place have one range and one slot. -/
theorem eq_of_place {v w : PlacedVariable} {entry entry' : VariableEntry} (hv : v ∈ source.locals)
    (hw : w ∈ source.locals) (hentry : entry.StoredAt (ofItems items) (v.move move))
    (hentry' : entry'.StoredAt (ofItems items) (w.move move)) (hplace : entry.place = entry'.place) :
    move v.start = move w.start ∧ move v.stop = move w.stop ∧ v.slot = w.slot := by
  obtain ⟨hstart, hlength, hslot⟩ := VariablePlace.mk.inj hplace
  obtain ⟨-, -, hle, hstop_le⟩ := h.range_inside hv
  obtain ⟨-, -, hle', hstop_le'⟩ := h.range_inside hw
  refine ⟨h.offset_inj (Nat.le_trans hle hstop_le) (Nat.le_trans hle' hstop_le') ?_,
    h.offset_inj hstop_le hstop_le' ?_, ?_⟩
  · exact hentry.start.symm.trans ((congrArg _ hstart).trans hentry'.start)
  · have hstop : entry.start.toNat + entry.length.toNat = entry'.start.toNat + entry'.length.toNat := by
      rw [hstart, hlength]
    exact hentry.stop.symm.trans (hstop.trans hentry'.stop)
  · exact hentry.slot.symm.trans (hslot.trans hentry'.slot)

/-- The signature that is read for the place of a variable is the one that the variable has, if a place has one
signature. -/
theorem signature_eq (hsame : source.SharesSignatures move) {placed : PlacedVariable} {entry : VariableEntry}
    {found : Option String} (hmem : placed ∈ source.locals)
    (hentry : entry.StoredAt (ofItems items) (placed.move move))
    (hread : Option.Rel (fun index text => pool.text index = .ok text)
      (BodyTable.signaturesOf tables)[entry.place]? found) : found = placed.signature := by
  have hsignatures := h.signatures_stored
  rw [BodyTable.getElem?_signaturesOf, h.signatureEntries_eq] at hread
  cases hfind : entries.signatures.find? fun other => other.place == entry.place with
  | none =>
    rw [hfind] at hread
    cases hread
    cases hsignature : placed.signature with
    | none => rfl
    | some signature =>
      -- the variable has an entry of its own at the place
      have hkept : placed ∈ source.locals.filter fun placed => placed.signature.isSome :=
        List.mem_filter.mpr ⟨hmem, by rw [hsignature]; rfl⟩
      obtain ⟨other, hother, hstored, -⟩ := Lists.exists_mem_of_forall₂ hsignatures hkept
      have hnone := List.find?_eq_none.mp hfind other hother
      exact absurd (beq_iff_eq.mpr (hstored.place_eq hentry)) hnone
  | some other =>
    rw [hfind] at hread
    have hplace : other.place = entry.place := by simpa using List.find?_some hfind
    obtain ⟨other', hother', hstored, signature, hsignature, htext⟩ :=
      Lists.exists_mem_of_forall₂ hsignatures.flip (List.mem_of_find?_eq_some hfind)
    have hmem' := List.mem_of_mem_filter hother'
    obtain ⟨hstart, hstop, hslot⟩ := h.eq_of_place hmem' hmem hstored hentry hplace
    cases hread with
    | some hfound =>
      rw [← hsame _ hmem' _ hmem hstart hstop hslot, hsignature,
        Except.ok.inj (hfound.symm.trans htext)]

/-- Variables are read where they were placed, if a place has one signature. -/
theorem locals_eq (hsame : source.SharesSignatures move) :
    found.locals = source.locals.map (PlacedVariable.move fun i => place (ofItems items).widened (move i)) := by
  have hread := h.read.locals
  rw [h.variableEntries_eq] at hread
  refine Lists.eq_map_of_forall₂ (fun placed hmem entry moved hstored hmoved => ?_) (h.locals_stored) hread
  obtain ⟨hentry, hname, hdescriptor⟩ := hstored
  obtain ⟨-, -, hle, hstop_le⟩ := h.range_inside hmem
  -- the signature is that of the place, which all variables there share
  have hsignature := h.signature_eq hsame hmem hentry hmoved.signature
  have hstart' := hmoved.start
  have hstop' := hmoved.stop
  rw [hentry.start] at hstart'
  rw [hentry.stop] at hstop'
  have hname' := Except.ok.inj (hmoved.name.symm.trans hname)
  have hdescriptor' := Except.ok.inj (hmoved.descriptor.symm.trans hdescriptor)
  have hslot := hmoved.slot.trans hentry.slot
  have hstart_eq := h.eq_place (Nat.le_trans hle hstop_le) hstart'
  have hstop_eq := h.eq_place hstop_le hstop'
  cases moved
  cases placed
  simp only [PlacedVariable.move] at hname' hdescriptor' hsignature hstart_eq hstop_eq hslot
  subst hname' hdescriptor' hsignature hstart_eq hstop_eq hslot
  rfl

end ReadPlaced

/-- A program that is read from the whole body that was assembled of another one. -/
structure ReadWhole (code : MethodCode) (context : MethodContext) (pool : Pool) (attr : CodeAttribute)
    (body : MethodBody) (items : List LayoutItem) (entries : BodyEntries) (decoded : List (Nat × CodeOp Nat))
    (tables : List BodyTable) (found source : Program) :
    Prop extends ReadFrom code context pool attr body items entries decoded tables found where
  program : code.program = .ok source
  placed : source.WellFormed
  whole : body.Whole source.ops source.handlers

namespace ReadWhole

variable {source : Program} (h : ReadWhole code context pool attr body items entries decoded tables
  found source)

include h

theorem readPlaced : ReadPlaced code context pool attr body items entries decoded tables found source id :=
  { h with places := h.whole.places }

theorem handler_inside {handler : Handler Nat BinaryName} (hmem : handler ∈ body.handlers) :
    handler.Inside body.ops.length := by
  obtain ⟨hstart, hstop, htarget⟩ := h.placed.handlers handler (h.whole.handlers_sub.subset hmem)
  rw [← h.whole.ops_eq] at hstart hstop htarget
  exact ⟨hstart, hstop, htarget⟩

end ReadWhole

end MethodCode

/-! ## Programs -/

/-- A handler covers something wherever widened branches have moved it. -/
theorem Handler.filter_isUsed_move {κ : Type} (widened : List Nat) (handlers : List (Handler Nat κ)) :
    (handlers.map (Handler.move (place widened))).filter Handler.isUsed =
      (handlers.filter Handler.isUsed).map (Handler.move (place widened)) := by
  rw [List.filter_map]
  refine congrArg _ (List.filter_congr fun handler _ => ?_)
  exact decide_eq_decide.mpr ⟨fun hlt => Nat.lt_of_not_le fun hle => Nat.not_lt.mpr (Layout.place_le hle) hlt,
    Layout.place_lt⟩

namespace Program

/-- The program in code where widened branches take two positions each. -/
def respelled (widened : List Nat) (program : Program) : Program where
  ops := Layout.respelled widened program.ops
  handlers := program.handlers.map (Handler.move (place widened))
  lines := program.lines.map fun line => (line.1, place widened line.2)
  locals := program.locals.map (PlacedVariable.move (place widened))

/-- The program without handlers that cover nothing. -/
def pruned (program : Program) : Program :=
  { program with handlers := program.handlers.filter Handler.isUsed }

/-- What a program is when it was written and is read again: the program that it was, without regard to handlers
that cover nothing, but for conditional branches that were too far from their targets in the layout of its
instructions. -/
def RewrittenAs (pool : Pool) (source found : Program) : Prop :=
  ∃ items, Layout.Encoding pool source.ops items ∧
    (∀ k ∈ (ofItems items).widened, Layout.WasFar .signed16 items k) ∧
      found.pruned = (source.respelled (ofItems items).widened).pruned

/-- Control flow can get to all instructions. -/
def FullyReachable (program : Program) : Prop :=
  ∀ i < program.ops.length, Analysis.Reachable program.ops program.handlers i

/-- Where nothing is widened, a program is spelled as it is. -/
theorem respelled_nil (program : Program) : program.respelled [] = program := by
  have hplace : place [] = id := funext Layout.place_nil
  unfold respelled
  rw [Layout.respelled_nil, hplace]
  change (⟨program.ops, program.handlers.map id, program.lines.map id, program.locals.map id⟩ :
    Program) = program
  rw [List.map_id, List.map_id, List.map_id]

end Program

/-- What is read from the whole body of a program is the program, respelled. -/
theorem MethodCode.ReadWhole.rewrittenAs {code : MethodCode} {context : MethodContext} {pool : Pool}
    {attr : CodeAttribute} {body : MethodBody} {items : List LayoutItem} {entries : BodyEntries}
    {decoded : List (Nat × CodeOp Nat)} {tables : List BodyTable} {found source : Program}
    (h : ReadWhole code context pool attr body items entries decoded tables found source) :
    source.RewrittenAs pool found := by
  refine ⟨items, h.whole.ops_eq ▸ h.encoding, fun k hk => Layout.wasFar_of_widened hk, ?_⟩
  have hops := h.ops_eq h.read.ops
  have hhandlers := h.handlers_eq fun handler hmem => h.handler_inside hmem
  rw [h.whole.ops_eq] at hops
  unfold Program.pruned Program.respelled
  rw [hops, hhandlers, h.readPlaced.lines_eq, h.readPlaced.locals_eq h.placed.signatures]
  refine congrArg (fun handlers => Program.mk _ handlers _ _) ?_
  rw [Handler.filter_isUsed_move, Handler.filter_isUsed_move, h.whole.used]

end ClassWeave
