import ClassWeave.ClassFile
import ClassWeave.Proofs.Pool.Format
import ClassWeave.Proofs.Pool.Symbol

/-!
# Class files survive writing

What was read is a well-formed class file (`ClassFile.WellFormed`), and a well-formed class file is read back as
it was written exactly if none of its counts and lengths is cut (`ClassFile.Countable`).
-/

namespace ClassWeave

open Outcome (reader_bind reader_pure except_bind)

/-! ## Checks on the way -/

namespace Reader

variable {α β : Type}

theorem Yields.guard {condition : Prop} [Decidable condition] {check : Reader Unit} {next : Unit → Reader β}
    {bytes : Bytes} {b : β} (hcheck : condition → check.Yields [] ()) (h : (next ()).Yields bytes b) :
    (if condition then check >>= next else next ()).Yields bytes b := by
  split_ifs with hc
  · exact (hcheck hc).bind h
  · exact h

theorem Gives.guard {condition : Prop} [Decidable condition] {checked : Prop} {check : Reader Unit}
    {next : Unit → Reader β} {post : β → Prop} (hcheck : check.Gives fun _ => checked)
    (h : (condition → checked) → (next ()).Gives post) :
    (if condition then check >>= next else next ()).Gives post := by
  split_ifs with hc
  · exact hcheck.bind fun _ hchecked => h fun _ => hchecked
  · exact h fun hc' => absurd hc' hc

end Reader

/-! ## Members -/

/-- The attributes of a member can be counted in 16 bits, and their bytes in 32. -/
structure Member.Countable (member : Member) : Prop where
  attributes : member.attributes.length < 2 ^ 16
  infos : ∀ entry ∈ member.attributes, entry.Fits

theorem Member.read_yields {mask : UInt16} {member : Member} (h : member.access &&& mask = member.access)
    (hcount : member.Countable) : (Member.read mask).Yields member.encode member := by
  have htable := Reader.yields_table hcount.attributes fun entry hentry => Attribute.read_yields
    (hcount.infos entry hentry)
  have hpure := htable.bind_pure fun attributes => Member.mk
    (member.access &&& mask) member.name member.descriptor attributes
  rw [h] at hpure
  unfold Member.encode Member.read
  rw [List.append_assoc, List.append_assoc]
  refine (Reader.yields_u16 _).bind ((Reader.yields_u16 _).bind ((Reader.yields_u16 _).bind ?_))
  rw [h]
  exact hpure

theorem Member.read_gives (mask : UInt16) :
    (Member.read mask).Gives fun member => member.access &&& mask = member.access ∧ member.Countable := by
  refine Reader.moves_u16.bind fun access => Reader.moves_u16.bind fun name =>
      Reader.moves_u16.bind fun descriptor =>
    (Reader.table_gives Attribute.read_gives).bind fun attributes hattributes =>
      Reader.gives_pure ⟨?_, hattributes.1, hattributes.2⟩
  change access &&& mask &&& mask = access &&& mask
  rw [UInt16.and_assoc, UInt16.and_self]

/-! ## Class files -/

namespace Version

theorem read_yields {version : Version} (h : version.isSupported = true) :
    read.Yields version.encode version := by
  refine (Reader.yields_u16 version.minor).bind ?_
  have h1 : (Reader.u16 >>= fun major => if (Version.mk major version.minor).isSupported = true then
      (pure (Version.mk major version.minor) : Reader Version)
      else Reader.fail (.unsupportedVersion ⟨major, version.minor⟩)).Yields
        (Bytes.ofUInt16 version.major ++ []) version := by
    refine (Reader.yields_u16 version.major).bind ?_
    rw [if_pos h]
    exact Reader.yields_pure version
  rwa [List.append_nil] at h1

theorem read_gives : read.Gives fun version => version.isSupported = true := by
  refine Reader.moves_u16.bind fun minor => Reader.moves_u16.bind fun major => ?_
  dsimp only
  split_ifs with hsupported
  · exact Reader.gives_pure hsupported
  · exact Reader.gives_fail

end Version

namespace ClassFile

/-- What holds of every class file that is read, its counts and lengths apart. -/
structure WellFormed (file : ClassFile) : Prop where
  version : file.version.isSupported = true
  pool : file.pool.WellFormed
  access : file.access &&& AccessFlags.classMask = file.access
  thisClass : ∃ name, file.pool.classText file.thisClass = .ok name
  superclass : ∀ index, file.superclass = some index → ∃ name, file.pool.classText index = .ok name
  interfaces : ∀ index ∈ file.interfaces, ∃ name, file.pool.classText index = .ok name
  fields : ∀ member ∈ file.fields, member.access &&& AccessFlags.fieldMask = member.access
  methods : ∀ member ∈ file.methods, member.access &&& AccessFlags.methodMask = member.access

/-- Nothing is more or longer than its count or its length can say. -/
structure Countable (file : ClassFile) : Prop where
  texts : ∀ index c, file.pool.get? index = some c → c.Fits
  interfaces : file.interfaces.length < 2 ^ 16
  fields : file.fields.length < 2 ^ 16
  fieldMembers : ∀ member ∈ file.fields, member.Countable
  methods : file.methods.length < 2 ^ 16
  methodMembers : ∀ member ∈ file.methods, member.Countable
  attributes : file.attributes.length < 2 ^ 16
  infos : ∀ entry ∈ file.attributes, entry.Fits

variable {file : ClassFile} {pool : Pool}

theorem expectClass_yields {index : UInt16} (h : ∃ name, pool.classText index = .ok name) :
    (expectClass pool index).Yields [] () := by
  obtain ⟨name, hname⟩ := h
  exact Reader.yields_ofExcept (except_bind.mpr ⟨name, hname, rfl⟩)

theorem expectClass_gives (index : UInt16) :
    (expectClass pool index).Gives fun _ => ∃ name, pool.classText index = .ok name :=
  Reader.gives_ofExcept fun _ h => by
    obtain ⟨name, hname, -⟩ := except_bind.mp h
    exact ⟨name, hname⟩

theorem forM_expectClass_yields : ∀ {indices : List UInt16},
    (∀ index ∈ indices, ∃ name, pool.classText index = .ok name) →
    (indices.forM (expectClass pool)).Yields [] ()
  | [], _ => Reader.yields_pure ()
  | index :: indices, h => by
    have hfirst := expectClass_yields (h index List.mem_cons_self)
    exact hfirst.bind (forM_expectClass_yields fun i hi => h i (List.mem_cons_of_mem _ hi))

theorem forM_expectClass_gives : ∀ (indices : List UInt16),
    (indices.forM (expectClass pool)).Gives fun _ => ∀ index ∈ indices, ∃ name, pool.classText index = .ok name
  | [] => Reader.gives_pure fun _ hindex => absurd hindex List.not_mem_nil
  | first :: indices => (expectClass_gives first).bind fun _ hfirst =>
        (forM_expectClass_gives indices).imp fun _ hrest =>
    List.forall_mem_cons.mpr ⟨hfirst, hrest⟩

/-- A class file whose counts are not cut is read back. -/
theorem read_yields (h : file.WellFormed) (hcount : file.Countable) : read.Yields file.encode file := by
  have hindices := Reader.yields_table hcount.interfaces fun index _ => Reader.yields_u16 index
  have hfields := Reader.yields_table hcount.fields fun member hmember =>
    Member.read_yields (h.fields member hmember) (hcount.fieldMembers member hmember)
  have hmethods := Reader.yields_table hcount.methods fun member hmember =>
    Member.read_yields (h.methods member hmember) (hcount.methodMembers member hmember)
  have hattributes := Reader.yields_table hcount.attributes fun entry hentry =>
    Attribute.read_yields (hcount.infos entry hentry)
  have hzero : (if file.superclass.getD 0 = 0 then none else some (file.superclass.getD 0)) =
      file.superclass := by
    cases hsuper : file.superclass with
    | none => rfl
    | some index =>
      obtain ⟨name, hname⟩ := h.superclass index hsuper
      exact if_neg (h.pool.ne_zero_of_classText hname)
  have hparent : file.superclass.getD 0 ≠ 0 → (expectClass file.pool (file.superclass.getD 0)).Yields
      [] () := by
    intro hne
    cases hsuper : file.superclass with
    | none =>
      rw [hsuper] at hne
      exact absurd rfl hne
    | some index => exact expectClass_yields (h.superclass index hsuper)
  unfold encode read
  simp only [List.append_assoc]
  refine (Reader.yields_u32 magic).bind ?_
  rw [if_neg (not_not.mpr rfl)]
  refine (Version.read_yields h.version).bind ((Pool.read_yields h.pool hcount.texts).bind ?_)
  refine (Reader.yields_u16 file.access).bind ((Reader.yields_u16 file.thisClass).bind ?_)
  rw [← List.nil_append (Bytes.ofUInt16 (file.superclass.getD 0) ++ _)]
  refine (expectClass_yields h.thisClass).bind ((Reader.yields_u16 _).bind ?_)
  refine Reader.Yields.guard hparent (hindices.bind ?_)
  rw [← List.nil_append (Bytes.ofTable Member.encode file.fields ++ _)]
  refine (forM_expectClass_yields h.interfaces).bind (hfields.bind (hmethods.bind ?_))
  have hpure := hattributes.bind_pure fun attributes => ClassFile.mk file.version file.pool
    (file.access &&& AccessFlags.classMask) file.thisClass
    (if file.superclass.getD 0 = 0 then none else some (file.superclass.getD 0)) file.interfaces file.fields
    file.methods attributes
  rw [hzero, h.access] at hpure
  rw [hzero, h.access]
  exact hpure

theorem decode_encode (h : file.WellFormed) (hcount : file.Countable) : decode file.encode = .ok file := by
  have hread := read_yields h hcount 0 []
  rw [List.append_nil] at hread
  unfold decode
  refine except_bind.mpr ⟨(file, ⟨[], 0 + file.encode.length⟩), ?_, rfl⟩
  exact reader_bind.mpr ⟨file, _, hread, reader_bind.mpr ⟨(), _, rfl, rfl⟩⟩

/-- What is read is well formed, and was counted. -/
theorem read_gives : read.Gives fun file => file.WellFormed ∧ file.Countable := by
  refine Reader.moves_u32.bind fun found => ?_
  refine Reader.Gives.guard (Reader.gives_fail : (Reader.fail _).Gives fun _ => True) fun _ => ?_
  refine Version.read_gives.bind fun version hversion => Pool.read_gives.bind fun pool hpool => ?_
  refine Reader.moves_u16.bind fun access => Reader.moves_u16.bind fun thisClass => ?_
  refine (expectClass_gives thisClass).bind fun _ hthis => Reader.moves_u16.bind fun parent => ?_
  refine Reader.Gives.guard (expectClass_gives parent) fun hparent => ?_
  refine (Reader.table_gives Reader.moves_u16).bind fun interfaces hcount => ?_
  refine (forM_expectClass_gives interfaces).bind fun _ hinterfaces => ?_
  refine (Reader.table_gives (Member.read_gives _)).bind fun fields hfields => ?_
  refine (Reader.table_gives (Member.read_gives _)).bind fun methods hmethods => ?_
  refine (Reader.table_gives Attribute.read_gives).bind fun attributes hattributes => Reader.gives_pure ⟨?_, ?_⟩
  · exact {
      version := hversion
      pool := hpool.1
      access := by
        change access &&& AccessFlags.classMask &&& AccessFlags.classMask = _
        rw [UInt16.and_assoc, UInt16.and_self]
      thisClass := hthis
      superclass := fun index hindex => by
        dsimp only at hindex
        split_ifs at hindex with hzero
        cases hindex
        exact hparent hzero
      interfaces := hinterfaces
      fields := fun member hmember => (hfields.2 member hmember).1
      methods := fun member hmember => (hmethods.2 member hmember).1 }
  · exact {
      texts := hpool.2
      interfaces := hcount.1
      fields := hfields.1
      fieldMembers := fun member hmember => (hfields.2 member hmember).2
      methods := hmethods.1
      methodMembers := fun member hmember => (hmethods.2 member hmember).2
      attributes := hattributes.1
      infos := hattributes.2 }

theorem wellFormed_of_decode {bytes : Bytes} (h : decode bytes = .ok file) :
    file.WellFormed ∧ file.Countable := by
  obtain ⟨⟨found, cursor⟩, hread, h⟩ := except_bind.mp h
  cases h
  obtain ⟨_, cursor', h, hfinish⟩ := reader_bind.mp hread
  obtain ⟨_, cursor'', -, hpure⟩ := reader_bind.mp hfinish
  obtain ⟨rfl, -⟩ := reader_pure.mp hpure
  exact (read_gives h).1

/-- A class file is decoded from its bytes exactly if none of its counts and lengths is cut. -/
theorem decode_encode_iff (h : file.WellFormed) : decode file.encode = .ok file ↔ file.Countable :=
  ⟨fun hdecode => (wellFormed_of_decode hdecode).2, decode_encode h⟩

end ClassFile

end ClassWeave
