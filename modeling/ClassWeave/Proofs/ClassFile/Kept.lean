import ClassWeave.Proofs.ClassFile.Format
import ClassWeave.Proofs.Pool.Taking

/-!
# What reading keeps of a class file

Reading a class file and writing it again gives the same bytes, but for bits of access flags that the format
does not name: these are cleared (`ClassFile.encode_of_decode`). Which bits are kept is said by bytes of the
same length as the class file, whose bits are set where bits are kept.
-/

namespace ClassWeave

open Outcome (except_bind reader_bind reader_pure)

namespace Bytes

/-! ## Kept bits -/

/-- All bits of some bytes are kept. -/
def allKept (bytes : Bytes) : Bytes :=
  List.replicate bytes.length 0xFF

/-- `written` is `found` with only those bits that `bits` keeps. -/
structure Cleared (found bits written : Bytes) : Prop where
  length_eq : found.length = bits.length
  eq : written = List.zipWith (· &&& ·) found bits

variable {found bits written : Bytes}

theorem cleared_allKept (bytes : Bytes) : Cleared bytes (allKept bytes) bytes where
  length_eq := (List.length_replicate).symm
  eq := by
    induction bytes with
    | nil => rfl
    | cons b bytes ih =>
      have hb : b &&& 0xFF = b := UInt8.and_neg_one
      simp only [allKept, List.length_cons, List.replicate_succ, List.zipWith_cons_cons, hb,
        List.cons.injEq, true_and]
      exact ih

theorem Cleared.append {found' bits' written' : Bytes} (h : Cleared found bits written)
    (h' : Cleared found' bits' written') : Cleared (found ++ found') (bits ++ bits') (written ++ written') where
  length_eq := by rw [List.length_append, List.length_append, h.length_eq, h'.length_eq]
  eq := by rw [List.zipWith_append h.length_eq, h.eq, h'.eq]

theorem Cleared.length_written (h : Cleared found bits written) : written.length = found.length := by
  rw [h.eq, List.length_zipWith, h.length_eq, Nat.min_self]

/-- A word of flags that is read with a mask. -/
theorem cleared_word (w mask : UInt16) : Cleared (ofUInt16 w) (ofUInt16 mask) (ofUInt16 (w &&& mask)) where
  length_eq := rfl
  eq := by simp [ofUInt16, UInt16.shiftRight_and]

/-- Bits are cleared part by part. -/
theorem cleared_flatten {α : Type} {bits encode : α → Bytes} {parts : List Bytes} {values : List α}
    (h : List.Forall₂ (fun part a => Cleared part (bits a) (encode a)) parts values) :
    Cleared parts.flatten (values.flatMap bits) (values.flatMap encode) := by
  induction h with
  | nil => exact ⟨rfl, rfl⟩
  | cons hpart _ ih => exact hpart.append ih

/-- The kept bits of a table: all of its count, and those of its entries. -/
def keptTable {α : Type} (bits : α → Bytes) (entries : List α) : Bytes :=
  allKept (ofUInt16 entries.length.toUInt16) ++ entries.flatMap bits

theorem cleared_table {α : Type} {bits encode : α → Bytes} {parts : List Bytes} {entries : List α}
    (h : List.Forall₂ (fun part a => Cleared part (bits a) (encode a)) parts entries) :
    Cleared (ofUInt16 entries.length.toUInt16 ++ parts.flatten) (keptTable bits entries)
    (ofTable encode entries) :=
  (cleared_allKept _).append (cleared_flatten h)

end Bytes

open Bytes (Cleared allKept keptTable cleared_allKept cleared_word cleared_table)

/-! ## Members -/

namespace Member

/-- The bits of a member that are kept: those of its flags that are in the mask, and all others. -/
def keptBits (mask : UInt16) (member : Member) : Bytes :=
  Bytes.ofUInt16 mask ++ allKept (Bytes.ofUInt16 member.name ++ Bytes.ofUInt16 member.descriptor
    ++ Bytes.ofTable Attribute.encode member.attributes)

theorem takes_read (mask : UInt16) :
    (read mask).Takes fun taken member => Cleared taken (member.keptBits mask) member.encode := by
  refine Reader.takes_u16.bind fun _ access haccess => Reader.takes_u16.bind fun _ name hname =>
    Reader.takes_u16.bind fun _ descriptor hdescriptor =>
      (Reader.takes_table_written Attribute.takes_read).bind fun _ attributes hattributes =>
        Reader.takes_pure ?_
  have h := (cleared_word access mask).append (cleared_allKept (Bytes.ofUInt16 name ++ Bytes.ofUInt16 descriptor
    ++ Bytes.ofTable Attribute.encode attributes))
  simpa only [haccess, hname, hdescriptor, hattributes, keptBits, encode, List.append_assoc,
    List.append_nil] using h

end Member

/-! ## Class files -/

theorem Version.takes_read : Version.read.TakesWritten Version.encode := by
  refine Reader.takes_u16.bind fun _ minor hminor => Reader.takes_u16.bind fun _ major hmajor => ?_
  dsimp only
  split_ifs
  · refine Reader.takes_pure ?_
    simp [hminor, hmajor, Version.encode]
  · exact Reader.takes_fail

namespace ClassFile

/-- The bits of a class file that are kept: those of its flags, and of the flags of its fields and methods, that
the format names, and all others. -/
def keptBits (file : ClassFile) : Bytes :=
  allKept (Bytes.ofUInt32 magic ++ file.version.encode ++ file.pool.encode) ++
    Bytes.ofUInt16 AccessFlags.classMask ++ allKept
    (Bytes.ofUInt16 file.thisClass ++ Bytes.ofUInt16 (file.superclass.getD 0)
      ++ Bytes.ofTable Bytes.ofUInt16 file.interfaces)
    ++ keptTable (Member.keptBits AccessFlags.fieldMask) file.fields
    ++ keptTable (Member.keptBits AccessFlags.methodMask) file.methods
    ++ allKept (Bytes.ofTable Attribute.encode file.attributes)

theorem takes_expectClass (pool : Pool) (index : UInt16) :
    (expectClass pool index).Takes fun taken _ => taken = [] ∧ ∃ name, pool.classText index = .ok name := by
  refine (Reader.takes_ofExcept _).imp ?_
  rintro taken _ ⟨htaken, hresult⟩
  obtain ⟨name, hname, -⟩ := except_bind.mp hresult
  exact ⟨htaken, name, hname⟩

theorem takes_forM_expectClass (pool : Pool) (indices : List UInt16) :
    (indices.forM (expectClass pool)).Takes fun taken _ => taken = [] := by
  induction indices with
  | nil => exact Reader.takes_pure rfl
  | cons index indices ih =>
    refine (takes_expectClass pool index).bind ?_
    rintro _ _ ⟨rfl, -⟩
    exact ih

/-- The pool without entries has no class. -/
theorem classText_empty (index : UInt16) (name : String) : Pool.empty.classText index ≠ .ok name := by
  intro h
  obtain ⟨c, hc, -⟩ := except_bind.mp h
  obtain ⟨i, hi⟩ : ∃ i, Pool.empty.get? i = some c := ⟨index, Pool.get_eq_ok.mp hc⟩
  have hmem := (Pool.mem_constants Pool.wellFormed_empty.bounded).mpr ⟨i, hi⟩
  exact List.not_mem_nil hmem

/-- What is read is written again, with the bits of flags cleared that are not kept. -/
theorem takes_read : read.Takes fun taken file => Cleared taken file.keptBits file.encode := by
  refine Reader.takes_u32.bind fun _ found hfound =>
    Reader.Takes.guard (Reader.takes_fail : (Reader.fail _).Takes fun taken _ => taken = [] ∧ found = magic)
      fun hmagic => ?_
  have hfound' : found = magic := by
    by_contra hne
    exact hne (hmagic hne)
  refine Version.takes_read.bind fun _ version hversion => Pool.takes_read.bind fun _ pool hpool => ?_
  refine Reader.takes_u16.bind fun _ access haccess => Reader.takes_u16.bind fun _ thisClass hthis => ?_
  refine (takes_expectClass pool thisClass).bind ?_
  rintro _ _ ⟨rfl, name, hname⟩
  have hpool' := hpool.resolve_left fun hempty => classText_empty thisClass name (hempty ▸ hname)
  refine Reader.takes_u16.bind fun _ parent hparent => Reader.Takes.guard (takes_expectClass pool parent)
    fun _ => ?_
  refine (Reader.takes_table_written Reader.takes_u16).bind fun _ interfaces hinterfaces => ?_
  refine (takes_forM_expectClass pool interfaces).bind ?_
  rintro _ _ rfl
  refine (Reader.takes_table (Member.takes_read _)).bind ?_
  rintro _ fields ⟨fieldParts, rfl, hfields⟩
  refine (Reader.takes_table (Member.takes_read _)).bind ?_
  rintro _ methods ⟨methodParts, rfl, hmethods⟩
  refine (Reader.takes_table_written Attribute.takes_read).bind fun _ attributes hattributes =>
    Reader.takes_pure ?_
  have hsuper : (if parent = 0 then none else some parent : Option UInt16).getD 0 = parent := by
    by_cases hzero : parent = 0
    · simp [hzero]
    · simp [hzero]
  have hstart := cleared_allKept (Bytes.ofUInt32 magic ++ version.encode ++ pool.encode)
  have hnames := cleared_allKept (Bytes.ofUInt16 thisClass ++ Bytes.ofUInt16 parent ++
    Bytes.ofTable Bytes.ofUInt16 interfaces)
  have h := ((((hstart.append (cleared_word access AccessFlags.classMask)).append hnames).append
    (cleared_table hfields)).append (cleared_table hmethods)).append
      (cleared_allKept (Bytes.ofTable Attribute.encode attributes))
  simpa only [hfound, hfound', hversion, hpool', haccess, hthis, hparent, hinterfaces, hattributes, hsuper,
    keptBits, encode, List.append_assoc, List.append_nil, List.nil_append] using h

/-- A class file that is read is written again with the same length and the same bits, but for bits of flags
that the format does not name, which are cleared, and the bytes written are read as the same class file. -/
theorem encode_of_decode {bytes : Bytes} {file : ClassFile} (h : decode bytes = .ok file) :
    file.encode.length = bytes.length ∧ file.encode = List.zipWith (· &&& ·) bytes file.keptBits ∧
      decode file.encode = .ok file := by
  obtain ⟨hwell, hcount⟩ := wellFormed_of_decode h
  obtain ⟨⟨_, cursor⟩, hread, hpure⟩ := except_bind.mp h
  cases hpure
  obtain ⟨_, cursor', hread, hfinish⟩ := reader_bind.mp hread
  obtain ⟨_, cursor'', hend, hpure⟩ := reader_bind.mp hfinish
  obtain ⟨rfl, rfl⟩ := reader_pure.mp hpure
  obtain ⟨taken, hbytes, hcleared⟩ := takes_read hread
  have hrest : cursor'.rest = [] := by
    unfold Reader.finish at hend
    split_ifs at hend with hexhausted
    exact List.isEmpty_iff.mp hexhausted
  rw [hrest, List.append_nil] at hbytes
  subst hbytes
  exact ⟨hcleared.length_written, hcleared.eq, decode_encode hwell hcount⟩

/-- A class with a field and a method, all of whose flags are set. The last entry of its pool takes two indices. -/
def flaggedBytes : Bytes :=
  Bytes.ofUInt32 magic ++ [0, 0, 0, 52, 0, 5] ++ [1, 0, 1, 67] ++ [7, 0, 1] ++ [5, 0, 0, 0, 0, 0, 0, 0, 1]
    ++ [0xFF, 0xFF, 0, 2, 0, 0, 0, 0] ++ [0, 1, 0xFF, 0xFF, 0, 1, 0, 1, 0, 0] ++
    [0, 1, 0xFF, 0xFF, 0, 1, 0, 1, 0, 0] ++ [0, 0]

theorem encode_of_decode_flagged : ∃ file, decode flaggedBytes = .ok file ∧ file.encode ≠ flaggedBytes ∧
    file.encode.length = flaggedBytes.length ∧ file.encode = List.zipWith (· &&& ·) flaggedBytes file.keptBits ∧
      decode file.encode = .ok file := by
  have hread : ((decode flaggedBytes).toOption.map encode).any (· ≠ flaggedBytes) = true := by decide +kernel
  cases h : decode flaggedBytes with
  | error reason =>
    rw [h] at hread
    cases hread
  | ok file =>
    rw [h] at hread
    exact ⟨file, rfl, of_decide_eq_true hread, encode_of_decode h⟩

end ClassFile

end ClassWeave
