import Mathlib.Data.List.DropRight
import MeleeHarness.Lib.ByteOrder

/-!
# The metadata of a split object

`to_writer` of `objdiff-core/src/obj/split_meta.rs` writes the metadata of an object as notes of
an ELF section, and `from_section` reads it from them. What splits a section into its notes is a
parameter.

* `ReadsNotes`: what is relied on of it;
* `fromSection_toWriter`: the metadata comes back but for the upper halves of addresses that are
  written in 32 bits, and takes as many bytes as `write_size` says.
-/

namespace MeleeHarness.Objdiff

open Lib

structure SplitMeta where
  generator : Option String
  moduleName : Option String
  moduleId : Option UInt32
  virtualAddresses : Option (List UInt64)
  deriving DecidableEq, Repr

def elfNoteSplit : Bytes := ascii "Split"

/-- `u32::from_be_bytes` of four letters. -/
def noteType (letters : String) : Nat := ByteOrder.big.read (ascii letters)

def ntSplitGenerator : Nat := noteType "GENR"

def ntSplitModuleName : Nat := noteType "MODN"

def ntSplitModuleId : Nat := noteType "MODI"

def ntSplitVirtualAddresses : Nat := noteType "VIRT"

def noteHeaderSize : Nat := 12 + (elfNoteSplit.length + 4) / 4 * 4

def alignSizeTo4 (size : Nat) : Nat := (size + 3) / 4 * 4

/-- The zeros that `align_data_to_4` writes. -/
def alignDataTo4 (len : Nat) : Bytes := if len % 4 = 0 then [] else List.replicate (4 - len % 4) 0

def asBytes (s : String) : Bytes := s.toByteArray.data.toList

def fromUtf8 (b : Bytes) : Option String := String.fromUTF8? b.toByteArray

structure Note where
  type : Nat
  name : Bytes
  desc : Bytes
  deriving DecidableEq, Repr

section
variable (e : ByteOrder) (is64 : Bool)

/-- The sizes have 32 bits. -/
def writeNoteHeader (kind descLen : Nat) : Bytes :=
  e.write 4 (elfNoteSplit.length + 1) ++ e.write 4 descLen ++ e.write 4 kind ++ elfNoteSplit ++ [0] ++
    alignDataTo4 (elfNoteSplit.length + 1)

def addressSize : Nat := if is64 then 8 else 4

/-- One note, with its description filled up. -/
def writeNote (kind : Nat) (desc : Bytes) : Bytes :=
  writeNoteHeader e kind desc.length ++ desc ++ alignDataTo4 desc.length

/-- Without `is_64` the upper half of an address is dropped. -/
def writeAddresses (addresses : List UInt64) : Bytes :=
  (addresses.map UInt64.toNat).flatMap (e.write (addressSize is64))

/-- The numbers need no filling up. -/
def SplitMeta.toWriter (m : SplitMeta) : Bytes :=
  m.generator.elim [] (fun s => writeNote e ntSplitGenerator (asBytes s)) ++
  m.moduleName.elim [] (fun s => writeNote e ntSplitModuleName (asBytes s)) ++
  m.moduleId.elim [] (fun id => writeNoteHeader e ntSplitModuleId 4 ++ e.write 4 id.toNat) ++
  m.virtualAddresses.elim [] fun addresses =>
    writeNoteHeader e ntSplitVirtualAddresses (addresses.length * addressSize is64) ++
      writeAddresses e is64 addresses

def SplitMeta.writeSize (m : SplitMeta) : Nat :=
  let size := 0
  let size := m.generator.elim size fun s =>
    alignSizeTo4 (size + (noteHeaderSize + (asBytes s).length))
  let size := m.moduleName.elim size fun s =>
    alignSizeTo4 (size + (noteHeaderSize + (asBytes s).length))
  let size := m.moduleId.elim size fun _ => alignSizeTo4 (size + (noteHeaderSize + 4))
  m.virtualAddresses.elim size fun addresses =>
    alignSizeTo4 (size + (noteHeaderSize + addressSize is64 * addresses.length))

/-- One round of `from_section`. -/
def SplitMeta.addNote (m : SplitMeta) (note : Note) : Option SplitMeta :=
  if note.name ≠ elfNoteSplit then some m
  else if note.type = ntSplitGenerator then
    (fromUtf8 note.desc).map fun s => { m with generator := some s }
  else if note.type = ntSplitModuleName then
    (fromUtf8 note.desc).map fun s => { m with moduleName := some s }
  else if note.type = ntSplitModuleId then
    if note.desc.length = 4 then some { m with moduleId := some (UInt32.ofNat (e.read note.desc)) }
    else none
  else if note.type = ntSplitVirtualAddresses then
    some { m with
      virtualAddresses := some ((e.readEach (addressSize is64) note.desc).map UInt64.ofNat) }
  else some m

/-- `from_section` over the notes of a section; `none` if it fails. -/
def SplitMeta.fromSection (notes : ByteOrder → Bytes → Option (List Note)) (data : Bytes) :
    Option SplitMeta :=
  (notes e data).bind fun notes => notes.foldlM (addNote e is64) ⟨none, none, none, none⟩

end

/-- A note as an ELF file has it: sizes and type, the name with its zero, the description, each
filled up to four bytes. -/
def elfNote (e : ByteOrder) (note : Note) : Bytes :=
  e.write 4 (note.name.length + 1) ++ e.write 4 note.desc.length ++ e.write 4 note.type ++
    note.name ++ [0] ++ alignDataTo4 (note.name.length + 1) ++ note.desc ++
    alignDataTo4 note.desc.length

/-- It splits a section whose notes are aligned to four bytes, and leaves out the zero of a name. -/
structure ReadsNotes (notes : ByteOrder → Bytes → Option (List Note)) : Prop where
  nil : ∀ e, notes e [] = some []
  cons : ∀ e note rest, note.name.length + 1 < 2 ^ 32 → note.desc.length < 2 ^ 32 →
    note.type < 2 ^ 32 → 0 ∉ note.name →
    notes e (elfNote e note ++ rest) = (notes e rest).map (note :: ·)

/-! ## Alignment -/

theorem length_alignDataTo4 (len : Nat) : len + (alignDataTo4 len).length = alignSizeTo4 len := by
  unfold alignDataTo4 alignSizeTo4
  by_cases h : len % 4 = 0
  · rw [if_pos h, List.length_nil]
    omega
  · rw [if_neg h, List.length_replicate]
    omega

theorem alignSizeTo4_mod (size : Nat) : alignSizeTo4 size % 4 = 0 := Nat.mul_mod_left _ 4

theorem noteHeaderSize_eq : noteHeaderSize = 20 := rfl

theorem alignSizeTo4_add {size : Nat} (h : size % 4 = 0) (len : Nat) :
    alignSizeTo4 (size + (noteHeaderSize + len)) = size + (noteHeaderSize + alignSizeTo4 len) := by
  rw [noteHeaderSize_eq]
  unfold alignSizeTo4
  omega

theorem addressSize_pos (is64 : Bool) : 0 < addressSize is64 := by
  cases is64 <;> decide

theorem addressSize_mod (is64 : Bool) (count : Nat) : count * addressSize is64 % 4 = 0 := by
  cases is64 with
  | false => exact Nat.mul_mod_left count 4
  | true =>
    change count * 8 % 4 = 0
    omega

/-! ## The notes of the metadata -/

theorem fromUtf8_asBytes (s : String) : fromUtf8 (asBytes s) = some s := by
  have hbytes : (asBytes s).toByteArray = s.toByteArray := by
    simp [asBytes, ByteArray.ext_iff]
  rw [fromUtf8, hbytes, String.fromUTF8?, dif_pos s.isValidUTF8]
  rfl

section
variable (e : ByteOrder) (is64 : Bool) (m : SplitMeta)

def SplitMeta.notes : List Note :=
  m.generator.toList.map (fun s => ⟨ntSplitGenerator, elfNoteSplit, asBytes s⟩) ++
  m.moduleName.toList.map (fun s => ⟨ntSplitModuleName, elfNoteSplit, asBytes s⟩) ++
  m.moduleId.toList.map (fun id => ⟨ntSplitModuleId, elfNoteSplit, e.write 4 id.toNat⟩) ++
  m.virtualAddresses.toList.map fun addresses =>
    ⟨ntSplitVirtualAddresses, elfNoteSplit, writeAddresses e is64 addresses⟩

theorem writeNote_eq (kind : Nat) (desc : Bytes) :
    writeNote e kind desc = elfNote e ⟨kind, elfNoteSplit, desc⟩ := by
  simp only [writeNote, writeNoteHeader, elfNote, List.append_assoc]

theorem writeNoteHeader_eq (kind : Nat) {desc : Bytes} {len : Nat} (hlen : desc.length = len)
    (h : len % 4 = 0) :
    writeNoteHeader e kind len ++ desc = elfNote e ⟨kind, elfNoteSplit, desc⟩ := by
  subst hlen
  rw [← writeNote_eq, writeNote, alignDataTo4, if_pos h, List.append_nil]

theorem length_writeAddresses (addresses : List UInt64) :
    (writeAddresses e is64 addresses).length = addresses.length * addressSize is64 := by
  simp [writeAddresses, List.length_flatMap, Function.comp_def]

theorem elim_eq_flatMap {α : Type} (field : Option α) {write : α → Bytes} {note : α → Note}
    (h : ∀ a, write a = elfNote e (note a)) :
    field.elim [] write = (field.toList.map note).flatMap (elfNote e) := by
  cases field with
  | none => rfl
  | some a => simp [h]

theorem toWriter_eq : m.toWriter e is64 = (m.notes e is64).flatMap (elfNote e) := by
  rw [SplitMeta.toWriter, SplitMeta.notes, List.flatMap_append, List.flatMap_append,
    List.flatMap_append, elim_eq_flatMap e m.generator fun s => writeNote_eq e _ (asBytes s),
    elim_eq_flatMap e m.moduleName fun s => writeNote_eq e _ (asBytes s),
    elim_eq_flatMap e m.moduleId fun id =>
      writeNoteHeader_eq e _ (e.length_write 4 id.toNat) (Nat.mod_self 4),
    elim_eq_flatMap e m.virtualAddresses fun addresses =>
      writeNoteHeader_eq e _ (length_writeAddresses e is64 addresses) (addressSize_mod is64 _)]

/-! ## Its size -/

theorem length_elfNote (kind : Nat) (desc : Bytes) :
    (elfNote e ⟨kind, elfNoteSplit, desc⟩).length = noteHeaderSize + alignSizeTo4 desc.length := by
  have hname : (alignDataTo4 (5 + 1)).length = 2 := rfl
  have hsplit : elfNoteSplit.length = 5 := rfl
  simp only [elfNote, List.length_append, ByteOrder.length_write, List.length_singleton, hname,
    hsplit, noteHeaderSize_eq, ← length_alignDataTo4 desc.length]
  omega

/-- A field adds the size of its note, and the sizes stay aligned. -/
theorem elim_size {α : Type} (size : Nat) (field : Option α) (note : α → Note)
    (len : α → Nat) (hsize : size % 4 = 0)
    (h : ∀ a, (elfNote e (note a)).length = noteHeaderSize + alignSizeTo4 (len a)) :
    (field.elim size fun a => alignSizeTo4 (size + (noteHeaderSize + len a))) =
        size + ((field.toList.map note).flatMap (elfNote e)).length ∧
      (size + ((field.toList.map note).flatMap (elfNote e)).length) % 4 = 0 := by
  cases field with
  | none => exact ⟨rfl, hsize⟩
  | some a =>
    have hlength : (((some a).toList.map note).flatMap (elfNote e)).length =
        noteHeaderSize + alignSizeTo4 (len a) := by
      simp [h]
    rw [hlength]
    refine ⟨alignSizeTo4_add hsize (len a), ?_⟩
    rw [← alignSizeTo4_add hsize (len a)]
    exact alignSizeTo4_mod _

theorem length_toWriter : (m.toWriter e is64).length = m.writeSize is64 := by
  rw [toWriter_eq, SplitMeta.notes]
  simp only [List.flatMap_append, List.length_append]
  obtain ⟨hgenerator, aligned⟩ := elim_size e 0 m.generator
    (fun s => ⟨ntSplitGenerator, elfNoteSplit, asBytes s⟩) (fun s => (asBytes s).length) rfl
    fun s => length_elfNote e _ (asBytes s)
  obtain ⟨hname, aligned⟩ := elim_size e _ m.moduleName
    (fun s => ⟨ntSplitModuleName, elfNoteSplit, asBytes s⟩) (fun s => (asBytes s).length) aligned
    fun s => length_elfNote e _ (asBytes s)
  obtain ⟨hid, aligned⟩ := elim_size e _ m.moduleId
    (fun id => ⟨ntSplitModuleId, elfNoteSplit, e.write 4 id.toNat⟩) (fun _ => 4) aligned
    fun id => by rw [length_elfNote, e.length_write]
  obtain ⟨haddresses, -⟩ := elim_size e _ m.virtualAddresses
    (fun addresses => ⟨ntSplitVirtualAddresses, elfNoteSplit, writeAddresses e is64 addresses⟩)
    (fun addresses => addressSize is64 * addresses.length) aligned
    fun addresses => by rw [length_elfNote, length_writeAddresses, Nat.mul_comm]
  unfold SplitMeta.writeSize
  dsimp only
  rw [hgenerator, hname, hid, haddresses, Nat.zero_add]

/-! ## Reading it back -/

def keptAddress (a : UInt64) : UInt64 := if is64 then a else a.toUInt32.toUInt64

/-- What is left of the metadata once it was written. -/
def SplitMeta.kept : SplitMeta :=
  { m with virtualAddresses := m.virtualAddresses.map (List.map (keptAddress is64)) }

/-- The sizes of the notes fit the 32 bits they are written in. -/
structure SplitMeta.Sized : Prop where
  generator : ∀ s ∈ m.generator, (asBytes s).length < 2 ^ 32
  moduleName : ∀ s ∈ m.moduleName, (asBytes s).length < 2 ^ 32
  virtualAddresses : ∀ addresses ∈ m.virtualAddresses, addresses.length * addressSize is64 < 2 ^ 32

theorem keptAddress_eq_self_iff (a : UInt64) :
    keptAddress is64 a = a ↔ is64 = true ∨ a.toNat < 2 ^ 32 := by
  cases is64 with
  | true => simp [keptAddress]
  | false =>
    rw [← UInt64.toNat_inj]
    simp [keptAddress]

theorem ofNat_address (a : UInt64) :
    UInt64.ofNat (a.toNat % 256 ^ addressSize is64) = keptAddress is64 a := by
  cases is64 with
  | true =>
    have hlt : a.toNat < 256 ^ addressSize true := a.toNat_lt
    rw [Nat.mod_eq_of_lt hlt, UInt64.ofNat_toNat]
    rfl
  | false =>
    have hlt : a.toNat % 4294967296 < 18446744073709551616 := by omega
    rw [← UInt64.toNat_inj]
    simpa [keptAddress, addressSize] using hlt

theorem kept_eq_self_iff : m.kept is64 = m ↔
    ∀ addresses ∈ m.virtualAddresses, ∀ a ∈ addresses, is64 = true ∨ a.toNat < 2 ^ 32 := by
  obtain ⟨generator, moduleName, moduleId, virtualAddresses⟩ := m
  cases virtualAddresses with
  | none => simp [SplitMeta.kept]
  | some addresses =>
    have hself : addresses.map (keptAddress is64) = addresses ↔
        ∀ a ∈ addresses, keptAddress is64 a = a := by
      conv_lhs => rhs; rw [← List.map_id addresses]
      exact List.map_inj_left
    simp [SplitMeta.kept, hself, keptAddress_eq_self_iff]

theorem noteTypes : ntSplitGenerator < 2 ^ 32 ∧ ntSplitModuleName < 2 ^ 32 ∧
    ntSplitModuleId < 2 ^ 32 ∧ ntSplitVirtualAddresses < 2 ^ 32 := by
  decide

variable {is64} {m} in
theorem SplitMeta.Sized.notes (h : m.Sized is64) : ∀ note ∈ m.notes e is64,
    note.name = elfNoteSplit ∧ note.desc.length < 2 ^ 32 ∧ note.type < 2 ^ 32 := by
  intro note hnote
  simp only [SplitMeta.notes, List.mem_append, List.mem_map, Option.mem_toList] at hnote
  rcases hnote with ((⟨s, hs, rfl⟩ | ⟨s, hs, rfl⟩) | ⟨id, hid, rfl⟩) | ⟨addresses, haddresses, rfl⟩
  · exact ⟨rfl, h.generator s hs, noteTypes.1⟩
  · exact ⟨rfl, h.moduleName s hs, noteTypes.2.1⟩
  · exact ⟨rfl, by simp, noteTypes.2.2.1⟩
  · refine ⟨rfl, ?_, noteTypes.2.2.2⟩
    rw [length_writeAddresses]
    exact h.virtualAddresses addresses haddresses

theorem notes_flatMap {notes : ByteOrder → Bytes → Option (List Note)} (hnotes : ReadsNotes notes)
    {written : List Note} (h : ∀ note ∈ written,
      note.name = elfNoteSplit ∧ note.desc.length < 2 ^ 32 ∧ note.type < 2 ^ 32) :
    notes e (written.flatMap (elfNote e)) = some written := by
  induction written with
  | nil => exact hnotes.nil e
  | cons note written ih =>
    rw [List.forall_mem_cons] at h
    obtain ⟨⟨hname, hdesc, htype⟩, hrest⟩ := h
    rw [List.flatMap_cons, hnotes.cons e note _ (by rw [hname]; decide) hdesc htype
      (by rw [hname]; decide), ih hrest]
    rfl

theorem addNote_generator (s : String) :
    m.addNote e is64 ⟨ntSplitGenerator, elfNoteSplit, asBytes s⟩ =
      some { m with generator := some s } := by
  rw [SplitMeta.addNote, if_neg (by simp), if_pos rfl, fromUtf8_asBytes]
  rfl

theorem addNote_moduleName (s : String) :
    m.addNote e is64 ⟨ntSplitModuleName, elfNoteSplit, asBytes s⟩ =
      some { m with moduleName := some s } := by
  rw [SplitMeta.addNote, if_neg (by simp), if_neg (show ¬ntSplitModuleName = _ by decide), if_pos rfl,
    fromUtf8_asBytes]
  rfl

theorem addNote_moduleId (id : UInt32) :
    m.addNote e is64 ⟨ntSplitModuleId, elfNoteSplit, e.write 4 id.toNat⟩ =
      some { m with moduleId := some id } := by
  rw [SplitMeta.addNote, if_neg (by simp), if_neg (show ¬ntSplitModuleId = _ by decide),
    if_neg (show ¬ntSplitModuleId = _ by decide), if_pos rfl, if_pos (e.length_write 4 _),
    e.read_write id.toNat_lt, UInt32.ofNat_toNat]

theorem addNote_virtualAddresses (addresses : List UInt64) :
    m.addNote e is64
        ⟨ntSplitVirtualAddresses, elfNoteSplit, writeAddresses e is64 addresses⟩ =
      some { m with virtualAddresses := some (addresses.map (keptAddress is64)) } := by
  rw [SplitMeta.addNote, if_neg (by simp), if_neg (show ¬ntSplitVirtualAddresses = _ by decide),
    if_neg (show ¬ntSplitVirtualAddresses = _ by decide),
    if_neg (show ¬ntSplitVirtualAddresses = _ by decide), if_pos rfl, writeAddresses,
    e.readEach_write (addressSize_pos is64), List.map_map, List.map_map]
  simp only [Function.comp_def, ofNat_address]

/-- A field that was written is set, and one that was not stays as it is. -/
theorem foldlM_field {α : Type} (field : Option α) {note : α → Note}
    {set : SplitMeta → α → SplitMeta} (h : ∀ m a, m.addNote e is64 (note a) = some (set m a)) :
    (field.toList.map note).foldlM (SplitMeta.addNote e is64) m = some (field.elim m (set m)) := by
  cases field with
  | none => rfl
  | some a => simp [h]

theorem foldlM_notes :
    (m.notes e is64).foldlM (SplitMeta.addNote e is64) ⟨none, none, none, none⟩ =
      some (m.kept is64) := by
  rw [SplitMeta.notes, List.foldlM_append, List.foldlM_append, List.foldlM_append]
  simp only [Option.bind_eq_bind, Option.bind_some,
    foldlM_field e is64 _ m.generator (addNote_generator e is64),
    foldlM_field e is64 _ m.moduleName (addNote_moduleName e is64),
    foldlM_field e is64 _ m.moduleId (addNote_moduleId e is64),
    foldlM_field e is64 _ m.virtualAddresses (addNote_virtualAddresses e is64)]
  obtain ⟨generator, moduleName, moduleId, virtualAddresses⟩ := m
  cases generator <;> cases moduleName <;> cases moduleId <;> cases virtualAddresses <;> rfl

/-- The metadata that is read from what was written is the metadata without the upper halves of
addresses written in 32 bits, so it is the same exactly if these are zero; and it takes as many
bytes as `write_size` says. -/
theorem fromSection_toWriter {notes : ByteOrder → Bytes → Option (List Note)}
    (hnotes : ReadsNotes notes) (h : m.Sized is64) :
    SplitMeta.fromSection e is64 notes (m.toWriter e is64) = some (m.kept is64) ∧
      (m.kept is64 = m ↔
        ∀ addresses ∈ m.virtualAddresses, ∀ a ∈ addresses, is64 = true ∨ a.toNat < 2 ^ 32) ∧
      (m.toWriter e is64).length = m.writeSize is64 := by
  refine ⟨?_, kept_eq_self_iff is64 m, length_toWriter e is64 m⟩
  rw [SplitMeta.fromSection, toWriter_eq, notes_flatMap e hnotes (h.notes e), Option.bind_some,
    foldlM_notes]

end

/-! ## A section that is split -/

def takeWord (e : ByteOrder) (data : Bytes) : Nat × Bytes := (e.read (data.take 4), data.drop 4)

def takePadded (size : Nat) (data : Bytes) : Bytes × Bytes :=
  (data.take size, data.drop (alignSizeTo4 size))

/-- The first note, and what follows it. -/
def takeNote (e : ByteOrder) (data : Bytes) : Option (Note × Bytes) :=
  let nameSize := takeWord e data
  let descSize := takeWord e nameSize.2
  let kind := takeWord e descSize.2
  let name := takePadded nameSize.1 kind.2
  let desc := takePadded descSize.1 name.2
  if kind.2.length < alignSizeTo4 nameSize.1 + descSize.1 then none
  else some (⟨kind.1, name.1.rdropWhile (· == 0), desc.1⟩, desc.2)

def takeNotes (e : ByteOrder) : Nat → Bytes → Option (List Note)
  | 0, data => if data = [] then some [] else none
  | fuel + 1, data =>
    if data = [] then some []
    else (takeNote e data).bind fun taken => (takeNotes e fuel taken.2).map (taken.1 :: ·)

def elfNotes (e : ByteOrder) (data : Bytes) : Option (List Note) := takeNotes e data.length data

section
variable (e : ByteOrder)

theorem takeWord_write {n : Nat} (rest : Bytes) (h : n < 2 ^ 32) :
    takeWord e (e.write 4 n ++ rest) = (n, rest) := by
  rw [takeWord, List.take_left' (e.length_write 4 n), List.drop_left' (e.length_write 4 n),
    e.read_write h]

theorem takePadded_append {size : Nat} {b : Bytes} (h : b.length = size) (rest : Bytes) :
    takePadded size (b ++ (alignDataTo4 size ++ rest)) = (b, rest) := by
  have hpadded : (b ++ alignDataTo4 size).length = alignSizeTo4 size := by
    rw [List.length_append, h, length_alignDataTo4]
  rw [takePadded, List.take_left' h, ← List.append_assoc, List.drop_left' hpadded]

theorem takeNote_elfNote {note : Note} (rest : Bytes) (hname : note.name.length + 1 < 2 ^ 32)
    (hdesc : note.desc.length < 2 ^ 32) (htype : note.type < 2 ^ 32) (hzero : 0 ∉ note.name) :
    takeNote e (elfNote e note ++ rest) = some (note, rest) := by
  have hsplit : elfNote e note ++ rest = e.write 4 (note.name.length + 1) ++
      (e.write 4 note.desc.length ++ (e.write 4 note.type ++ ((note.name ++ [0]) ++
        (alignDataTo4 (note.name.length + 1) ++
          (note.desc ++ (alignDataTo4 note.desc.length ++ rest)))))) := by
    simp only [elfNote, List.append_assoc]
  have hzeros : (note.name ++ [0]).rdropWhile (· == 0) = note.name := by
    rw [List.rdropWhile_concat_pos _ _ _ rfl, List.rdropWhile_eq_self_iff]
    intro hne hlast
    have hlast : note.name.getLast hne = 0 := by simpa using hlast
    exact hzero (hlast ▸ List.getLast_mem hne)
  have hlength : (note.name ++ [0]).length = note.name.length + 1 := by
    rw [List.length_append, List.length_singleton]
  have hfits : ¬((note.name ++ [0]) ++ (alignDataTo4 (note.name.length + 1) ++
      (note.desc ++ (alignDataTo4 note.desc.length ++ rest)))).length <
        alignSizeTo4 (note.name.length + 1) + note.desc.length := by
    rw [← length_alignDataTo4]
    simp only [List.length_append, List.length_singleton]
    omega
  rw [hsplit]
  simp only [takeNote, takeWord_write e _ hname, takeWord_write e _ hdesc, takeWord_write e _ htype,
    takePadded_append hlength, takePadded_append rfl, if_neg hfits, hzeros]

variable {e}

theorem takeNote_lt {data : Bytes} {taken : Note × Bytes} (h : takeNote e data = some taken)
    (hne : data ≠ []) : taken.2.length < data.length := by
  have hpos := List.length_pos_iff.mpr hne
  simp only [takeNote] at h
  split at h
  · cases h
  · cases h
    simp only [takePadded, takeWord, List.length_drop]
    omega

theorem takeNotes_eq {fuel fuel' : Nat} {data : Bytes} (h : data.length ≤ fuel)
    (h' : data.length ≤ fuel') : takeNotes e fuel data = takeNotes e fuel' data := by
  induction fuel generalizing fuel' data with
  | zero =>
    obtain rfl := List.eq_nil_of_length_eq_zero (Nat.le_zero.mp h)
    cases fuel' <;> rfl
  | succ fuel ih =>
    by_cases hnil : data = []
    · subst hnil
      cases fuel' <;> rfl
    · have hpos := List.length_pos_iff.mpr hnil
      obtain ⟨fuel', rfl⟩ : ∃ k, fuel' = k + 1 := ⟨fuel' - 1, by omega⟩
      rw [takeNotes, takeNotes, if_neg hnil, if_neg hnil]
      cases htaken : takeNote e data with
      | none => rfl
      | some taken =>
        have hlt := takeNote_lt htaken hnil
        have hle : taken.2.length ≤ fuel := by omega
        have hle' : taken.2.length ≤ fuel' := by omega
        rw [Option.bind_some, Option.bind_some, ih hle hle']

theorem readsNotes_elfNotes : ReadsNotes elfNotes where
  nil _ := rfl
  cons e note rest hname hdesc htype hzero := by
    obtain ⟨fuel, hfuel⟩ : ∃ fuel, (elfNote e note ++ rest).length = fuel + 1 ∧
        rest.length ≤ fuel := by
      refine ⟨(elfNote e note ++ rest).length - 1, ?_⟩
      simp only [elfNote, List.length_append, ByteOrder.length_write]
      omega
    have hne : elfNote e note ++ rest ≠ [] := List.length_pos_iff.mp (by omega)
    rw [elfNotes, hfuel.1, takeNotes, if_neg hne, takeNote_elfNote e rest hname hdesc htype hzero,
      Option.bind_some, takeNotes_eq hfuel.2 (Nat.le_refl _)]
    rfl

end

def splitModule : SplitMeta := ⟨some "dtk", none, some 7, some [0, 0x80003100]⟩

theorem fromSection_toWriter_module :
    SplitMeta.fromSection .big false elfNotes (splitModule.toWriter .big false) = some splitModule ∧
      (splitModule.toWriter .big false).length = splitModule.writeSize false := by
  have hsized : splitModule.Sized false := {
    generator := by
      intro s hs
      obtain rfl : "dtk" = s := Option.some.inj hs
      decide
    moduleName := by
      intro s hs
      cases hs
    virtualAddresses := by
      intro addresses haddresses
      obtain rfl : [0, 0x80003100] = addresses := Option.some.inj haddresses
      decide }
  obtain ⟨hread, hkept, hsize⟩ := fromSection_toWriter .big false splitModule readsNotes_elfNotes hsized
  refine ⟨hread.trans (congrArg some (hkept.mpr ?_)), hsize⟩
  intro addresses haddresses
  obtain rfl : [0, 0x80003100] = addresses := Option.some.inj haddresses
  simp

end MeleeHarness.Objdiff
