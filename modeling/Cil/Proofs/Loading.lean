import Cil.PortableExecutable
import Cil.Proofs.MovedAddresses

/-!
Loading executable files. The loader knows only the rules of the format: it finds the headers behind the
old ones, takes the data directories and the section headers from them, and maps an address to the
section that holds it. The headers as they are written are read back.
-/

namespace Cil

open List

open TableStream (readNumber readNumber_le)

namespace Bytes

def readWord (bytes : Bytes) : Option (UInt32 × Bytes) := do
  let (n, rest) ← readNumber 4 bytes
  return (.ofNat n, rest)

def readHalf (bytes : Bytes) : Option (UInt16 × Bytes) := do
  let (n, rest) ← readNumber 2 bytes
  return (.ofNat n, rest)

def skip (count : Nat) (bytes : Bytes) : Option Bytes := (bytes.split? count).map (·.2)

@[simp] theorem readWord_le (n : Nat) (rest : Bytes) :
    readWord (le 4 n ++ rest) = some (.ofNat n, rest) := by
  have split := split?_append (le 4 n) rest
  rw [length_le] at split
  have value : UInt32.ofNat (ofLe (le 4 n)) = .ofNat n := by
    rw [ofLe_le]
    exact UInt32.toNat_inj.1 (by simp)
  simp [readWord, readNumber, split, value]

@[simp] theorem readHalf_le (n : Nat) (rest : Bytes) :
    readHalf (le 2 n ++ rest) = some (.ofNat n, rest) := by
  have split := split?_append (le 2 n) rest
  rw [length_le] at split
  have value : UInt16.ofNat (ofLe (le 2 n)) = .ofNat n := by
    rw [ofLe_le]
    exact UInt16.toNat_inj.1 (by simp)
  simp [readHalf, readNumber, split, value]

theorem skip_append {front : Bytes} {count : Nat} (length : front.length = count) (rest : Bytes) :
    skip count (front ++ rest) = some rest := by
  subst length
  simp [skip]

end Bytes

open Bytes

def Directory.read (bytes : Bytes) : Option (Directory × Bytes) := do
  let (rva, bytes) ← readWord bytes
  let (size, bytes) ← readWord bytes
  return (⟨rva, size⟩, bytes)

@[simp] theorem Directory.read_le (rva size : Nat) (rest : Bytes) :
    Directory.read (le 4 rva ++ (le 4 size ++ rest)) = some (⟨.ofNat rva, .ofNat size⟩, rest) := by
  simp [Directory.read]

def CliHeader.read (bytes : Bytes) : Option (CliHeader × Bytes) := do
  let (headerSize, bytes) ← readWord bytes
  let (majorRuntimeVersion, bytes) ← readHalf bytes
  let (minorRuntimeVersion, bytes) ← readHalf bytes
  let (metadata, bytes) ← Directory.read bytes
  let (flags, bytes) ← readWord bytes
  let (entryPoint, bytes) ← readWord bytes
  let (resources, bytes) ← Directory.read bytes
  let (strongNameSignature, bytes) ← Directory.read bytes
  let (codeManagerTable, bytes) ← Directory.read bytes
  let (vtableFixups, bytes) ← Directory.read bytes
  let (exportAddressTableJumps, bytes) ← Directory.read bytes
  let (managedNativeHeader, bytes) ← Directory.read bytes
  return (⟨headerSize, majorRuntimeVersion, minorRuntimeVersion, metadata, flags, entryPoint, resources,
    strongNameSignature, codeManagerTable, vtableFixups, exportAddressTableJumps,
    managedNativeHeader⟩, bytes)

def Directory.pieces (d : Directory) : List Bytes := [le 4 d.rva.toNat, le 4 d.size.toNat]

def CliHeader.pieces (h : CliHeader) : List Bytes :=
  [le 4 h.headerSize.toNat, le 2 h.majorRuntimeVersion.toNat, le 2 h.minorRuntimeVersion.toNat] ++
    h.metadata.pieces ++ [le 4 h.flags.toNat, le 4 h.entryPoint.toNat] ++ h.resources.pieces ++
    h.strongNameSignature.pieces ++ h.codeManagerTable.pieces ++ h.vtableFixups.pieces ++
    h.exportAddressTableJumps.pieces ++ h.managedNativeHeader.pieces

theorem bind_eq_some {α β : Type} {x : Option α} {f : α → Option β} {a : α} {b : β} (first : x = some a)
    (rest : f a = some b) : (x >>= f) = some b := by
  rw [first]
  exact rest

theorem CliHeader.read_written (h : CliHeader) (rest : Bytes) :
    CliHeader.read (Field.written h.fields ++ rest) = some (h, rest) := by
  have word (n : UInt32) (rest : Bytes) : readWord (le 4 n.toNat ++ rest) = some (n, rest) := by
    rw [readWord_le, UInt32.ofNat_toNat]
  have half (n : UInt16) (rest : Bytes) : readHalf (le 2 n.toNat ++ rest) = some (n, rest) := by
    rw [readHalf_le, UInt16.ofNat_toNat]
  have directory (d : Directory) (rest : Bytes) :
      Directory.read (d.pieces.flatten ++ rest) = some (d, rest) := by
    simp [Directory.pieces]
  rw [show h.fields = h.pieces.map .ok from rfl, Field.written_map_ok]
  simp only [pieces, flatten_append, flatten_cons, flatten_nil, append_nil, append_assoc]
  exact bind_eq_some (word _ _) <| bind_eq_some (half _ _) <| bind_eq_some (half _ _) <|
    bind_eq_some (directory _ _) <| bind_eq_some (word _ _) <| bind_eq_some (word _ _) <|
    bind_eq_some (directory _ _) <| bind_eq_some (directory _ _) <| bind_eq_some (directory _ _) <|
    bind_eq_some (directory _ _) <| bind_eq_some (directory _ _) <| bind_eq_some (directory _ _) rfl

namespace PortableExecutable

variable {s : PlacedSection}

theorem PlacedSection.length_header (short : (ofText s.name).length ≤ 8) : s.header.length = 40 := by
  simp only [header, length_append, length_zeros, length_le]
  omega

theorem Headers.length_directory (h : Headers) (number : Nat) : (h.directory number).length = 8 := by
  rw [directory]
  split <;> simp

theorem Headers.length_directories (h : Headers) :
    ((List.range dataDirectories).flatMap h.directory).length = 128 := by
  simp [length_flatMap, length_directory, dataDirectories]

theorem Headers.length_standardFields (h : Headers) :
    h.standardFields.length = if h.is32Bit then 28 else 24 := by
  rw [standardFields]
  split <;> simp only [length_append, length_le, length_zeros, length_cons, length_nil]

theorem Headers.length_loaderFields (h : Headers) :
    h.loaderFields.length = if h.is32Bit then 64 else 84 := by
  have word (n : Nat) : (h.word n).length = if h.is32Bit then 4 else 8 := by
    rw [Headers.word, length_le]
  delta loaderFields
  simp only [length_append, length_le, length_zeros, word]
  cases h.is32Bit <;> simp

theorem Headers.length_bytes {h : Headers} (short : ∀ s ∈ h.sections, (ofText s.name).length ≤ 8) :
    h.bytes.length = headersSize h.is32Bit h.sections.length := by
  have stub : dosStub.length = 0x80 := by decide +kernel
  have mark : (ofText "PE\x00\x00").length = 4 := by decide +kernel
  have file : h.fileHeader.length = 24 := by simp [fileHeader, mark]
  have table : (h.sections.flatMap (·.header)).length = 40 * h.sections.length := by
    rw [length_flatMap, map_congr_left fun s hs => PlacedSection.length_header (short s hs)]
    simp [Nat.mul_comm]
  simp only [bytes, length_append, stub, file, h.length_standardFields, h.length_loaderFields,
    length_le, h.length_directories, table, headersSize]
  cases h.is32Bit <;> simp

/-- What a section header tells: where a section is loaded and where it stands in the file. -/
structure Mapping where
  size : UInt32
  rva : UInt32
  fileSize : UInt32
  fileOffset : UInt32

def Mapping.read (bytes : Bytes) : Option (Mapping × Bytes) := do
  let bytes ← skip 8 bytes
  let (size, bytes) ← readWord bytes
  let (rva, bytes) ← readWord bytes
  let (fileSize, bytes) ← readWord bytes
  let (fileOffset, bytes) ← readWord bytes
  let bytes ← skip 16 bytes
  return (⟨size, rva, fileSize, fileOffset⟩, bytes)

def readMany {α : Type} (read : Bytes → Option (α × Bytes)) : (count : Nat) → Bytes → Option (List α)
  | 0, _ => some []
  | count + 1, bytes => do
    let (first, bytes) ← read bytes
    let others ← readMany read count bytes
    return first :: others

theorem readMany_flatMap {α β : Type} {read : Bytes → Option (α × Bytes)} {write : β → Bytes}
    {entry : β → α} {items : List β}
    (each : ∀ b ∈ items, ∀ rest, read (write b ++ rest) = some (entry b, rest)) (rest : Bytes) :
    readMany read items.length (items.flatMap write ++ rest) = some (items.map entry) := by
  induction items with
  | nil => rfl
  | cons b items ih =>
    obtain ⟨here, others⟩ := forall_mem_cons.1 each
    rw [length_cons, flatMap_cons, append_assoc, readMany, here]
    simp [ih others]

/-- A file with its headers read. -/
structure Loaded where
  bytes : Bytes
  directories : List Directory
  sections : List Mapping

namespace Loaded

/-- Reads the headers of a file: their offset is at 60, the size of the optional header tells where the
section headers start, and its mark how far in it the data directories do. -/
def read (bytes : Bytes) : Option Loaded := do
  let (start, _) ← readWord (← skip 60 bytes)
  let (mark, rest) ← readWord (← skip start.toNat bytes)
  guard (mark = 0x00004550)
  let (count, rest) ← readHalf (← skip 2 rest)
  let (size, rest) ← readHalf (← skip 12 rest)
  let rest ← skip 2 rest
  let (format, _) ← readHalf rest
  let (directories, entries) ← readWord (← skip (if format = 0x10B then 92 else 108) rest)
  return {
    bytes
    directories := ← readMany Directory.read directories.toNat entries
    sections := ← readMany Mapping.read count.toNat (← skip size.toNat rest) }

variable (f : Loaded)

def section? (rva : Nat) : Option Mapping :=
  f.sections.find? fun s => s.rva.toNat ≤ rva && rva < s.rva.toNat + s.size.toNat

def read? (rva size : Nat) : Option Bytes := do
  let s ← f.section? rva
  let offset := rva - s.rva.toNat
  guard (offset + size ≤ s.size.toNat ∧ offset + size ≤ s.fileSize.toNat)
  let (data, _) ← split? size (f.bytes.drop (s.fileOffset.toNat + offset))
  return data

def range? (d : Directory) : Option Bytes := f.read? d.rva.toNat d.size.toNat

end Loaded

def PlacedSection.mapping (s : PlacedSection) : Mapping :=
  ⟨.ofNat s.size, .ofNat s.rva, .ofNat s.fileSize, .ofNat s.fileOffset⟩

theorem PlacedSection.read_header (short : (ofText s.name).length ≤ 8) (rest : Bytes) :
    Mapping.read (s.header ++ rest) = some (s.mapping, rest) := by
  have name (rest : Bytes) :
      skip 8 (ofText s.name ++ (zeros (8 - (ofText s.name).length) ++ rest)) = some rest := by
    rw [← append_assoc]
    exact skip_append (by rw [length_append, length_zeros]; omega) rest
  have tail (rest : Bytes) : skip 16 (zeros 12 ++ (le 4 s.characteristics ++ rest)) = some rest := by
    rw [← append_assoc]
    exact skip_append (by rw [length_append, length_zeros, length_le]) rest
  simp only [header, Mapping.read, append_assoc, name, readWord_le, tail, Option.bind_eq_bind,
    Option.bind_some]
  rfl

namespace Headers

def entry (h : Headers) (number : Nat) : Directory :=
  match h.directories.find? (·.1 == number) with
  | some (_, rva, size) => ⟨.ofNat rva, .ofNat size⟩
  | none => {}

theorem read_directory (h : Headers) (number : Nat) (rest : Bytes) :
    Directory.read (h.directory number ++ rest) = some (h.entry number, rest) := by
  rw [directory, entry]
  cases h.directories.find? (·.1 == number) with
  | some x =>
    rw [append_assoc]
    exact Directory.read_le ..
  | none => exact Directory.read_le 0 0 rest

theorem exists_standardFields (h : Headers) :
    ∃ rest, h.standardFields = le 2 (if h.is32Bit then 0x10B else 0x20B) ++ rest := by
  simp only [standardFields, append_assoc]
  exact ⟨_, rfl⟩

theorem skip_dosStub (rest : Bytes) :
    skip 60 (dosStub ++ rest) = some (le 4 0x80 ++ (dosStub.drop 64 ++ rest)) := by
  have split : dosStub = dosStub.take 60 ++ (le 4 0x80 ++ dosStub.drop 64) := by decide +kernel
  have front : (dosStub.take 60).length = 60 := by decide +kernel
  nth_rewrite 1 [split]
  rw [append_assoc, skip_append front, append_assoc]

theorem read_bytes {h : Headers} (short : ∀ s ∈ h.sections, (ofText s.name).length ≤ 8)
    (few : h.sections.length < 0x10000) (rest : Bytes) :
    Loaded.read (h.bytes ++ rest) = some {
      bytes := h.bytes ++ rest
      directories := (List.range dataDirectories).map h.entry
      sections := h.sections.map (·.mapping) } := by
  obtain ⟨more, standard⟩ := h.exists_standardFields
  have entries (rest : Bytes) : readMany Directory.read (UInt32.ofNat dataDirectories).toNat
      ((List.range dataDirectories).flatMap h.directory ++ rest) =
        some ((List.range dataDirectories).map h.entry) := by
    rw [show (UInt32.ofNat dataDirectories).toNat = (List.range dataDirectories).length by decide]
    exact readMany_flatMap (fun n _ rest => h.read_directory n rest) rest
  -- The optional header, with what follows it.
  generalize whole : h.standardFields ++ (h.loaderFields ++ (le 4 dataDirectories ++
    ((List.range dataDirectories).flatMap h.directory ++ (h.sections.flatMap (·.header) ++ rest)))) =
      optional
  have format : readHalf optional = some (.ofNat (if h.is32Bit then 0x10B else 0x20B),
      optional.drop 2) := by
    rw [← whole, standard, append_assoc, readHalf_le]
    rfl
  have directories : skip (if UInt16.ofNat
      (if h.is32Bit then 0x10B else 0x20B) = 0x10B then 92 else 108)
      optional = some (le 4 dataDirectories ++ ((List.range dataDirectories).flatMap h.directory ++
        (h.sections.flatMap (·.header) ++ rest))) := by
    rw [← whole, ← append_assoc h.standardFields]
    refine skip_append ?_ _
    rw [length_append, h.length_standardFields, h.length_loaderFields]
    cases h.is32Bit <;> rfl
  have behind : skip (UInt16.ofNat (if h.is32Bit then 0xE0 else 0xF0)).toNat optional =
      some (h.sections.flatMap (·.header) ++ rest) := by
    rw [← whole, ← append_assoc (le 4 _), ← append_assoc h.loaderFields,
      ← append_assoc h.standardFields]
    refine skip_append ?_ _
    rw [length_append, length_append, length_append, h.length_standardFields,
      h.length_loaderFields, length_le, h.length_directories]
    cases h.is32Bit <;> rfl
  have all : h.bytes ++ rest = dosStub ++ (h.fileHeader ++ optional) := by
    rw [← whole]
    simp only [bytes, append_assoc]
  have file : h.fileHeader ++ optional = le 4 0x4550 ++ (le 2 h.machine ++
      (le 2 h.sections.length ++ ((le 4 h.timestamp.toNat ++ zeros 8) ++
        (le 2 (if h.is32Bit then 0xE0 else 0xF0) ++ (le 2 h.characteristics ++ optional))))) := by
    rw [← show ofText "PE\x00\x00" = le 4 0x4550 by decide +kernel]
    simp only [fileHeader, append_assoc]
  have table : readMany Mapping.read (UInt16.ofNat h.sections.length).toNat
      (h.sections.flatMap (·.header) ++ rest) = some (h.sections.map (·.mapping)) := by
    rw [UInt16.toNat_ofNat_of_lt' few]
    exact readMany_flatMap (fun s hs rest => PlacedSection.read_header (short s hs) rest) rest
  rw [all, file]
  -- Where the headers start, and the file header.
  refine bind_eq_some (skip_dosStub _) <| bind_eq_some (readWord_le _ _) <|
    bind_eq_some (skip_append (by decide +kernel) _) <| bind_eq_some (readWord_le _ _) <|
    bind_eq_some (a := ()) (if_pos rfl) <| bind_eq_some (skip_append (length_le ..) _) <|
    bind_eq_some (readHalf_le _ _) <|
    bind_eq_some (skip_append (by rw [length_append, length_le, length_zeros]) _) <|
    bind_eq_some (readHalf_le _ _) <| bind_eq_some (skip_append (length_le ..) _) ?_
  -- The optional header and the section headers behind it.
  exact bind_eq_some format <| bind_eq_some directories <| bind_eq_some (readWord_le _ _) <|
    bind_eq_some (entries _) <| bind_eq_some behind <| bind_eq_some table rfl

end Headers

end PortableExecutable
end Cil
