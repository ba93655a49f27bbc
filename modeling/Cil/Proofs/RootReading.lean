import Cil.Image
import Cil.Proofs.TableReading
import Cil.Proofs.Texts

/-!
Reading the metadata root back. The reader takes the version from the area that its length gives, and the
name of each stream up to its zero byte. What the headers then say of the streams is so: each stands where
its header says, aligned and padded, one behind the other from the end of the headers to the end of all.
-/

namespace Cil

open List

namespace Bytes

theorem roundUp_mod_four (size : Nat) : roundUp 4 size % 4 = 0 := by
  simp only [roundUp, padding]
  omega

end Bytes

namespace Field

theorem written_map_ok (pieces : List Bytes) : written (pieces.map .ok) = pieces.flatten := by
  induction pieces with
  | nil => rfl
  | cons piece pieces ih =>
    rw [written] at ih
    rw [map_cons, written, map_cons, takeWhile_cons_of_pos rfl, flatMap_cons, ih]
    rfl

theorem fill_map_ok {pieces : List Bytes} {room : Nat} (fits : pieces.flatten.length ≤ room) :
    fill room (pieces.map .ok) = .ok pieces.flatten := by
  rw [fill, if_pos (written_map_ok pieces ▸ fits), join_map_ok]

end Field

namespace Metadata

open TableStream (readNumber readNumber_le)

variable {text : String}

def readText (size : Nat) (bytes : Bytes) : Option (String × Bytes) := do
  let (area, rest) ← bytes.split? size
  let text ← Bytes.text? (area.takeWhile (· != 0))
  return (text, rest)

/-- The size of the area of a text whose size is not given: it has a zero byte and fills up to a multiple
of four bytes. -/
def areaSize (bytes : Bytes) : Nat := Bytes.roundUp 4 ((bytes.takeWhile (· != 0)).length + 1)

def StreamHeader.read (bytes : Bytes) : Option (StreamHeader × Bytes) := do
  let (offset, bytes) ← readNumber 4 bytes
  let (size, bytes) ← readNumber 4 bytes
  let (name, bytes) ← readText (areaSize bytes) bytes
  return (⟨.ofNat offset, .ofNat size, name⟩, bytes)

def readHeaders : (count : Nat) → Bytes → Option (List StreamHeader × Bytes)
  | 0, bytes => some ([], bytes)
  | count + 1, bytes => do
    let (h, bytes) ← StreamHeader.read bytes
    let (hs, bytes) ← readHeaders count bytes
    return (h :: hs, bytes)

def Root.read (bytes : Bytes) : Option (Root × Bytes) := do
  let (signature, bytes) ← readNumber 4 bytes
  if signature = 0x424A5342 then
    let (majorVersion, bytes) ← readNumber 2 bytes
    let (minorVersion, bytes) ← readNumber 2 bytes
    let (reserved, bytes) ← readNumber 4 bytes
    let (length, bytes) ← readNumber 4 bytes
    let (version, bytes) ← readText length bytes
    let (flags, bytes) ← readNumber 2 bytes
    let (count, bytes) ← readNumber 2 bytes
    let (streams, bytes) ← readHeaders count bytes
    return ({
      signature := .ofNat signature
      majorVersion := .ofNat majorVersion
      minorVersion := .ofNat minorVersion
      reserved := .ofNat reserved
      version
      flags := .ofNat flags
      streams }, bytes)
  else none

/-- A text without a zero character, which would end it. -/
def Plain (text : String) : Prop := '\x00' ∉ text.toList

instance (text : String) : Decidable (Plain text) := inferInstanceAs (Decidable (_ ∉ _))

def area (text : String) : Bytes :=
  Bytes.ofText text ++ Bytes.zeros (textSize text - (Bytes.ofText text).length)

theorem length_area (text : String) : (area text).length = textSize text := by
  have room : text.utf8ByteSize ≤ textSize text := by
    simp only [textSize, Bytes.roundUp]
    omega
  simp only [area, length_append, Bytes.length_ofText, Bytes.length_zeros]
  omega

theorem takeWhile_area (plain : Plain text) (rest : Bytes) :
    (area text ++ rest).takeWhile (· != 0) = Bytes.ofText text := by
  have zeros : ∃ more, textSize text - (Bytes.ofText text).length = more + 1 := by
    refine ⟨textSize text - text.utf8ByteSize - 1, ?_⟩
    simp only [textSize, Bytes.roundUp, Bytes.length_ofText]
    omega
  obtain ⟨more, zeros⟩ := zeros
  have nonzero : ∀ b ∈ Bytes.ofText text, (b != 0) = true := by
    intro b hb
    have ne : b ≠ 0 := fun same => Bytes.zero_notMem_ofText plain (same ▸ hb)
    simpa using ne
  rw [area, zeros, append_assoc, takeWhile_append_of_pos nonzero]
  simp [Bytes.zeros, replicate_succ]

theorem areaSize_area (plain : Plain text) (rest : Bytes) :
    areaSize (area text ++ rest) = textSize text := by
  rw [areaSize, takeWhile_area plain]
  rfl

theorem readText_area (plain : Plain text) (rest : Bytes) :
    readText (textSize text) (area text ++ rest) = some (text, rest) := by
  have whole := takeWhile_area plain []
  rw [append_nil] at whole
  have split := Bytes.split?_append (area text) rest
  rw [length_area] at split
  rw [readText, split]
  simp [whole, Bytes.text?_ofText]

def StreamHeader.pieces (h : StreamHeader) : List Bytes :=
  [Bytes.le 4 h.offset.toNat, Bytes.le 4 h.size.toNat, area h.name]

def StreamHeader.bytes (h : StreamHeader) : Bytes := h.pieces.flatten

theorem StreamHeader.read_bytes {h : StreamHeader} (plain : Plain h.name) (rest : Bytes) :
    StreamHeader.read (h.bytes ++ rest) = some (h, rest) := by
  have word (n : UInt32) (rest : Bytes) :
      readNumber 4 (Bytes.le 4 n.toNat ++ rest) = some (n.toNat, rest) := readNumber_le n.toNat_lt rest
  simp [StreamHeader.bytes, StreamHeader.pieces, StreamHeader.read, word, areaSize_area plain,
    readText_area plain]

theorem readHeaders_bytes {hs : List StreamHeader} (plain : ∀ h ∈ hs, Plain h.name) (rest : Bytes) :
    readHeaders hs.length (hs.flatMap (·.bytes) ++ rest) = some (hs, rest) := by
  induction hs with
  | nil => rfl
  | cons h hs ih =>
    obtain ⟨first, others⟩ := forall_mem_cons.1 plain
    rw [length_cons, flatMap_cons, append_assoc, readHeaders, StreamHeader.read_bytes first]
    simp [ih others]

theorem flatten_pieces (hs : List StreamHeader) :
    (hs.flatMap (·.pieces)).flatten = hs.flatMap (·.bytes) := by
  simp [List.flatMap, StreamHeader.bytes, flatten_flatten, map_map, Function.comp_def]

namespace Root

def pieces (r : Root) : List Bytes :=
  [Bytes.le 4 r.signature.toNat, Bytes.le 2 r.majorVersion.toNat, Bytes.le 2 r.minorVersion.toNat,
    Bytes.le 4 r.reserved.toNat, Bytes.le 4 (textSize r.version), area r.version,
    Bytes.le 2 r.flags.toNat, Bytes.le 2 r.streams.length] ++ r.streams.flatMap (·.pieces)

def bytes (r : Root) : Bytes := r.pieces.flatten

theorem fields_eq_pieces (r : Root) : r.fields = r.pieces.map .ok := by
  simp only [fields, pieces, map_append, map_flatMap]
  rfl

theorem length_bytes (r : Root) :
    r.bytes.length = encodedSize r.version (r.streams.map (·.name)) := by
  have headers (hs : List StreamHeader) : (hs.flatMap (·.pieces)).flatten.length =
      (hs.map (·.name)).foldr (fun name size => StreamHeader.encodedSize name + size) 0 := by
    induction hs with
    | nil => rfl
    | cons h hs ih =>
      simp only [flatMap_cons, flatten_append, length_append, map_cons, foldr_cons, ih]
      simp [StreamHeader.pieces, length_area, StreamHeader.encodedSize]
      omega
  rw [bytes, pieces, flatten_append, length_append, headers, encodedSize]
  simp [length_area]
  omega

theorem length_bytes_mod_four (r : Root) : r.bytes.length % 4 = 0 := by
  have headers (names : List String) :
      names.foldr (fun name size => StreamHeader.encodedSize name + size) 0 % 4 = 0 := by
    induction names with
    | nil => rfl
    | cons name names ih =>
      have := Bytes.roundUp_mod_four (name.utf8ByteSize + 1)
      rw [foldr_cons, StreamHeader.encodedSize, textSize]
      omega
  have := headers (r.streams.map (·.name))
  have := Bytes.roundUp_mod_four (r.version.utf8ByteSize + 1)
  rw [length_bytes, encodedSize, textSize]
  omega

theorem read_bytes {r : Root} (signature : r.signature = 0x424A5342) (plain : Plain r.version)
    (names : ∀ h ∈ r.streams, Plain h.name) (long : textSize r.version < 0x100000000)
    (few : r.streams.length < 0x10000) (rest : Bytes) : read (r.bytes ++ rest) = some (r, rest) := by
  have word (n : UInt32) (rest : Bytes) :
      readNumber 4 (Bytes.le 4 n.toNat ++ rest) = some (n.toNat, rest) := readNumber_le n.toNat_lt rest
  have half (n : UInt16) (rest : Bytes) :
      readNumber 2 (Bytes.le 2 n.toNat ++ rest) = some (n.toNat, rest) := readNumber_le n.toNat_lt rest
  have length (rest : Bytes) : readNumber 4 (Bytes.le 4 (textSize r.version) ++ rest) =
      some (textSize r.version, rest) := readNumber_le long rest
  have count (rest : Bytes) : readNumber 2 (Bytes.le 2 r.streams.length ++ rest) =
      some (r.streams.length, rest) := readNumber_le few rest
  have headers := readHeaders_bytes names rest
  have known : r.signature.toNat = 0x424A5342 := congrArg UInt32.toNat signature
  rw [bytes, pieces, flatten_append, flatten_pieces]
  simp only [flatten_cons, flatten_nil, append_nil, append_assoc, read, word, half,
    length, count, readText_area plain, headers, Option.bind_eq_bind, Option.bind_some, if_pos known]
  simp

end Root

/-- Where a header says, and only there, stands a stream with its padding. -/
structure StreamHeader.Holds (h : StreamHeader) (out : Bytes) (name : String) (data : Bytes) :
    Prop where
  name : h.name = name
  aligned : h.offset.toNat % 4 = 0
  size : h.size.toNat = Bytes.roundUp 4 data.length
  slice : (out.drop h.offset.toNat).take h.size.toNat = Bytes.padTo 4 data

/-- Streams follow one another from one offset to another. -/
def Abut : (start : Nat) → List StreamHeader → (stop : Nat) → Prop
  | start, [], stop => start = stop
  | start, h :: hs, stop => h.offset.toNat = start ∧ Abut (start + h.size.toNat) hs stop

end Metadata

namespace Image

open Metadata

def streamBytes (streams : List (String × Bytes)) : Bytes := streams.flatMap fun s => Bytes.padTo 4 s.2

theorem map_name_streamHeaders (offset : Nat) (streams : List (String × Bytes)) :
    (streamHeaders offset streams).map (·.name) = streams.map (·.1) := by
  induction streams generalizing offset with
  | nil => rfl
  | cons s streams ih => exact congrArg (s.1 :: ·) (ih _)

theorem holds_streamHeaders (front : Bytes) (aligned : front.length % 4 = 0)
    (streams : List (String × Bytes)) {out : Bytes} (all : out = front ++ streamBytes streams)
    (small : out.length < 0x100000000) :
    List.Forall₂ (fun h s => h.Holds out s.1 s.2) (streamHeaders front.length streams) streams ∧
      Abut front.length (streamHeaders front.length streams) out.length := by
  induction streams generalizing front with
  | nil =>
    subst all
    exact ⟨.nil, by simp [streamHeaders, streamBytes, Abut]⟩
  | cons s streams ih =>
    obtain ⟨name, data⟩ := s
    have padded : (Bytes.padTo 4 data).length = Bytes.roundUp 4 data.length := Bytes.length_padTo 4 data
    have next : (front ++ Bytes.padTo 4 data).length = front.length + Bytes.roundUp 4 data.length := by
      rw [length_append, padded]
    have length : out.length = front.length +
        (Bytes.roundUp 4 data.length + (streamBytes streams).length) := by
      rw [all, streamBytes, flatMap_cons, length_append, length_append, padded]
      rfl
    have offset : (UInt32.ofNat front.length).toNat = front.length :=
      UInt32.toNat_ofNat_of_lt' (show front.length < 0x100000000 by omega)
    have size : (UInt32.ofNat (Bytes.roundUp 4 data.length)).toNat = Bytes.roundUp 4 data.length :=
      UInt32.toNat_ofNat_of_lt' (show Bytes.roundUp 4 data.length < 0x100000000 by omega)
    obtain ⟨rest, abut⟩ := ih (front ++ Bytes.padTo 4 data)
      (by have := Bytes.roundUp_mod_four data.length; omega)
      (by rw [all, streamBytes, flatMap_cons, append_assoc]; rfl)
    rw [next] at rest abut
    refine ⟨.cons ⟨rfl, ?_, size, ?_⟩ rest, offset, ?_⟩
    · rw [offset, aligned]
    · rw [offset, size, all, streamBytes, flatMap_cons, drop_left, ← padded, take_left]
    · rw [size]
      exact abut

theorem streams_sublist (image : Image) (tableStream : Bytes) :
    ((image.streams tableStream).map (·.1)).Sublist ["#~", "#Strings", "#US", "#GUID", "#Blob"] := by
  rw [streams]
  split <;> split <;> simp

def rootOf (image : Image) (tableStream : Bytes) : Root :=
  let streams := image.streams tableStream
  let size := Root.encodedSize image.metadataVersion (streams.map (·.1))
  { version := image.metadataVersion, streams := streamHeaders size streams }

theorem length_rootOf (image : Image) (tableStream : Bytes) : (image.rootOf tableStream).bytes.length =
    Root.encodedSize image.metadataVersion ((image.streams tableStream).map (·.1)) := by
  rw [Root.length_bytes, rootOf, map_name_streamHeaders]

/-- The metadata is its root and the streams, whenever the stream of tables can be written. -/
theorem metadataAt_eq_ok {image : Image} {p : Placement} {tableStream : Bytes}
    (encoded : TableStream.encode image.heapSizes (image.placedTables p) = .ok tableStream) :
    image.metadataAt p = .ok ((image.rootOf tableStream).bytes ++
      streamBytes (image.streams tableStream)) := by
  have filled := Field.fill_map_ok (Nat.le_of_eq (image.length_rootOf tableStream))
  rw [← Root.fields_eq_pieces] at filled
  rw [metadataAt, encoded]
  change (Field.fill _ (image.rootOf tableStream).fields >>= fun front => pure (front ++ _)) = _
  rw [filled]
  rfl

/-- The root reads back with the version, and its headers tell where each stream stands. -/
theorem written_root_reads_back {image : Image} {p : Placement} {tableStream : Bytes}
    (encoded : TableStream.encode image.heapSizes (image.placedTables p) = .ok tableStream)
    (plain : Plain image.metadataVersion) :
    ∃ out, image.metadataAt p = .ok out ∧ (out.length < 0x100000000 → ∃ root rest,
      Root.read out = some (root, rest) ∧ root.version = image.metadataVersion ∧
      List.Forall₂ (fun h s => h.Holds out s.1 s.2) root.streams
        ([("#~", tableStream), ("#Strings", image.strings.bytes.toList)] ++
          (if 1 < image.userStrings.size then [("#US", image.userStrings.bytes.toList)] else []) ++
          (if image.guids.isEmpty then [] else [("#GUID", image.guids.toList)]) ++
          [("#Blob", image.blobs.bytes.toList)]) ∧
      rest <:+ out ∧ Abut (out.length - rest.length) root.streams out.length) := by
  refine ⟨_, metadataAt_eq_ok encoded, fun small => ?_⟩
  generalize same : image.rootOf tableStream = root at small
  have version : root.version = image.metadataVersion := same ▸ rfl
  have headers : root.streams = streamHeaders root.bytes.length (image.streams tableStream) := by
    rw [← same, length_rootOf]
    rfl
  have holds := holds_streamHeaders root.bytes root.length_bytes_mod_four
    (image.streams tableStream) rfl small
  refine ⟨root, streamBytes (image.streams tableStream), ?_, version, ?_, List.suffix_append _ _, ?_⟩
  · have names := streams_sublist image tableStream
    rw [← map_name_streamHeaders root.bytes.length, ← headers] at names
    have size := root.length_bytes
    rw [List.length_append] at small
    refine Root.read_bytes (same ▸ rfl) (version ▸ plain) ?_ ?_ ?_ _
    · intro h listed
      have known := names.subset (List.mem_map_of_mem listed)
      have all : ∀ name ∈ ["#~", "#Strings", "#US", "#GUID", "#Blob"], Plain name := by decide
      exact all _ known
    · rw [Root.encodedSize] at size
      omega
    · have few := names.length_le
      simp at few
      omega
  · rw [headers]
    exact holds.1
  · rw [List.length_append, Nat.add_sub_cancel, headers]
    rw [List.length_append] at holds
    exact holds.2

def note : Image where
  tables := { module := #[⟨0, ⟨1⟩, ⟨1⟩, ⟨0⟩, ⟨0⟩⟩] }
  strings := ⟨#[0, 0x48, 0x69, 0], #[("Hi", 1)]⟩
  blobs := {}
  guids := Array.replicate 18 0
  userStrings := ⟨#[0, 3, 0x48, 0, 0], #[("H", 1)]⟩
  bodies := #[]
  bodyRanges := #[]
  staticData := {}
  fieldData := #[]
  resources := {}
  entryPoint := 0
  metadataVersion := "v4.0"
  strongName := false

theorem placedTables_note : note.placedTables {} = note.tables := by
  simp [placedTables, zipRows, note]

theorem evaluates_note :
    (TableStream.encode note.heapSizes (note.placedTables {})).toOption.isSome ∧
      (note.metadataAt {}).toOption.map List.length = some 180 := by
  rw [metadataAt, placedTables_note]
  decide +kernel

theorem written_root_reads_back_note :
    ∃ tableStream out root rest, TableStream.encode note.heapSizes
    (note.placedTables {}) = .ok tableStream ∧
      Plain note.metadataVersion ∧ note.metadataAt {} = .ok out ∧ out.length = 180 ∧
      Root.read out = some (root, rest) ∧ root.version = "v4.0" ∧
      List.Forall₂ (fun h s => h.Holds out s.1 s.2) root.streams
        [("#~", tableStream), ("#Strings", [0, 0x48, 0x69, 0]), ("#US", [0, 3, 0x48, 0, 0]),
          ("#GUID", List.replicate 18 0), ("#Blob", [0])] ∧
      rest <:+ out ∧ Abut (out.length - rest.length) root.streams out.length := by
  obtain ⟨tables, whole⟩ := evaluates_note
  obtain ⟨tableStream, encoded⟩ : ∃ bytes,
    TableStream.encode note.heapSizes (note.placedTables {}) = .ok bytes := by
    cases result : TableStream.encode note.heapSizes (note.placedTables {}) with
    | ok bytes => exact ⟨bytes, rfl⟩
    | error e => simp [result, Except.toOption] at tables
  have plain : Plain note.metadataVersion := by decide
  obtain ⟨out, written, back⟩ := written_root_reads_back encoded plain
  have length : out.length = 180 := by simpa [written, Except.toOption] using whole
  obtain ⟨root, rest, read, version, holds, suffix, abut⟩ := back (by omega)
  exact ⟨tableStream, out, root, rest, encoded, plain, written, length, read, version, holds, suffix,
    abut⟩

end Image
end Cil
