import Cil.Proofs.Loading
import Mathlib.Data.List.Pairwise

/-!
Where the parts of an executable file stand. All that is known of the writer of the file is that it
keeps sections in their order, aligned and apart, puts their contents where it says, and tells the loader
so. The parts of the section of the image follow one another within it, and a signature changes nothing
outside its room; so what a section holds is found at its address.
-/

namespace Cil

open List

variable {offset : Nat} {data : Bytes}

namespace Bytes

theorem le_roundUp (alignment size : Nat) : size ≤ roundUp alignment size := Nat.le_add_right ..

theorem roundUp_mod {alignment : Nat} (pos : 0 < alignment) (size : Nat) :
    roundUp alignment size % alignment = 0 := by
  have below := Nat.mod_lt size pos
  have whole := Nat.div_add_mod size alignment
  rw [roundUp, padding]
  by_cases aligned : size % alignment = 0
  · rw [aligned, Nat.sub_zero, Nat.mod_self, Nat.add_zero, aligned]
  · have next : size + (alignment - size % alignment) = alignment * (size / alignment + 1) := by
      rw [Nat.mul_add]
      omega
    rw [Nat.mod_eq_of_lt (a := alignment - size % alignment) (by omega), next, Nat.mul_mod_right]

theorem roundUp_lt {alignment : Nat} (pos : 0 < alignment) (size : Nat) :
    roundUp alignment size < size + alignment :=
  Nat.add_lt_add_left (Nat.mod_lt _ pos) size

theorem prefix_drop_trans {part bytes : Bytes} {inner : Nat} (outside : data <+: bytes.drop offset)
    (inside : part <+: data.drop inner) : part <+: bytes.drop (offset + inner) := by
  obtain ⟨rest, same⟩ := outside
  refine inside.trans ?_
  rw [← drop_drop, ← same, drop_append]
  exact prefix_append ..

/-- The parts stand one behind another from a position on. -/
def Ordered : (position : Nat) → List (Nat × Bytes) → Prop
  | _, [] => True
  | position, (start, part) :: rest => position ≤ start ∧ Ordered (start + part.length) rest

theorem Ordered.le {position : Nat} {parts : List (Nat × Bytes)} (ordered : Ordered position parts)
    {x : Nat × Bytes} (h : x ∈ parts) : position ≤ x.1 := by
  induction parts generalizing position with
  | nil => cases h
  | cons y parts ih =>
    rcases mem_cons.1 h with rfl | later
    · exact ordered.1
    · have := ih ordered.2 later
      have := ordered.1
      omega

theorem Ordered.prefix_drop {position : Nat} {parts : List (Nat × Bytes)}
    (ordered : Ordered position parts) {x : Nat × Bytes} (h : x ∈ parts) :
    x.2 <+: (spread position parts).drop (x.1 - position) := by
  induction parts generalizing position with
  | nil => cases h
  | cons y parts ih =>
    obtain ⟨start, part⟩ := y
    obtain ⟨first, rest⟩ := ordered
    have gap : (zeros (start - position)).length = start - position := length_zeros _
    rcases mem_cons.1 h with rfl | later
    · have here : (zeros (start - position) ++ (part ++ spread (start + part.length) parts)).drop
          (zeros (start - position)).length = _ := drop_left
      rw [gap] at here
      rw [spread, append_assoc, here]
      exact prefix_append ..
    · have behind := rest.le later
      have front : (zeros (start - position) ++ part).length = start + part.length - position := by
        rw [length_append, gap]
        omega
      have stands : x.1 - position = (zeros (start - position) ++ part).length +
          (x.1 - (start + part.length)) := by omega
      rw [spread, stands, ← drop_drop, drop_left]
      exact ih rest later

end Bytes

namespace PortableExecutable

open Bytes

variable {s : PlacedSection} {metadata : Bytes}

namespace TextSection

variable {t : TextSection}

theorem length_jump (addressTable : Nat) : (t.jump addressTable).length = t.jumpSize := by
  rw [jump, jumpSize]
  split <;> simp

theorem length_cliHeader (rva : Nat) : (Field.written (t.cliHeader rva).fields).length =
    CliHeader.size := by
  simp [Field.written, CliHeader.fields, CliHeader.size, Field.word, Field.half, Except.toOption]

theorem ordered_parts (rva addressTable : Nat) (size : metadata.length = t.metadataSize) :
    Ordered 0 (t.parts rva addressTable metadata) := by
  refine ⟨Nat.le_refl 0, ?_, ?_, ?_, ?_, ?_, ?_, trivial⟩
  · rw [length_jump, Nat.zero_add]
    exact le_roundUp ..
  · exact le_roundUp ..
  · exact le_roundUp ..
  · rw [size]
    exact Nat.le_refl _
  · exact le_roundUp ..
  · rw [length_zeros]
    exact le_roundUp ..

theorem signature_le_header (t : TextSection) :
    t.signature + t.signatureSize.getD 0 ≤ t.header := le_roundUp ..

theorem length_bytes (rva addressTable : Nat) (size : metadata.length = t.metadataSize) :
    (t.bytes rva addressTable metadata).length = t.size := by
  obtain ⟨_, jump, bodies, data, metadata', resources, signature, _⟩ :=
    ordered_parts (t := t) rva addressTable size
  simp only [length_zeros] at *
  simp only [TextSection.bytes, parts, spread, length_append, length_zeros, length_cliHeader,
    length_nil, TextSection.size]
  omega

end TextSection

theorem Imports.length_bytes (i : Imports) :
    i.bytes.length = names.length + (if i.is32Bit then 16 else 32) + 40 := by
  cases h : i.is32Bit <;> simp [bytes, table, h]

namespace PlacedSection

variable {rva fileOffset : Nat}

theorem toSection_place (rva fileOffset : Nat) (sections : List Section) :
    (place rva fileOffset sections).map (·.toSection) = sections := by
  induction sections generalizing rva fileOffset with
  | nil => rfl
  | cons s sections ih => exact congrArg (s :: ·) (ih _ _)

/-- Sections are aligned, and come later in memory than in the file. -/
structure Aligned (rva fileOffset : Nat) : Prop where
  memory : rva % sectionAlignment = 0
  file : fileOffset % fileAlignment = 0
  le : fileOffset ≤ rva

theorem Aligned.next (h : Aligned rva fileOffset) (s : Section) :
    Aligned (roundUp sectionAlignment (rva + s.size)) (fileOffset + s.fileSize) := by
  have memory := roundUp_mod (show 0 < sectionAlignment by decide) (rva + s.size)
  have file := roundUp_mod (show 0 < fileAlignment by decide) s.size
  have := le_roundUp sectionAlignment (rva + s.size)
  have := roundUp_lt (show 0 < fileAlignment by decide) s.size
  obtain ⟨aligned, file', le⟩ := h
  simp only [Section.fileSize, sectionAlignment, fileAlignment] at *
  exact ⟨memory, by simp only [fileAlignment]; omega, by omega⟩

theorem aligned_of_mem (h : Aligned rva fileOffset) {sections : List Section}
    (hs : s ∈ place rva fileOffset sections) :
    rva ≤ s.rva ∧ fileOffset ≤ s.fileOffset ∧ Aligned s.rva s.fileOffset := by
  induction sections generalizing rva fileOffset with
  | nil => cases hs
  | cons first sections ih =>
    rcases mem_cons.1 hs with rfl | later
    · exact ⟨Nat.le_refl _, Nat.le_refl _, h⟩
    · obtain ⟨memory, file, aligned⟩ := ih (h.next first) later
      have := le_roundUp sectionAlignment (rva + first.size)
      exact ⟨by omega, by omega, aligned⟩

/-- One section ends before the other starts, in memory and in the file. -/
structure Before (a b : PlacedSection) : Prop where
  memory : a.rva + a.size ≤ b.rva
  file : a.fileOffset + a.fileSize ≤ b.fileOffset

theorem pairwise_place (h : Aligned rva fileOffset) (sections : List Section) :
    (place rva fileOffset sections).Pairwise Before := by
  induction sections generalizing rva fileOffset with
  | nil => exact .nil
  | cons first sections ih =>
    refine .cons (fun s hs => ?_) (ih (h.next first))
    obtain ⟨memory, file, _⟩ := aligned_of_mem (h.next first) hs
    exact ⟨Nat.le_trans (le_roundUp ..) memory, file⟩

theorem prefix_drop_place (h : Aligned rva fileOffset) {sections : List Section}
    {contents : List (PlacedSection × Bytes)}
    (placed : contents.map (·.1) = place rva fileOffset sections)
    (size : ∀ x ∈ contents, x.2.length = x.1.size) {x : PlacedSection × Bytes} (hx : x ∈ contents) :
    x.2 <+: (contents.flatMap fun x => padTo fileAlignment x.2).drop
      (x.1.fileOffset - fileOffset) := by
  induction sections generalizing rva fileOffset contents with
  | nil =>
    rw [map_eq_nil_iff.1 placed] at hx
    cases hx
  | cons first sections ih =>
    obtain ⟨⟨_, content⟩, contents, rfl, rfl, others⟩ := map_eq_cons_iff.1 placed
    obtain ⟨here, sizes⟩ := forall_mem_cons.1 size
    rw [flatMap_cons]
    rcases mem_cons.1 hx with rfl | later
    · simp [padTo]
    · have length : (padTo fileAlignment content).length = first.fileSize := by
        rw [length_padTo, here]
        rfl
      have behind := (aligned_of_mem (h.next first) (others ▸ mem_map_of_mem later)).2.1
      have stands : x.1.fileOffset - fileOffset = first.fileSize +
          (x.1.fileOffset - (fileOffset + first.fileSize)) := by omega
      rw [stands, ← drop_drop, ← length, drop_left, length]
      exact ih (h.next first) others sizes later

theorem find?_name {sections : List PlacedSection} (nodup : (sections.map (·.name)).Nodup)
    (h : s ∈ sections) : sections.find? (·.name == s.name) = some s := by
  induction sections with
  | nil => cases h
  | cons first sections ih =>
    rw [map_cons, nodup_cons] at nodup
    rcases mem_cons.1 h with rfl | later
    · exact List.find?_cons_of_pos (by simp)
    · have other : first.name ≠ s.name := fun same =>
        nodup.1 (same ▸ mem_map_of_mem later)
      rw [List.find?_cons_of_neg (by simpa using other)]
      exact ih nodup.2 later

end PlacedSection

/-- What a writer has to do for a file with some sections. -/
structure FileWriter.Serves (w : FileWriter) (is32Bit : Bool) (sections : List Section) : Prop where
  kept : (w.place is32Bit sections).map (·.toSection) = sections
  aligned : ∀ s ∈ w.place is32Bit sections, s.rva % sectionAlignment = 0 ∧
    s.fileOffset % fileAlignment = 0
  apart : (w.place is32Bit sections).Pairwise PlacedSection.Before
  /-- Addresses and offsets have 32 bits. -/
  small : ∀ s ∈ w.place is32Bit sections, s.rva + s.size < 0x100000000 ∧
    s.fileOffset + s.fileSize < 0x100000000
  /-- Contents stand at the offsets of their sections. -/
  puts (h : Headers) (contents : List (PlacedSection × Bytes)) :
    h.is32Bit = is32Bit → h.sections = w.place is32Bit sections →
    contents.map (·.1) = w.place is32Bit sections → (∀ x ∈ contents, x.2.length = x.1.size) →
    ∀ x ∈ contents, x.2 <+: (w.bytes h contents).drop x.1.fileOffset
  /-- Before the sections stand headers, from which the data directories and the places of the sections
  are read whatever follows. -/
  tells (h : Headers) (contents : List (PlacedSection × Bytes)) :
    h.is32Bit = is32Bit → h.sections = w.place is32Bit sections →
    ∃ front, front <+: w.bytes h contents ∧
      (∀ s ∈ w.place is32Bit sections, front.length ≤ s.fileOffset) ∧
      ∀ rest, Loaded.read (front ++ rest) = some {
        bytes := front ++ rest
        directories := (List.range dataDirectories).map h.entry
        sections := h.sections.map (·.mapping) }
  relocation (address : Nat) : (w.relocations address).length = w.relocationSize

namespace FileWriter

variable {is32Bit : Bool} {sections : List Section}

/-- Where the headers of the sections end. -/
def headersEnd (is32Bit : Bool) (sections : List Section) : Nat :=
  roundUp fileAlignment (headersSize is32Bit sections.length)

theorem aligned_start (is32Bit : Bool) (sections : List Section) :
    PlacedSection.Aligned (roundUp sectionAlignment (headersEnd is32Bit sections))
      (headersEnd is32Bit sections) :=
  ⟨roundUp_mod (by decide) _, roundUp_mod (by decide) _, le_roundUp ..⟩

theorem length_placeAll (is32Bit : Bool) (sections : List Section) :
    (PlacedSection.placeAll is32Bit sections).length = sections.length := by
  have kept := congrArg List.length (PlacedSection.toSection_place
    (roundUp sectionAlignment (headersEnd is32Bit sections)) (headersEnd is32Bit sections) sections)
  rwa [length_map] at kept

theorem length_headers {h : Headers} (format : h.is32Bit = is32Bit)
    (placed : h.sections = PlacedSection.placeAll is32Bit sections)
    (short : ∀ s ∈ h.sections, (ofText s.name).length ≤ 8) :
    (padTo fileAlignment h.bytes).length = headersEnd is32Bit sections := by
  rw [length_padTo, Headers.length_bytes short, format, placed, length_placeAll]
  rfl

/-- Sections with short names are served as long as they have addresses of 32 bits. -/
theorem standard_serves (short : ∀ s ∈ sections, (ofText s.name).length ≤ 8)
    (few : sections.length < 0x10000)
    (small : ∀ s ∈ PlacedSection.placeAll is32Bit sections, s.rva + s.size < 0x100000000 ∧
      s.fileOffset + s.fileSize < 0x100000000) : standard.Serves is32Bit sections := by
  have start := aligned_start is32Bit sections
  have kept := PlacedSection.toSection_place
    (roundUp sectionAlignment (headersEnd is32Bit sections)) (headersEnd is32Bit sections) sections
  have known {s : PlacedSection} (h : s ∈ PlacedSection.placeAll is32Bit sections) :=
    PlacedSection.aligned_of_mem start h
  have named {s : PlacedSection} (h : s ∈ PlacedSection.placeAll is32Bit sections) :
      (ofText s.name).length ≤ 8 := short s.toSection (kept ▸ mem_map_of_mem h)
  refine ⟨kept, fun s h => ⟨(known h).2.2.memory, (known h).2.2.file⟩,
    PlacedSection.pairwise_place start sections, small, ?_, ?_, fun address => ?_⟩
  · intro h contents format (placed : h.sections = PlacedSection.placeAll is32Bit sections) listed size
      x hx
    have whole := length_headers format placed fun s hs => named (placed ▸ hs)
    have behind := (known (listed ▸ mem_map_of_mem hx)).2.1
    have split : x.1.fileOffset = (padTo fileAlignment h.bytes).length +
        (x.1.fileOffset - headersEnd is32Bit sections) := by omega
    rw [standard, split, ← drop_drop, drop_left]
    exact PlacedSection.prefix_drop_place start listed size hx
  · intro h contents format (placed : h.sections = PlacedSection.placeAll is32Bit sections)
    have whole := length_headers format placed fun s hs => named (placed ▸ hs)
    refine ⟨h.bytes, ?_, fun s hs => ?_, Headers.read_bytes (fun s hs => named (placed ▸ hs)) ?_⟩
    · exact (prefix_append ..).trans (prefix_append ..)
    · have := (known hs).2.1
      rw [length_padTo] at whole
      exact Nat.le_trans (whole ▸ le_roundUp ..) this
    · rw [placed, length_placeAll]
      exact few
  · simp [standard]

end FileWriter

section

variable {w : FileWriter} {t : TextSection} {f : File}

variable (serves : w.Serves t.is32Bit (sections w t))

include serves

theorem FileWriter.Serves.mem_sections (h : s ∈ placed w t) : s.toSection ∈ sections w t :=
  serves.kept ▸ mem_map_of_mem h

theorem FileWriter.Serves.exists_placed {s : Section} (h : s ∈ sections w t) :
    ∃ p ∈ placed w t, p.toSection = s := by
  rw [← serves.kept] at h
  exact mem_map.1 h

theorem FileWriter.Serves.exists_text : ∃ s ∈ placed w t, s.name = ".text" ∧ s.size = t.size := by
  have text : (⟨".text", Section.code + Section.execute + Section.readable, t.size⟩ : Section) ∈
      sections w t := by
    simp [sections]
  obtain ⟨s, known, same⟩ := serves.exists_placed text
  exact ⟨s, known, congrArg Section.name same, congrArg Section.size same⟩

omit serves in
theorem names_sublist (w : FileWriter) (t : TextSection) :
    ((sections w t).map (·.name)).Sublist [".idata", ".text", ".sdata", ".tls", ".reloc"] := by
  simp only [sections]
  split <;> split <;> split <;> simp

theorem FileWriter.Serves.nodup_placed : ((placed w t).map (·.name)).Nodup := by
  have names := congrArg (List.map Section.name) serves.kept
  rw [map_map] at names
  exact (names ▸ names_sublist w t).nodup (by decide)

theorem FileWriter.Serves.rvaOf_placed (h : s ∈ placed w t) :
    PlacedSection.rvaOf (placed w t) s.name = s.rva := by
  rw [PlacedSection.rvaOf, PlacedSection.find?_name serves.nodup_placed h]
  rfl

theorem FileWriter.Serves.fileOffsetOf_placed (h : s ∈ placed w t) :
    PlacedSection.fileOffsetOf (placed w t) s.name = s.fileOffset := by
  rw [PlacedSection.fileOffsetOf, PlacedSection.find?_name serves.nodup_placed h]
  rfl

theorem FileWriter.Serves.length_content (size : metadata.length = t.metadataSize) {s : Section}
    (h : s ∈ sections w t) : (content w t metadata s.name).length = s.size := by
  simp only [sections, mem_append, mem_ite_nil_right, mem_singleton] at h
  rcases h with (((⟨_, rfl⟩ | rfl) | ⟨_, rfl⟩) | ⟨_, rfl⟩) | ⟨_, rfl⟩
  · simp only [content, imports, Imports.length_bytes]
  · exact TextSection.length_bytes _ _ size
  · simp [content]
  · simp [content]
  · exact serves.relocation _

omit serves in
theorem length_name {s : Section} (h : s ∈ sections w t) : (ofText s.name).length ≤ 8 := by
  have known : s.name ∈ [".idata", ".text", ".sdata", ".tls", ".reloc"] :=
    (names_sublist w t).subset (mem_map_of_mem h)
  rw [length_ofText]
  exact (by decide : ∀ name ∈ [".idata", ".text", ".sdata", ".tls", ".reloc"],
    String.utf8ByteSize name ≤ 8) _ known

def unsigned (w : FileWriter) (t : TextSection) (timestamp : UInt32) (metadata : Bytes) : Bytes :=
  w.bytes (headers w t timestamp) ((placed w t).map fun s => (s, content w t metadata s.name))

theorem FileWriter.Serves.content_stands (size : metadata.length = t.metadataSize)
    (timestamp : UInt32) (h : s ∈ placed w t) :
    content w t metadata s.name <+: (unsigned w t timestamp metadata).drop s.fileOffset := by
  refine serves.puts (headers w t timestamp) _ rfl rfl ?_ ?_
    (s, content w t metadata s.name) (mem_map_of_mem h)
  · rw [map_map]
    exact map_id _
  · intro x hx
    obtain ⟨s, hs, rfl⟩ := mem_map.1 hx
    exact serves.length_content size (serves.mem_sections hs)

/-- The file is the one of a section that holds an image, with its metadata. -/
structure File.Holds (f : File) (w : FileWriter) (t : TextSection) (timestamp : UInt32)
    (metadata : Bytes) : Prop where
  measured : metadata.length = t.metadataSize
  bytes : f.bytes = unsigned w t timestamp metadata
  signature : f.signature = t.signatureSize.map fun size =>
    (PlacedSection.fileOffsetOf (placed w t) ".text" + t.signature, size)

omit serves in
theorem file_eq_ok {image : Image} {options : Options} {signerSize : Option Nat}
    (h : file w image options signerSize = .ok f) :
    ∃ t metadata, textSection image options signerSize = .ok t ∧ t.image = image ∧
      image.metadataAt (placement w t) = .ok metadata ∧
      f.Holds w t options.timestamp metadata := by
  have encoded {e : Except EncodingError Bytes} {bytes : Bytes}
      (h : e.mapError Error.encoding = .ok bytes) : e = .ok bytes := by
    cases e with
    | error e => cases h
    | ok made => exact congrArg _ (Except.ok.inj h)
  obtain ⟨t, laid, rest⟩ := Except.bind_eq_ok.1 h
  obtain ⟨metadata, made, same⟩ := Except.bind_eq_ok.1 rest
  obtain rfl := Except.ok.inj same
  obtain ⟨first, measured, built⟩ := Except.bind_eq_ok.1 laid
  obtain rfl := Except.ok.inj built
  exact ⟨_, metadata, laid, rfl, encoded made,
    Image.length_metadataAt_congr (encoded made) (encoded measured), rfl, rfl⟩

/-- The room of a signature, in the file. -/
def File.InRoom (f : File) (i : Nat) : Prop :=
  ∃ offset size, f.signature = some (offset, size) ∧ offset ≤ i ∧ i < offset + size

/-- Some bytes are those of a file, but for its signature. -/
def File.Agrees (f : File) (out : Bytes) : Prop := ∀ i, ¬ f.InRoom i → out[i]? = f.bytes[i]?

omit serves in
theorem File.Agrees.prefix_drop {out : Bytes} (agrees : f.Agrees out)
    (h : data <+: f.bytes.drop offset) (outside : ∀ i < data.length, ¬ f.InRoom (offset + i)) :
    data <+: out.drop offset := by
  rw [prefix_drop_iff] at h ⊢
  intro i inside
  rw [agrees _ (outside i inside), h i inside]

theorem File.Holds.room {timestamp : UInt32} (h : f.Holds w t timestamp metadata)
    (known : s ∈ placed w t) (name : s.name = ".text") {size : Nat}
    (room : f.signature = some (offset, size)) :
    offset = s.fileOffset + t.signature ∧ t.signature + size ≤ t.header := by
  rw [h.signature, ← name, serves.fileOffsetOf_placed known, Option.map_eq_some_iff] at room
  obtain ⟨size', given, equal⟩ := room
  obtain ⟨rfl, rfl⟩ := Prod.mk.inj equal
  have before := t.signature_le_header
  rw [given, Option.getD_some] at before
  exact ⟨rfl, before⟩

theorem File.Holds.room_inside {timestamp : UInt32} (h : f.Holds w t timestamp metadata) {size : Nat}
    (room : f.signature = some (offset, size)) : offset + size ≤ f.bytes.length := by
  obtain ⟨s, known, name, sized⟩ := serves.exists_text
  have length : (content w t metadata s.name).length = t.size :=
    (serves.length_content h.measured (serves.mem_sections known)).trans sized
  have stands := (serves.content_stands h.measured timestamp known).length_le
  rw [length, length_drop, ← h.bytes] at stands
  obtain ⟨rfl, before⟩ := h.room serves known name room
  have behind : t.size = t.header + 72 := rfl
  omega

omit serves in
theorem agrees_patch {signature : Bytes} (room : f.signature = some (offset, signature.length))
    (inside : offset + signature.length ≤ f.bytes.length) :
    f.Agrees (f.bytes.take offset ++ signature ++ f.bytes.drop (offset + signature.length)) := by
  intro i outside
  have front : (f.bytes.take offset).length = offset := length_take_of_le (by omega)
  by_cases before : i < offset
  · rw [append_assoc, List.getElem?_append_left (by omega), List.getElem?_take_of_lt before]
  · have behind : offset + signature.length ≤ i := by
      by_contra within
      exact outside ⟨offset, signature.length, room, by omega, by omega⟩
    have rest : offset + signature.length + (i - (offset + signature.length)) = i := by omega
    rw [List.getElem?_append_right (by rw [length_append, front]; exact behind),
      length_append, front, List.getElem?_drop, rest]

omit serves in
theorem run_write {σ : Type} (image : Image) (options : Options) (signer : Option (Signer σ))
    (state : σ) :
    (write w image options signer).run state =
      match file w image options (signer.map (·.signatureSize)) with
      | .ok f => (match signer with
        | some signer => f.sign signer
        | none => pure f.bytes : Service σ Bytes).run state
      | .error e => (.error e, state) := by
  have first : (ExceptT.mk (pure (file w image options (signer.map (·.signatureSize)))) :
      Service σ File).run state = (file w image options (signer.map (·.signatureSize)), state) := rfl
  rw [write, Service.run_bind, first]
  cases file w image options (signer.map (·.signatureSize)) <;> rfl

theorem agrees_of_write {σ : Type} {image : Image} {options : Options} {signer : Option (Signer σ)}
    {out : Bytes} {state state' : σ}
    (h : (write w image options signer).run state = (.ok out, state'))
    (laid : textSection image options (signer.map (·.signatureSize)) = .ok t) :
    ∃ f, file w image options (signer.map (·.signatureSize)) = .ok f ∧ f.Agrees out := by
  rw [run_write] at h
  cases made : file w image options (signer.map (·.signatureSize)) with
  | error e =>
    rw [made] at h
    cases h
  | ok f =>
    refine ⟨f, rfl, ?_⟩
    rw [made] at h
    dsimp only at h
    have plain {out : Bytes} (same : f.bytes = out) : f.Agrees out := fun i _ => by rw [same]
    cases signer with
    | none => exact plain (Except.ok.inj (Prod.mk.inj h).1)
    | some signer =>
      dsimp only [File.sign] at h
      split at h
      case h_1 => exact plain (Except.ok.inj (Prod.mk.inj h).1)
      case h_2 offset size room =>
        rw [Service.run_bind] at h
        rcases signed : (signer.sign f.bytes).run state with ⟨result, state₁⟩
        rw [signed] at h
        cases result with
        | error e => cases h
        | ok signature =>
          dsimp only at h
          split at h
          · cases h
          · next length =>
              obtain rfl : signature.length = size := by simpa using length
              have same := Except.ok.inj (Prod.mk.inj h).1
              obtain ⟨t', _, laid', _, _, holds⟩ := file_eq_ok made
              obtain rfl := Except.ok.inj (laid.symm.trans laid')
              exact same ▸ agrees_patch room (holds.room_inside serves room)

end

/-- A section header tells the numbers that it is made of. -/
structure PlacedSection.Exact (s : PlacedSection) : Prop where
  size : s.mapping.size.toNat = s.size
  rva : s.mapping.rva.toNat = s.rva
  fileSize : s.mapping.fileSize.toNat = s.fileSize
  fileOffset : s.mapping.fileOffset.toNat = s.fileOffset

theorem toNat_address {n : Nat} (small : n < 0x100000000) : (UInt32.ofNat n).toNat = n :=
  UInt32.toNat_ofNat_of_lt' small

theorem toNat_address_add {a b : Nat} (small : a + b < 0x100000000) :
    (UInt32.ofNat a + UInt32.ofNat b).toNat = a + b := by
  rw [← UInt32.ofNat_add]
  exact toNat_address small

theorem FileWriter.Serves.exact {w : FileWriter} {is32Bit : Bool} {sections : List Section}
    (serves : w.Serves is32Bit sections) (h : s ∈ w.place is32Bit sections) : s.Exact := by
  obtain ⟨memory, file⟩ := serves.small s h
  exact ⟨toNat_address (by omega), toNat_address (by omega), toNat_address (by omega),
    toNat_address (by omega)⟩

theorem find?_section {sections : List PlacedSection} (exact_ : ∀ s ∈ sections, s.Exact)
    (apart : sections.Pairwise PlacedSection.Before) (h : s ∈ sections) {address : Nat}
    (low : s.rva ≤ address) (high : address < s.rva + s.size) :
    (sections.map (·.mapping)).find? (fun m => m.rva.toNat ≤ address &&
      address < m.rva.toNat + m.size.toNat) = some s.mapping := by
  induction sections with
  | nil => cases h
  | cons first sections ih =>
    obtain ⟨here, others⟩ := forall_mem_cons.1 exact_
    obtain ⟨before, rest⟩ := pairwise_cons.1 apart
    rw [map_cons]
    rcases mem_cons.1 h with rfl | later
    · refine List.find?_cons_of_pos ?_
      simp only [here.rva, here.size, Bool.and_eq_true, decide_eq_true_eq]
      exact ⟨low, high⟩
    · have ends := (before s later).memory
      rw [List.find?_cons_of_neg, ih others rest later]
      simp only [here.rva, here.size, Bool.and_eq_true, decide_eq_true_eq, not_and]
      omega

theorem Loaded.read?_of_stands {w : FileWriter} {is32Bit : Bool} {asked : List Section} {f : Loaded}
    (serves : w.Serves is32Bit asked) (listed : f.sections = (w.place is32Bit asked).map (·.mapping))
    (h : s ∈ w.place is32Bit asked)
    {data : Bytes} (inside : offset < s.size) (within : offset + data.length ≤ s.size)
    (stands : data <+: f.bytes.drop (s.fileOffset + offset)) :
    f.read? (s.rva + offset) data.length = some data := by
  have told := serves.exact h
  have found : f.section? (s.rva + offset) = some s.mapping := by
    rw [section?, listed]
    exact find?_section (fun s hs => serves.exact hs) serves.apart h (Nat.le_add_right ..)
      (Nat.add_lt_add_left inside _)
  have room : offset + data.length ≤ s.fileSize := Nat.le_trans within (le_roundUp ..)
  have start : s.rva + offset - s.mapping.rva.toNat = offset := by
    rw [told.rva, Nat.add_sub_cancel_left]
  have inSection : s.rva + offset - s.mapping.rva.toNat + data.length ≤ s.mapping.size.toNat ∧
      s.rva + offset - s.mapping.rva.toNat + data.length ≤ s.mapping.fileSize.toNat := by
    rw [start, told.size, told.fileSize]
    exact ⟨within, room⟩
  obtain ⟨rest, same⟩ := stands
  have data_ : split? data.length
      (f.bytes.drop (s.mapping.fileOffset.toNat + (s.rva + offset - s.mapping.rva.toNat))) =
        some (data, rest) := by
    rw [start, told.fileOffset, ← same, split?_append]
  exact bind_eq_some found (bind_eq_some (if_pos inSection) (bind_eq_some data_ rfl))

section

variable {w : FileWriter} {t : TextSection} {timestamp : UInt32} {metadata out : Bytes} {f : File}
  (serves : w.Serves t.is32Bit (sections w t)) (holds : f.Holds w t timestamp metadata)

include serves holds

theorem File.Holds.outside (h : s ∈ placed w t) {size : Nat} (within : offset + size ≤ s.size)
    (apart : s.name = ".text" → offset + size ≤ t.signature ∨ t.header ≤ offset) :
    ∀ i < size, ¬ f.InRoom (s.fileOffset + offset + i) := by
  rintro i inside ⟨start, length, room, low, high⟩
  obtain ⟨text, known, name, sized⟩ := serves.exists_text
  obtain ⟨rfl, before⟩ := holds.room serves known name room
  by_cases same : s = text
  · subst same
    have := apart name
    omega
  · have either : Std.Symm fun a b : PlacedSection => a.Before b ∨ b.Before a :=
      ⟨fun _ _ => Or.symm⟩
    have all : (placed w t).Pairwise fun a b => a.Before b ∨ b.Before a :=
      serves.apart.imp Or.inl
    have order := all.forall h known same
    have room : s.size ≤ s.fileSize := le_roundUp ..
    have whole : t.size = t.header + 72 := rfl
    have room' : text.size ≤ text.fileSize := le_roundUp ..
    rcases order with before | before <;> have := before.file <;> omega

omit serves holds in
def loaded (w : FileWriter) (t : TextSection) (timestamp : UInt32) (out : Bytes) : Loaded where
  bytes := out
  directories := (List.range dataDirectories).map (headers w t timestamp).entry
  sections := (placed w t).map (·.mapping)

theorem File.Holds.read (agrees : f.Agrees out) :
    Loaded.read out = some (loaded w t timestamp out) := by
  obtain ⟨text, known, name, _⟩ := serves.exists_text
  obtain ⟨front, stands, before, told⟩ := serves.tells (headers w t timestamp)
    ((placed w t).map fun s => (s, content w t metadata s.name)) rfl rfl
  have kept : front <+: out.drop 0 := by
    refine agrees.prefix_drop (holds.bytes ▸ stands) ?_
    rintro i inside ⟨offset, size, room, low, _⟩
    have start := (holds.room serves known name room).1
    have := before text known
    omega
  obtain ⟨rest, same⟩ := kept
  rw [drop_zero] at same
  rw [← same, told rest]
  rfl

/-- What stands in the content of a section is found at its address, signed or not. -/
theorem File.Holds.read?_content (agrees : f.Agrees out) (h : s ∈ placed w t)
    {data : Bytes} (stands : data <+: (content w t metadata s.name).drop offset)
    (inside : offset < s.size) (within : offset + data.length ≤ s.size)
    (apart : s.name = ".text" → offset + data.length ≤ t.signature ∨ t.header ≤ offset) :
    (loaded w t timestamp out).read? (s.rva + offset) data.length = some data := by
  refine Loaded.read?_of_stands serves rfl h inside within ?_
  refine agrees.prefix_drop ?_ (holds.outside serves h within apart)
  rw [holds.bytes]
  exact prefix_drop_trans (serves.content_stands holds.measured timestamp h) stands

end

end PortableExecutable
end Cil
