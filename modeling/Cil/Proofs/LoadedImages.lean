import Cil.Proofs.EmbeddedResources
import Cil.Proofs.SectionLayout

/-!
Images in executable files. What a module is assembled to is found again in the file that is written for
it: the header of the image at its data directory, the metadata where the header says, and at the
addresses in the metadata the encoded methods, the initial values of fields and the resources.
-/

namespace Cil

open Bytes List

/-- A range of addresses: its start and its size. -/
abbrev Stretch := Nat × Nat

namespace Stretch

def Covers (r : Stretch) (address : Nat) : Prop := r.1 ≤ address ∧ address < r.1 + r.2

/-- Stretches without a common address. -/
def Apart (r r' : Stretch) : Prop := ∀ address, r.Covers address → ¬ r'.Covers address

/-- Stretches that follow one another from an address on; empty ones may be anywhere. -/
inductive Follow : (start : Nat) → List Stretch → Prop
  | nil (start : Nat) : Follow start []
  | cons {start : Nat} (stop : Nat) {first size : Nat} {rest : List Stretch} :
    (0 < size → start ≤ first ∧ first + size ≤ stop) → start ≤ stop → Follow stop rest →
    Follow start ((first, size) :: rest)

theorem Follow.le {start : Nat} {stretches : List Stretch} (h : Follow start stretches) {r : Stretch}
    (hr : r ∈ stretches) {address : Nat} (covers : r.Covers address) : start ≤ address := by
  obtain ⟨low, high⟩ := covers
  induction h with
  | nil => cases hr
  | cons _ bounds ordered _ ih =>
    rcases mem_cons.1 hr with rfl | later
    · have := (bounds (by omega)).1
      omega
    · exact Nat.le_trans ordered (ih later)

theorem Follow.pairwise {start : Nat} {stretches : List Stretch} (h : Follow start stretches) :
    stretches.Pairwise Apart := by
  induction h with
  | nil => exact .nil
  | cons _ bounds _ rest ih =>
    refine .cons (fun r' hr' address here there => ?_) ih
    obtain ⟨low, high⟩ := here
    have := bounds (by omega)
    have := rest.le hr' there
    omega

end Stretch

def Directory.stretch (d : Directory) : Stretch := (d.rva.toNat, d.size.toNat)

theorem forall₂_zipWith {α β γ δ : Type} {R : α → β → Prop} {S : α → δ → Prop} {g : γ → β → δ}
    (step : ∀ a b c, R a b → S a (g c b)) {as : List α} {bs : List β} (h : List.Forall₂ R as bs)
    {cs : List γ} (length : cs.length = bs.length) : List.Forall₂ S as (List.zipWith g cs bs) := by
  rw [forall₂_iff_get] at h ⊢
  exact ⟨by simp [h.1, length], fun i hi hj => by simpa using step _ _ _ (h.2 i hi (h.1 ▸ hi))⟩

theorem Image.toList_zipRows_of_size {α β : Type} {f : α → β → α} {rows : Array α} {beside : Array β}
    (size : beside.size = rows.size) :
    (zipRows f rows beside).toList = List.zipWith f rows.toList beside.toList := by
  refine List.ext_getElem (by simp [size]) fun i here there => ?_
  have inside : i < beside.size := by simp [size] at here ⊢; omega
  simp [zipRows, inside]

theorem MethodBody.length_pos_of_encode {m : MethodBody} {bytes : Bytes} (h : m.encode = .ok bytes) :
    0 < bytes.length := by
  have header : ∃ first rest, m.header.fields = first :: rest ∧ ∀ b, first = .ok b →
      0 < b.length := by
    cases m.header with
    | tiny size => exact ⟨_, [], rfl, fun b same => Except.ok.inj same ▸ Nat.zero_lt_one⟩
    | fat flags maxStack size localSignature =>
      rw [MethodHeader.fields]
      split
      · exact ⟨_, _, rfl, fun b same => by cases same⟩
      · exact ⟨_, _, rfl, fun b same => Except.ok.inj same ▸ by simp⟩
  obtain ⟨first, rest, fields, long⟩ := header
  obtain ⟨behind, front⟩ : ∃ behind, m.fields = first :: behind := by
    rw [MethodBody.fields, fields]
    split <;> exact ⟨_, rfl⟩
  rw [encode, front] at h
  obtain ⟨b, others, here, _, rfl⟩ := Field.join_cons_eq_ok.1 h
  have := long b here
  rw [length_append]
  omega

/-- What the buffers of an image hold of a module. -/
structure Image.Keeps (image : Image) (src : Source) (keepsSymbols : Bool) : Prop where
  parallel : image.Parallel
  methods : List.Forall₂ (fun x range =>
      (∃ i, x.2 = i + 1 ∧ image.bodyRanges.toList[i]? = some range) ∧
        Compile.StandsIn src keepsSymbols image.bodies.toList x range)
    (src.definitions.flatMap (·.methods)) image.bodyRanges.toList
  values : ∃ new, (image.tables.fieldRva.toList.zip image.fieldData.toList).Perm new ∧
    List.Forall₂ (fun x y => y.1 = { rva := 0, field := ⟨x.1⟩ } ∧ image.staticData.Holds y.2 x.2)
      (src.definitions.flatMap (·.initialValues)) new
  resources : List.Forall₂ (Resource.StoredBy image.resources) src.module.resources
    image.tables.manifestResource.toList

theorem Module.keeps_of_image {m : Module} {options : Options} {image : Image}
    {symbols : List MethodSymbols} (h : m.image options = .ok (image, symbols)) :
    ∃ n, Numbering.ofModule m = .ok n ∧ image.Keeps ⟨m, n⟩ options.debugSymbols := by
  have parallel := parallel_of_image h
  obtain ⟨n, key, area, s, entryPoint, numbering, ran, _, rfl⟩ := image_eq_ok h
  obtain ⟨_, new, stores, arranged, _⟩ := Session.initialValues_of_emit ran
  exact ⟨n, numbering, parallel, Compile.ranges_of_emit numbering ran,
    ⟨new, arranged.perm, stores.imp fun _ _ stored => ⟨stored.row, stored.data⟩⟩,
    Session.resources_of_emit ran⟩

namespace PortableExecutable

/-- The row of a method leads to its encoding, at a multiple of four; that of a method without a body
leads nowhere. -/
structure Loaded.LeadsTo (file : Loaded) (src : Source) (keepsSymbols : Bool) (image : Image)
    (x : Method × Nat) (row : Row.MethodDef) : Prop where
  bodiless : x.1.body = none → row.rva = 0
  body : ∀ b, x.1.body = some b → ∃ encoding, Compile.Encodes src keepsSymbols x b encoding ∧
    image.methodBody? x.2 = some encoding ∧ row.rva.toNat % 4 = 0 ∧
    file.read? row.rva.toNat encoding.length = some encoding

/-- The row of an initial value leads to its data. -/
structure Loaded.HasValue (file : Loaded) (x : Nat × InitialValue) (row : Row.FieldRva) : Prop where
  field : row.field.number = x.1
  data : x.2.data ≠ [] → file.read? row.rva.toNat x.2.data.length = some x.2.data

/-- An embedded resource stands behind its length at its offset of the resources. -/
def Loaded.HasResource (file : Loaded) (resources : Directory) (r : Resource)
    (row : Row.ManifestResource) : Prop :=
  ∀ data, r.data = .embedded data → row.implementation = .null ∧ data.length < 0x100000000 ∧
    row.offset.toNat + (4 + data.length) ≤ resources.size.toNat ∧
    file.read? (resources.rva.toNat + row.offset.toNat) (4 + data.length) =
      some (Bytes.le 4 data.length ++ data)

/-- The file holds the image of a module: its buffers are where the placement tells, and the signature
has its room. -/
structure Loaded.Carries (file : Loaded) (src : Source) (keepsSymbols : Bool) (image : Image)
    (p : Placement) (room : Nat) (cli : Directory) (h : CliHeader) : Prop where
  descriptor : file.directories[14]? = some cli
  header : (file.range? cli).bind CliHeader.read = some (h, [])
  metadata : ∃ metadata, image.metadataAt p = .ok metadata ∧ file.range? h.metadata = some metadata
  methods : List.Forall₂ (file.LeadsTo src keepsSymbols image) (src.definitions.flatMap (·.methods))
    (image.placedTables p).methodDef.toList
  values : ∃ rows, rows.Perm (image.placedTables p).fieldRva.toList ∧
    List.Forall₂ file.HasValue (src.definitions.flatMap (·.initialValues)) rows
  resources : List.Forall₂ (file.HasResource h.resources) src.module.resources
    (image.placedTables p).manifestResource.toList
  resourceArea : h.resources.size.toNat = image.resources.bytes.size
  signatureArea : h.strongNameSignature.size.toNat = room
  apart : [(p.bodies.toNat, image.bodies.size), (p.text.toNat, image.staticData.text.size),
    h.metadata.stretch, h.resources.stretch, h.strongNameSignature.stretch,
      cli.stretch].Pairwise Stretch.Apart

/-- The parts of the section follow one another. -/
structure TextSection.Order (t : TextSection) : Prop where
  bodies : t.bodies + t.image.bodies.size ≤ t.data
  data : t.data + t.image.staticData.text.size ≤ t.metadata
  metadata : t.metadata + t.metadataSize = t.resources
  resources : t.resources + t.image.resources.bytes.size ≤ t.signature
  signature : t.signature + t.signatureSize.getD 0 ≤ t.header
  header : t.header + 72 = t.size

theorem TextSection.order (t : TextSection) : t.Order :=
  ⟨le_roundUp .., le_roundUp .., rfl, le_roundUp .., le_roundUp .., rfl⟩

section

variable {w : FileWriter} {t : TextSection} (serves : w.Serves t.is32Bit (sections w t))

include serves

theorem FileWriter.Serves.textRva_eq {s : PlacedSection} (h : s ∈ placed w t) (name : s.name = ".text") :
    textRva w t = s.rva := by
  rw [textRva, ← name, serves.rvaOf_placed h]

theorem FileWriter.Serves.textRva_mod : textRva w t % 0x2000 = 0 := by
  obtain ⟨s, known, name, _⟩ := serves.exists_text
  rw [serves.textRva_eq known name]
  exact (serves.aligned s known).1

theorem FileWriter.Serves.text : textRva w t + t.size < 0x100000000 := by
  obtain ⟨s, known, name, size⟩ := serves.exists_text
  rw [serves.textRva_eq known name, ← size]
  exact (serves.small s known).1

end

theorem directory_cli (w : FileWriter) (t : TextSection) (timestamp : UInt32) (out : Bytes) :
    (loaded w t timestamp out).directories[14]? =
      some ⟨.ofNat (textRva w t + t.header), .ofNat CliHeader.size⟩ := by
  have entry : (headers w t timestamp).entry 14 =
      ⟨.ofNat (textRva w t + t.header), .ofNat CliHeader.size⟩ := by
    rw [Headers.entry, headers, directories]
    cases t.isExecutable <;> rfl
  rw [← entry]
  rfl

/-- The directories of the header tell where the parts of the section are. -/
structure TextSection.Directed (t : TextSection) (w : FileWriter) (h : CliHeader) : Prop where
  metadata : h.metadata.stretch = (textRva w t + t.metadata, t.metadataSize)
  resources : h.resources.size.toNat = t.image.resources.bytes.size ∧
    (0 < h.resources.size.toNat → h.resources.rva.toNat = textRva w t + t.resources)
  signature : h.strongNameSignature.size.toNat = t.signatureSize.getD 0 ∧
    (0 < h.strongNameSignature.size.toNat → h.strongNameSignature.rva.toNat = textRva w t + t.signature)

section

variable {w : FileWriter} {t : TextSection} (serves : w.Serves t.is32Bit (sections w t))

include serves

theorem FileWriter.Serves.directed : t.Directed w (t.cliHeader (textRva w t)) := by
  obtain ⟨bodies, data, metadata, resources, signature, header⟩ := t.order
  have below := serves.text
  refine ⟨Prod.ext (toNat_address (by omega)) (toNat_address (by omega)), ?_, ?_⟩
  · simp only [TextSection.cliHeader]
    split
    case isTrue empty => simp [Array.isEmpty_iff_size_eq_zero.1 empty]
    case isFalse => exact ⟨toNat_address (by omega), fun _ => toNat_address (by omega)⟩
  · simp only [TextSection.cliHeader]
    cases room : t.signatureSize with
    | none => simp
    | some size =>
      rw [room, Option.getD_some] at signature
      exact ⟨toNat_address (by omega), fun _ => toNat_address (by omega)⟩

theorem FileWriter.Serves.stretches_apart :
    [((placement w t).bodies.toNat, t.image.bodies.size),
      ((placement w t).text.toNat, t.image.staticData.text.size),
      (t.cliHeader (textRva w t)).metadata.stretch, (t.cliHeader (textRva w t)).resources.stretch,
      (t.cliHeader (textRva w t)).strongNameSignature.stretch,
      (⟨.ofNat (textRva w t + t.header), .ofNat CliHeader.size⟩ : Directory).stretch].Pairwise
        Stretch.Apart := by
  obtain ⟨bodies, data, metadata, resources, signature, header⟩ := t.order
  have below := serves.text
  have directed := serves.directed
  have bodiesAt : (placement w t).bodies.toNat = textRva w t + t.bodies := toNat_address (by omega)
  have textAt : (placement w t).text.toNat = textRva w t + t.data := toNat_address (by omega)
  have cliAt : (⟨.ofNat (textRva w t + t.header), .ofNat CliHeader.size⟩ : Directory).stretch =
      (textRva w t + t.header, 72) := Prod.ext (toNat_address (by omega)) rfl
  obtain ⟨resourceSize, resourceAt⟩ := directed.resources
  obtain ⟨signatureSize, signatureAt⟩ := directed.signature
  rw [bodiesAt, textAt, directed.metadata, cliAt]
  refine (?_ : Stretch.Follow (textRva w t + t.bodies) _).pairwise
  refine .cons (textRva w t + t.data) (fun _ => by omega) (by omega) ?_
  refine .cons (textRva w t + t.metadata) (fun _ => by omega) (by omega) ?_
  refine .cons (textRva w t + t.resources) (fun _ => by omega) (by omega) ?_
  refine .cons (textRva w t + t.signature) (fun some_ => ?_) (by omega) ?_
  · have := resourceAt some_
    omega
  refine .cons (textRva w t + t.header) (fun some_ => ?_) (by omega) ?_
  · have := signatureAt some_
    omega
  exact .cons (textRva w t + t.size) (fun _ => by omega) (by omega) (.nil _)

end

section

variable {w : FileWriter} {t : TextSection} {timestamp : UInt32} {metadata out : Bytes} {f : File}
  (serves : w.Serves t.is32Bit (sections w t)) (holds : f.Holds w t timestamp metadata)
  (agrees : f.Agrees out)

include serves holds agrees

/-- A part of the section of the image, or what stands in it, is found at its address. -/
theorem File.Holds.read?_part (start : Nat) {part data : Bytes} {offset : Nat}
    (stands : data <+: part.drop offset) (before : start + part.length ≤ t.signature)
    (within : offset + data.length ≤ part.length)
    (h : (start, part) ∈ t.parts (textRva w t) (imageBase + (imports w t).addressTable) metadata := by
      simp [TextSection.parts]) :
    (loaded w t timestamp out).read? (textRva w t + (start + offset)) data.length = some data := by
  obtain ⟨s, known, name, size⟩ := serves.exists_text
  have here : part <+: (content w t metadata s.name).drop (start - 0) := by
    rw [name]
    exact (TextSection.ordered_parts _ _ holds.measured).prefix_drop h
  have signature := t.order.signature
  have header := t.order.header
  rw [serves.textRva_eq known name]
  exact holds.read?_content serves agrees known (prefix_drop_trans here stands) (by omega) (by omega)
    fun _ => .inl (by omega)

theorem File.Holds.read?_header :
    (loaded w t timestamp out).read? (textRva w t + t.header) CliHeader.size =
      some (Field.written (t.cliHeader (textRva w t)).fields) := by
  obtain ⟨s, known, name, size⟩ := serves.exists_text
  have length := t.length_cliHeader (textRva w t)
  have header := t.order.header
  have here : Field.written (t.cliHeader (textRva w t)).fields <+:
      (content w t metadata s.name).drop (t.header - 0) := by
    rw [name]
    exact (TextSection.ordered_parts _ _ holds.measured).prefix_drop
      (x := (t.header, Field.written (t.cliHeader (textRva w t)).fields)) (by simp [TextSection.parts])
  have read := holds.read?_content serves agrees known here
    (by omega) (by rw [length, CliHeader.size]; omega) fun _ => .inr (Nat.le_refl _)
  rw [length, ← serves.textRva_eq known name] at read
  exact read

theorem File.Holds.leadsTo {src : Source} {keepsSymbols : Bool} {x : Method × Nat}
    {range : Option (Nat × Nat)} {i : Nat} (number : x.2 = i + 1)
    (ranged : t.image.bodyRanges.toList[i]? = some range)
    (stands : Compile.StandsIn src keepsSymbols t.image.bodies.toList x range) (row : Row.MethodDef) :
    (loaded w t timestamp out).LeadsTo src keepsSymbols t.image x
      { row with rva := Image.methodRva (placement w t) range } := by
  cases range with
  | none =>
    have none : x.1.body = none := stands
    refine ⟨fun _ => rfl, fun b held => ?_⟩
    rw [none] at held
    cases held
  | some range =>
    obtain ⟨start, stop⟩ := range
    obtain ⟨b, encoding, held, encodes, aligned, rfl, there⟩ := stands
    refine ⟨fun empty => absurd (held.symm.trans empty) (by simp), fun b' same => ?_⟩
    obtain rfl := Option.some.inj (held.symm.trans same)
    have nonempty : 0 < encoding.length := by
      obtain ⟨_, _, _, _, _, encoded⟩ := encodes
      exact MethodBody.length_pos_of_encode encoded
    have within := there.length_le
    have size : t.image.bodies.toList.length = t.image.bodies.size := Array.length_toList
    rw [length_drop] at within
    obtain ⟨bodies, data, metadata_, resources, signature, header⟩ := t.order
    have below := serves.text
    have own : t.image.methodBody? x.2 = some encoding := by
      rw [number]
      exact Image.methodBody?_of_range ranged there
    have rva : (Image.methodRva (placement w t) (some (start, start + encoding.length))).toNat =
        textRva w t + (t.bodies + start) := by
      rw [Image.methodRva, placement, toNat_address_add (by omega)]
      omega
    have multiple := serves.textRva_mod
    have start_mod : t.bodies % 4 = 0 := roundUp_mod_four _
    refine ⟨encoding, encodes, own, ?_, ?_⟩ <;> dsimp only <;> rw [rva]
    · omega
    · exact holds.read?_part serves agrees _ there (by omega) (by omega)

theorem File.Holds.read_cliHeader :
    ((loaded w t timestamp out).range? ⟨.ofNat (textRva w t + t.header), .ofNat CliHeader.size⟩).bind
      CliHeader.read = some (t.cliHeader (textRva w t), []) := by
  have below := serves.text
  have header := t.order.header
  have address : (UInt32.ofNat (textRva w t + t.header)).toNat = textRva w t + t.header :=
    toNat_address (by omega)
  have size : (UInt32.ofNat CliHeader.size).toNat = CliHeader.size := by decide
  have read := CliHeader.read_written (t.cliHeader (textRva w t)) []
  rw [append_nil] at read
  rw [Loaded.range?, address, size, holds.read?_header serves agrees, Option.bind_some, read]

theorem File.Holds.range?_metadata :
    (loaded w t timestamp out).range? (t.cliHeader (textRva w t)).metadata = some metadata := by
  obtain ⟨_, _, order, resources, _, _⟩ := t.order
  have told := serves.directed.metadata
  have address : (t.cliHeader (textRva w t)).metadata.rva.toNat = textRva w t + t.metadata :=
    congrArg Prod.fst told
  have size : (t.cliHeader (textRva w t)).metadata.size.toNat = metadata.length :=
    (congrArg Prod.snd told).trans holds.measured.symm
  have measured := holds.measured
  have read := holds.read?_part serves agrees t.metadata
    (show metadata <+: metadata.drop 0 from prefix_refl _) (by omega) (by omega)
  rw [Nat.add_zero] at read
  rw [Loaded.range?, address, size, read]

theorem File.Holds.read?_data {name : String} {data : Bytes} {offset : Nat}
    (stands : data <+: (content w t metadata name).drop offset) (nonempty : data ≠ [])
    (other : name ≠ ".text") (kept : ∃ s ∈ sections w t, s.name = name) :
    (loaded w t timestamp out).read?
      (UInt32.ofNat (PlacedSection.rvaOf (placed w t) name) + UInt32.ofNat offset).toNat data.length =
        some data := by
  obtain ⟨_, kept, rfl⟩ := kept
  obtain ⟨s, known, rfl⟩ := serves.exists_placed kept
  have pos := length_pos_iff.2 nonempty
  have within := stands.length_le
  rw [length_drop, serves.length_content holds.measured kept] at within
  have below := (serves.small s known).1
  rw [serves.rvaOf_placed known, toNat_address_add (by omega)]
  exact holds.read?_content serves agrees known stands (by omega) (by omega) fun text => absurd text other

theorem File.Holds.hasValue {x : Nat × InitialValue} {y : Row.FieldRva × DataSection × Nat}
    (row : y.1 = { rva := 0, field := ⟨x.1⟩ }) (stored : t.image.staticData.Holds y.2 x.2) :
    (loaded w t timestamp out).HasValue x
      { y.1 with rva := (placement w t).data y.2.1 + .ofNat y.2.2 } := by
  obtain ⟨field, data, place⟩ := x
  obtain ⟨r, place', offset⟩ := y
  obtain ⟨rfl, _, stands⟩ := stored
  refine ⟨by rw [row], fun nonempty => ?_⟩
  dsimp only at stands nonempty ⊢
  -- The section of the data is there, since it is not empty.
  have some_ {buffer : Array UInt8} (h : data <+: buffer.toList.drop offset) :
      ¬ buffer.isEmpty = true := by
    intro empty
    rw [Array.isEmpty_iff.1 empty] at h
    exact nonempty (by simpa using h)
  cases place' with
  | text =>
    have pos := length_pos_iff.2 nonempty
    have size : t.image.staticData.text.toList.length = t.image.staticData.text.size :=
      Array.length_toList
    change data <+: t.image.staticData.text.toList.drop offset at stands
    have within := stands.length_le
    rw [length_drop] at within
    obtain ⟨_, order, metadata_, resources, signature, header⟩ := t.order
    have below := serves.text
    rw [Placement.data, placement, toNat_address_add (by omega), Nat.add_assoc]
    exact holds.read?_part serves agrees _ stands (by omega) (by omega)
  | sdata | tls =>
    have := some_ stands
    exact holds.read?_data serves agrees stands nonempty (by simp)
      (by simp_all [sections, StaticData.buffer, or_and_right, exists_or])

theorem File.Holds.hasResource {r : Resource} {row : Row.ManifestResource}
    (stored : r.StoredBy t.image.resources row) :
    (loaded w t timestamp out).HasResource (t.cliHeader (textRva w t)).resources r row := by
  intro data embedded
  obtain ⟨none, offset, given, _, stands⟩ := stored data embedded
  have within := stands.length_le
  have size : t.image.resources.bytes.toList.length = t.image.resources.bytes.size :=
    Array.length_toList
  rw [length_drop, length_append, Bytes.length_le] at within
  obtain ⟨_, _, _, resources, signature, header⟩ := t.order
  have below := serves.text
  obtain ⟨directorySize, directoryAt⟩ := serves.directed.resources
  have place : row.offset.toNat = offset := by
    rw [given]
    exact toNat_address (by omega)
  have read := holds.read?_part serves agrees t.resources stands (by omega)
    (by rw [length_append, Bytes.length_le]; omega)
  rw [length_append, Bytes.length_le, ← Nat.add_assoc] at read
  rw [directorySize, directoryAt (by omega), place]
  exact ⟨none, by omega, by omega, read⟩

theorem File.Holds.carries {src : Source} {keepsSymbols : Bool} (keeps : t.image.Keeps src keepsSymbols)
    (encoded : t.image.metadataAt (placement w t) = .ok metadata) :
    (loaded w t timestamp out).Carries src keepsSymbols t.image (placement w t) (t.signatureSize.getD 0)
      ⟨.ofNat (textRva w t + t.header), .ofNat CliHeader.size⟩ (t.cliHeader (textRva w t)) where
  descriptor := directory_cli w t timestamp out
  header := holds.read_cliHeader serves agrees
  metadata := ⟨metadata, encoded, holds.range?_metadata serves agrees⟩
  methods := by
    rw [Image.placedTables, Image.toList_zipRows_of_size keeps.parallel.bodies]
    refine forall₂_zipWith (fun x range row known => ?_) keeps.methods (by simp [keeps.parallel.bodies])
    obtain ⟨⟨i, number, ranged⟩, stands⟩ := known
    exact holds.leadsTo serves agrees number ranged stands row
  values := by
    obtain ⟨new, perm, stored⟩ := keeps.values
    refine ⟨new.map fun y => { y.1 with rva := (placement w t).data y.2.1 + .ofNat y.2.2 }, ?_, ?_⟩
    · rw [Image.placedTables, Image.toList_zipRows_of_size keeps.parallel.data,
        ← map_uncurry_zip_eq_zipWith]
      exact perm.symm.map _
    · rw [forall₂_map_right_iff]
      exact stored.imp fun x y known => holds.hasValue serves agrees known.1 known.2
  resources := keeps.resources.imp fun _ _ stored => holds.hasResource serves agrees stored
  resourceArea := serves.directed.resources.1
  signatureArea := serves.directed.signature.1
  apart := serves.stretches_apart

end

end PortableExecutable

namespace Module

open PortableExecutable

/-- The file of an assembled image carries it, whether it is signed or not, if the writer of files does
what is asked for its sections. -/
theorem file_carries_image {σ τ : Type} {m : Module} {options : Options}
    {writer : Option (SymbolWriter σ)} {image : Image} {state state' : σ}
    (assembled : (m.assemble options writer).run state = (.ok image, state'))
    {w : FileWriter} {options' : Options} {signer : Option (Signer τ)} {out : Bytes} {there there' : τ}
    (written : (PortableExecutable.write w image options' signer).run there = (.ok out, there'))
    {t : TextSection} (laid : textSection image options' (signer.map (·.signatureSize)) = .ok t)
    (serves : w.Serves t.is32Bit (sections w t)) :
    ∃ n file cli header, Numbering.ofModule m = .ok n ∧ Loaded.read out = some file ∧
      file.Carries ⟨m, n⟩ options.debugSymbols image (placement w t)
        (if image.strongName then (signer.map (·.signatureSize)).getD 128 else 0) cli header := by
  obtain ⟨symbols, made⟩ := image_of_assemble assembled
  obtain ⟨n, numbering, keeps⟩ := keeps_of_image made
  obtain ⟨f, filed, agrees⟩ := agrees_of_write serves written laid
  obtain ⟨t', metadata, laid', rfl, encoded, holds⟩ := file_eq_ok filed
  obtain rfl := Except.ok.inj (laid.symm.trans laid')
  have room : t.signatureSize.getD 0 =
      if t.image.strongName then (signer.map (·.signatureSize)).getD 128 else 0 := by
    obtain ⟨_, _, built⟩ := Except.bind_eq_ok.1 laid
    rw [← Except.ok.inj built]
    dsimp only
    split <;> rfl
  rw [← room]
  exact ⟨n, _, _, _, numbering, holds.read serves agrees, holds.carries serves agrees keeps encoded⟩

section Kiosk

def kioskMain : Method := { name := "Main", body := some { root := .mk ⟨0⟩ [] [] none } }

/-- The nested type stands in front of the one around it, but its field comes last. -/
def kiosk : Module where
  name := "Kiosk"
  assembly := some { name := "Kiosk", publicKey := some [1, 2, 3] }
  types := #[
    { TypeInfo.globals with
      methods := #[kioskMain]
      fields := #[{ name := "seed", isStatic := true, initialValue := some ⟨[5, 6, 7, 8], .sdata⟩ }] },
    { name := "Till"
      declaringType := some ⟨2⟩
      fields := #[{ name := "coins", isStatic := true, initialValue := some ⟨[1, 2, 3], .sdata⟩ }] },
    { name := "Counter"
      fields := #[{ name := "label", isStatic := true, initialValue := some ⟨[0x41], .text⟩ },
        { name := "price" }] }]
  resources := [{ name := "Greeting", data := .embedded [0x48, 0x69] }]
  entryPoint := some (.method ⟨⟨0⟩, 0⟩)

def kioskOptions : Options := { isExecutable := true, metadataVersion := "v4.0.30319" }

def kioskSigner : Signer Unit where
  signatureSize := 4
  sign _ := pure [0xAB, 0xCD, 0xEF, 0x01]

/-- Whether the standard writer has addresses and offsets of 32 bits for all sections. -/
def fitsStandard (t : TextSection) : Bool :=
  (placed .standard t).all fun s => s.rva + s.size < 0x100000000 ∧ s.fileOffset + s.fileSize < 0x100000000

theorem evaluates_kiosk : (kiosk.image kioskOptions).toOption.map (fun made =>
    (made.1.strongName, (textSection made.1 kioskOptions (some 4)).toOption.map fitsStandard,
      (file .standard made.1 kioskOptions (some 4)).toOption.isSome)) =
    some (true, some true, true) := by
  decide +kernel

theorem serves_of_fitsStandard {t : TextSection} (fits : fitsStandard t = true) :
    FileWriter.standard.Serves t.is32Bit (sections .standard t) := by
  have few := (names_sublist .standard t).length_le
  rw [length_map] at few
  exact FileWriter.standard_serves (fun s => length_name) (Nat.lt_of_le_of_lt few (by decide))
    fun s hs => by simpa using List.all_eq_true.1 fits s hs

theorem writes_kiosk : ∃ image t out,
    (kiosk.assemble kioskOptions none : Service Unit Image).run () = (.ok image, ()) ∧
      image.strongName = true ∧ textSection image kioskOptions (some 4) = .ok t ∧
      FileWriter.standard.Serves t.is32Bit (sections .standard t) ∧
      (PortableExecutable.write .standard image kioskOptions (some kioskSigner)).run () =
        (.ok out, ()) := by
  obtain ⟨⟨image, symbols⟩, made, evaluated⟩ := Option.map_eq_some_iff.1 evaluates_kiosk
  simp only [Prod.mk.injEq] at evaluated
  obtain ⟨strong, fits, filed⟩ := evaluated
  obtain ⟨t, laid, fits⟩ := Option.map_eq_some_iff.1 fits
  obtain ⟨f, filed⟩ := Option.isSome_iff_exists.1 filed
  have laid := eq_ok_of_toOption laid
  have filed := eq_ok_of_toOption filed
  obtain ⟨t', _, laid', _, _, holds⟩ := file_eq_ok filed
  obtain rfl := Except.ok.inj (laid.symm.trans laid')
  have room : t.signatureSize = some 4 := by
    obtain ⟨_, _, built⟩ := Except.bind_eq_ok.1 laid
    rw [← Except.ok.inj built, strong]
    rfl
  have signature := holds.signature
  rw [room, Option.map_some] at signature
  have signed : ∃ out, (f.sign kioskSigner).run () = (.ok out, ()) := by
    rw [File.sign, signature]
    exact ⟨_, rfl⟩
  obtain ⟨out, signed⟩ := signed
  refine ⟨image, t, out, ?_, strong, laid, serves_of_fitsStandard fits, ?_⟩
  · rw [assemble, eq_ok_of_toOption made]
    rfl
  · rw [run_write, show (some kioskSigner).map (·.signatureSize) = some 4 from rfl, filed]
    exact signed

end Kiosk

theorem file_carries_image_kiosk : ∃ image out t,
    (kiosk.assemble kioskOptions none : Service Unit Image).run () = (.ok image, ()) ∧
      (PortableExecutable.write .standard image kioskOptions (some kioskSigner)).run () =
        (.ok out, ()) ∧
      textSection image kioskOptions (some 4) = .ok t ∧
      FileWriter.standard.Serves t.is32Bit (sections .standard t) ∧
      ∃ n file cli header, Numbering.ofModule kiosk = .ok n ∧ Loaded.read out = some file ∧
        file.Carries ⟨kiosk, n⟩ false image (placement .standard t) 4 cli header := by
  obtain ⟨image, t, out, assembled, strong, laid, serves, written⟩ := writes_kiosk
  have carried := file_carries_image assembled written laid serves
  rw [strong] at carried
  exact ⟨image, out, t, assembled, written, laid, serves, carried⟩

end Module
end Cil
