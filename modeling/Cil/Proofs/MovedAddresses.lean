import Cil.Proofs.RootReading
import Cil.Proofs.StoredColumns

/-!
What a placement changes in the metadata. Only the addresses of method bodies and of initial values
depend on it. They have four bytes whatever they are, and no width of a column depends on one; so the
metadata of two placements have one size and agree outside the addresses.
-/

namespace Cil

open List

/-- A part of a row: a column that no placement changes, or the address of a body or of data. -/
inductive Slot
  | kept (column : Field)
  | body (start : Nat)
  | data (place : DataSection) (offset : Nat)

namespace Slot

def field (p : Placement) : Slot → Field
  | kept column => column
  | body start => .word (p.bodies + .ofNat start).toNat
  | data place offset => .word (p.data place + .ofNat offset).toNat

def bytes (p : Placement) (s : Slot) : Bytes := (s.field p).toOption.getD []

theorem written_congr (p q : Placement) (s : Slot) :
    (∃ b, s.field p = .ok b) ↔ ∃ b, s.field q = .ok b := by
  cases s with
  | kept column => exact Iff.rfl
  | body | data => exact ⟨fun _ => ⟨_, rfl⟩, fun _ => ⟨_, rfl⟩⟩

theorem length_bytes_congr (p q : Placement) (s : Slot) : (s.bytes p).length = (s.bytes q).length := by
  cases s <;> simp [bytes, field, Field.word, Except.toOption]

end Slot

namespace Image

open TableStream

variable (image : Image)

/-- The sizes that the widths of the columns depend on. -/
def placedSizes : Sizes := ⟨image.heapSizes, image.tables.count⟩

/-- The address of a method: methods without a body have the address 0, and those past the ranges of
bodies keep theirs. -/
def methodSlot (row : Row.MethodDef) : Option (Option (Nat × Nat)) → Slot
  | some (some (start, _)) => .body start
  | some none => .kept (.word 0)
  | none => .kept (.word row.rva.toNat)

/-- The address of an initial value; rows past the places of data keep theirs. -/
def valueSlot (row : Row.FieldRva) : Option (DataSection × Nat) → Slot
  | some (place, offset) => .data place offset
  | none => .kept (.word row.rva.toNat)

/-- The rows of a table. The address is the first column of a row that has one. -/
def tableSlots : Table → List Slot
  | .methodDef => image.tables.methodDef.toList.zipIdx.flatMap fun (row, i) =>
    methodSlot row image.bodyRanges[i]? ::
      (TableRow.cells row).tail.map (.kept <| ·.encode image.placedSizes)
  | .fieldRva => image.tables.fieldRva.toList.zipIdx.flatMap fun (row, i) =>
    valueSlot row image.fieldData[i]? ::
      (TableRow.cells row).tail.map (.kept <| ·.encode image.placedSizes)
  | t => (image.tables.rows t).toList.flatMap fun row =>
    (TableRow.cells row).map (.kept <| ·.encode image.placedSizes)

/-- The rows of all tables. -/
def slots : List Slot := Table.all.flatMap image.tableSlots

theorem toList_zipRows {α β : Type} (f : α → β → α) (rows : Array α) (beside : Array β) :
    (zipRows f rows beside).toList =
      rows.toList.zipIdx.map fun x => (beside[x.2]?).elim x.1 (f x.1) := by
  rw [zipRows, Array.toList_mapIdx, mapIdx_eq_zipIdx_map]

theorem tableFields_placed (p : Placement) (t : Table) :
    tableFields image.placedSizes (image.placedTables p) t = (image.tableSlots t).map (·.field p) := by
  rw [tableFields_eq_encode]
  cases t
  case methodDef =>
    rw [tableSlots, map_flatMap]
    simp only [Tables.rows, placedTables, toList_zipRows, flatMap_map]
    refine flatMap_congr fun x _ => ?_
    obtain ⟨row, i⟩ := x
    dsimp only
    rcases image.bodyRanges[i]? with _ | _ | ⟨start, stop⟩ <;> rfl
  case fieldRva =>
    rw [tableSlots, map_flatMap]
    simp only [Tables.rows, placedTables, toList_zipRows, flatMap_map]
    refine flatMap_congr fun x _ => ?_
    obtain ⟨row, i⟩ := x
    dsimp only
    rcases image.fieldData[i]? with _ | ⟨place, offset⟩ <;> rfl
  all_goals
    simp only [tableSlots, map_flatMap, map_map]
    rfl

theorem encodeRows_placed (p : Placement) :
    encodeRows ⟨image.heapSizes, (image.placedTables p).count⟩ (image.placedTables p) =
      Field.join (image.slots.map (·.field p)) := by
  rw [encodeRows, slots, map_flatMap, image.count_placedTables p]
  exact congrArg _ (flatMap_congr fun t _ => image.tableFields_placed p t)

theorem header_placed (p : Placement) :
    header image.heapSizes (image.placedTables p) = header image.heapSizes image.tables := by
  simp only [header, valid, Tables.summary, image.count_placedTables p]

/-- The columns of all rows can be written. -/
def Written : Prop := ∀ s ∈ image.slots, ∃ b, s.field {} = .ok b

theorem join_slots {p : Placement} {rows : Bytes} :
    Field.join (image.slots.map (·.field p)) = .ok rows ↔
    image.Written ∧ rows = image.slots.flatMap (·.bytes p) := by
  have joined (written : image.Written) :
      Field.join (image.slots.map (·.field p)) = .ok (image.slots.flatMap (·.bytes p)) := by
    rw [Field.join_eq_ok, flatMap_map]
    · rfl
    · simpa using fun s hs => (s.written_congr {} p).1 (written s hs)
  constructor
  · intro h
    have written : image.Written := fun s hs =>
      (s.written_congr p {}).1 (Field.exists_of_join h (mem_map_of_mem hs))
    exact ⟨written, Except.ok.inj (h.symm.trans (joined written))⟩
  · rintro ⟨written, rfl⟩
    exact joined written

theorem length_slots_congr (p q : Placement) :
    (image.slots.flatMap (·.bytes p)).length = (image.slots.flatMap (·.bytes q)).length := by
  rw [length_flatMap, length_flatMap]
  exact congrArg _ (map_congr_left fun s _ => s.length_bytes_congr p q)

/-- The stream of tables, with zeros behind the rows. -/
def tableStream (p : Placement) : Bytes :=
  Bytes.padTo 4 (header image.heapSizes image.tables ++ image.slots.flatMap (·.bytes p))

theorem length_tableStream_congr (p q : Placement) :
    (image.tableStream p).length = (image.tableStream q).length := by
  rw [tableStream, tableStream, Bytes.length_padTo, Bytes.length_padTo, length_append,
    length_append, image.length_slots_congr p q]

theorem metadataAt_eq_ok_iff {p : Placement} {out : Bytes} :
    image.metadataAt p = .ok out ↔ image.Written ∧
      out = (image.rootOf (image.tableStream p)).bytes ++
        streamBytes (image.streams (image.tableStream p)) := by
  have encoded (written : image.Written) :
      encode image.heapSizes (image.placedTables p) = .ok (image.tableStream p) := by
    rw [encode, encodeRows_placed, image.join_slots.2 ⟨written, rfl⟩, tableStream,
      ← image.header_placed p]
    rfl
  constructor
  · intro h
    obtain ⟨stream, made, _⟩ := Except.bind_eq_ok.1 h
    obtain ⟨rows, joined, _⟩ := Except.bind_eq_ok.1 made
    have written : image.Written := (image.join_slots.1 (image.encodeRows_placed p ▸ joined)).1
    exact ⟨written, Except.ok.inj (h.symm.trans (metadataAt_eq_ok (encoded written)))⟩
  · rintro ⟨written, rfl⟩
    exact metadataAt_eq_ok (encoded written)

/-- What stands around the rows is the same for all placements. -/
theorem metadataAt_frame : ∃ (root : Metadata.Root) (rest : Bytes), ∀ p out,
    image.metadataAt p = .ok out ↔
    image.Written ∧ out = root.bytes ++ (header image.heapSizes image.tables ++
      (image.slots.flatMap (·.bytes p) ++ rest)) := by
  let size := (header image.heapSizes image.tables ++ image.slots.flatMap
    (·.bytes {})).length
  let pad := Bytes.zeros (Bytes.padding 4 size) ++ Bytes.zeros
    (Bytes.padding 4 (image.tableStream {}).length)
  refine ⟨image.rootOf (image.tableStream {}), pad ++ streamBytes (image.streams []).tail, fun p out =>
    ?_⟩
  have same := image.length_tableStream_congr p {}
  have root : image.rootOf (image.tableStream p) = image.rootOf (image.tableStream {}) := by
    simp [rootOf, streams, streamHeaders, same]
  have streams : streamBytes (image.streams (image.tableStream p)) =
      header image.heapSizes image.tables ++ (image.slots.flatMap (·.bytes p) ++
        (pad ++ streamBytes (image.streams []).tail)) := by
    have stream : image.tableStream p = header image.heapSizes image.tables ++
        (image.slots.flatMap (·.bytes p) ++ Bytes.zeros (Bytes.padding 4 size)) := by
      rw [tableStream, Bytes.padTo, length_append, image.length_slots_congr p {}, append_assoc,
        ← length_append]
    simp only [streamBytes, Image.streams, cons_append, flatMap_cons, tail_cons, Bytes.padTo, same, pad]
    simp only [stream, append_assoc]
  rw [metadataAt_eq_ok_iff, root, streams]

theorem length_metadataAt_congr {image : Image} {p q : Placement} {out out' : Bytes}
    (h : image.metadataAt p = .ok out) (h' : image.metadataAt q = .ok out') :
    out.length = out'.length := by
  obtain ⟨root, rest, frame⟩ := image.metadataAt_frame
  obtain ⟨_, rfl⟩ := (frame p out).1 h
  obtain ⟨_, rfl⟩ := (frame q out').1 h'
  simp only [length_append, image.length_slots_congr p q]

/-- For any two placements the metadata can be written for both or for neither. The two have one length,
and they agree outside the addresses of bodies and of data. -/
theorem metadata_moves_addresses (p q : Placement) :
    ((∃ out, image.metadataAt p = .ok out) ↔ ∃ out, image.metadataAt q = .ok out) ∧
    (∀ out out', image.metadataAt p = .ok out → image.metadataAt q = .ok out' →
    out.length = out'.length ∧
      ∃ (root : Metadata.Root) (rest : Bytes),
        out = root.bytes ++ (header image.heapSizes image.tables ++
          (image.slots.flatMap (·.bytes p) ++ rest)) ∧
        out' = root.bytes ++ (header image.heapSizes image.tables ++
          (image.slots.flatMap (·.bytes q) ++ rest))) ∧
    ∀ m options symbols, Module.image m options = .ok (image, symbols) → image.Parallel := by
  obtain ⟨root, rest, frame⟩ := image.metadataAt_frame
  refine ⟨⟨?_, ?_⟩, ?_, fun m options symbols => Module.parallel_of_image⟩
  · rintro ⟨out, h⟩
    exact ⟨_, (frame q _).2 ⟨((frame p out).1 h).1, rfl⟩⟩
  · rintro ⟨out, h⟩
    exact ⟨_, (frame p _).2 ⟨((frame q out).1 h).1, rfl⟩⟩
  · intro out out' h h'
    exact ⟨length_metadataAt_congr h h', root, rest, ((frame p out).1 h).2, ((frame q out').1 h').2⟩

end Image
end Cil
