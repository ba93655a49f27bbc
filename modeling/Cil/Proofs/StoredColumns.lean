import Cil.Proofs.InitialValues
import Cil.Proofs.MethodRanges

/-!
What the columns of an assembled image keep of their values. A column is two bytes wide if its heap or
its tables are small enough for what is in them. A list of members may also start behind the last row:
where a table has as many rows as two bytes can count, that number does not fit, and it is stored as 0.
-/

namespace Cil

variable {image : Image}

theorem Heap.Holds.lt_size {α : Type} {encode : α → Except EncodingError Bytes}
    (nonempty : ∀ entry, encode entry ≠ .ok []) {h : Heap α} {offset : Nat}
    (holds : h.Holds encode offset) : offset < h.size := by
  obtain ⟨entry, encoding, _, encoded, stands⟩ := holds
  refine Nat.lt_of_not_le fun high => ?_
  have nothing : h.bytes.toList.drop offset = [] := List.drop_eq_nil_of_le high
  rw [nothing, List.prefix_nil] at stands
  exact nonempty entry (stands ▸ encoded)

theorem StringHeap.encode_ne_nil (s : String) : encode s ≠ .ok [] := by
  simp [encode]

theorem BlobHeap.encode_ne_nil (blob : Bytes) : encode blob ≠ .ok [] := by
  intro h
  obtain ⟨length, sized, empty⟩ := encode_eq_ok h
  exact Compressed.unsigned_ne_nil sized (List.append_eq_nil_iff.1 empty.symm).1

namespace Image

def heapLength (image : Image) : HeapKind → Nat
  | .strings => image.strings.size
  | .guids => image.guids.size
  | .blobs => image.blobs.size

theorem wide_heapSizes (image : Image) (kind : HeapKind) :
    image.heapSizes.wide kind = decide (0x10000 ≤ image.heapLength kind) :=
  HeapSizes.wide_ofLengths image.heapLength kind

theorem lt_heapLength {kind : HeapKind} {offset : Nat} (entry : image.extent.entry kind offset) :
    offset < image.heapLength kind := by
  cases kind with
  | strings => exact Heap.Holds.lt_size StringHeap.encode_ne_nil entry
  | guids =>
    obtain ⟨pos, inside⟩ : 0 < offset ∧ 16 * offset ≤ image.guids.size := entry
    rw [heapLength]
    omega
  | blobs => exact Heap.Holds.lt_size BlobHeap.encode_ne_nil entry

/-- Bodies are told for each method, and places of data for each row of an initial value. -/
structure Parallel (image : Image) : Prop where
  bodies : image.bodyRanges.size = image.tables.methodDef.size
  data : image.fieldData.size = image.tables.fieldRva.size

@[simp] theorem size_zipRows {α β : Type} (f : α → β → α) (rows : Array α) (beside : Array β) :
    (zipRows f rows beside).size = rows.size := by
  simp [zipRows]

theorem mem_zipRows {α β : Type} {f : α → β → α} {rows : Array α} {beside : Array β} {row : α}
    (h : row ∈ zipRows f rows beside) : ∃ old ∈ rows, row = old ∨ ∃ b, row = f old b := by
  obtain ⟨i, inside, rfl⟩ := Array.mem_mapIdx.1 h
  refine ⟨rows[i], Array.getElem_mem inside, ?_⟩
  cases beside[i]? with
  | none => exact .inl rfl
  | some b => exact .inr ⟨b, rfl⟩

theorem count_placedTables (image : Image) (p : Placement) :
    (image.placedTables p).count = image.tables.count := by
  funext t
  cases t <;> simp [Tables.count, Tables.rows, placedTables]

theorem Resolves.rows_placed (resolves : image.Resolves) (p : Placement) {t : Table} {row : t.Row}
    (h : row ∈ (image.placedTables p).rows t) : TableRow.Resolves image.extent t row := by
  cases t
  case methodDef =>
    obtain ⟨old, member, rfl | ⟨range, rfl⟩⟩ := mem_zipRows h
    · exact resolves.rows (t := .methodDef) member
    · simpa [TableRow.Resolves, TableRow.cells, Cell.Resolves, Cell.half, Cell.word]
        using resolves.rows (t := .methodDef) member
  case fieldRva =>
    obtain ⟨old, member, rfl | ⟨place, rfl⟩⟩ := mem_zipRows h
    · exact resolves.rows (t := .fieldRva) member
    · simpa [TableRow.Resolves, TableRow.cells, Cell.Resolves, Cell.half, Cell.word]
        using resolves.rows (t := .fieldRva) member
  all_goals exact resolves.rows h

end Image

namespace Cell

/-- The number behind the last row of a table with 2^16 - 1 rows. -/
def PastFull (s : Sizes) : Cell → Prop
  | @row t i => s.rows t = 0xFFFF ∧ i.number = 0x10000
  | _ => False

/-- What becomes of a cell: its value is stored unless it is behind the last row of a full table, and
then 0 is stored, in a column that may start there. -/
structure Stored (s : Sizes) (slack : Slack) (c : Cell) (v : Nat) : Prop where
  value : c.value = .ok v
  bytes : c.encode s = .ok (Bytes.le (c.column.width s) v)
  exact_iff : Bytes.ofLe (Bytes.le (c.column.width s) v) = v ↔ ¬ c.PastFull s
  narrow : c.column.width s = 2 → (v < 0x10000 ↔ ¬ c.PastFull s)
  lost : c.PastFull s → slack = .pastEnd ∧ Bytes.ofLe (Bytes.le (c.column.width s) v) = 0

variable {s : Sizes} {slack : Slack} {c : Cell}

theorem stored_of_fits (fits : c.Fits s) (inside : ¬ c.PastFull s) : ∃ v, c.Stored s slack v := by
  obtain ⟨v, value, bound⟩ := fits
  refine ⟨v, value, by rw [Cell.encode, value]; rfl, ?_, fun narrow => ?_, fun full =>
    absurd full inside⟩
  · rw [Bytes.ofLe_le, Nat.mod_eq_of_lt bound]
    exact iff_of_true rfl inside
  · rw [narrow] at bound
    exact iff_of_true bound inside

theorem Resolves.stored (resolves : c.Resolves image.extent slack) (sized : c.Sized)
    (heaps : s.heaps = image.heapSizes) (rows : s.rows = image.tables.count)
    (short : ∀ kind, image.heapLength kind < 0x100000000)
    (few : ∀ t, image.tables.count t < 0x1000000) : ∃ v, c.Stored s slack v := by
  cases c with
  | number bytes v => exact stored_of_fits ⟨v, rfl, sized⟩ (by simp [PastFull])
  | @heap kind i =>
    refine stored_of_fits ⟨i.offset, rfl, width_heap ?_ fun narrow => ?_⟩ (by simp [PastFull])
    · rcases resolves with zero | entry
      · rw [zero]
        decide
      · exact Nat.lt_trans (Image.lt_heapLength entry) (short kind)
    · rw [heaps, image.wide_heapSizes, decide_eq_false_iff_not, Nat.not_le] at narrow
      rcases resolves with zero | entry
      · rw [zero]
        decide
      · exact Nat.lt_trans (Image.lt_heapLength entry) narrow
  | @row t i =>
    have bound : i.number ≤ s.rows t + slack.room := rows ▸ resolves.2
    have room : slack.room ≤ 1 := by cases slack <;> decide
    have small : s.rows t < 0x1000000 := rows ▸ few t
    by_cases full : s.rows t = 0xFFFF ∧ i.number = 0x10000
    · have width : (Cell.row i).column.width s = 2 := by
        simp [column, Column.width, Column.wide, full.1]
      refine ⟨i.number, rfl, rfl, ?_, fun _ => ?_, fun _ => ⟨?_, ?_⟩⟩
      · rw [width, Bytes.ofLe_le, full.2]
        exact iff_of_false (by decide) fun inside => inside full
      · rw [full.2]
        exact iff_of_false (by decide) fun inside => inside full
      · cases slack with
        | pastEnd => rfl
        | none | null =>
          simp only [Slack.room] at bound
          omega
      · rw [width, full.2]
        exact (Bytes.ofLe_le 2 0x10000).trans (by decide)
    · refine stored_of_fits ⟨i.number, rfl, width_row (by omega) fun narrow => ?_⟩ full
      omega
  | @coded k i =>
    refine stored_of_fits (fits_coded ?_ fun t n mem same => ?_) (by simp [PastFull])
    · intro t
      rw [rows]
      exact Nat.lt_trans (few t) (by decide)
    · subst same
      rw [rows]
      exact resolves.2

end Cell

namespace Module

theorem parallel_of_image {m : Module} {options : Options} {symbols : List MethodSymbols}
    (h : m.image options = .ok (image, symbols)) : image.Parallel := by
  obtain ⟨n, key, area, s, entryPoint, numbering, ran, _, rfl⟩ := image_eq_ok h
  obtain ⟨_, _, placed, _⟩ := Source.definitions_eq_place numbering
  have methods := (Session.lists_of_emit ⟨m, n⟩ key ran).methods.length_eq
  have ranges := (Compile.ranges_of_emit numbering ran).length_eq
  have paired : ∀ d ∈ Source.definitions ⟨m, n⟩,
      d.methods.length = (d.info.methods.toList.zip d.rows.firstParams.toList).length := by
    intro d hd
    have same := (Numbering.Counters.methods_place d (placed ▸ hd)).1
    simpa [Definition.methods] using (congrArg List.length same).symm
  rw [List.length_flatMap, List.map_congr_left paired, ← List.length_flatMap, methods] at ranges
  exact ⟨ranges.symm, (Session.initialValues_of_emit ran).1⟩

theorem stored_columns_exact {σ : Type} {m : Module} {options : Options}
    {writer : Option (SymbolWriter σ)} {image : Image} {state state' : σ}
    (h : (m.assemble options writer).run state = (.ok image, state'))
    (strings : image.strings.size < 0x100000000) (guids : image.guids.size < 0x100000000)
    (blobs : image.blobs.size < 0x100000000) (few : ∀ t, image.tables.count t < 0x1000000)
    (p : Placement) {t : Table} {row : t.Row} (hrow : row ∈ (image.placedTables p).rows t) :
    ∀ x ∈ (TableRow.cells row).zipIdx,
      ∃ v, x.1.Stored ⟨image.heapSizes, (image.placedTables p).count⟩ (t.slack x.2) v := by
  obtain ⟨symbols, made⟩ := image_of_assemble h
  have rows := image.count_placedTables p
  intro x hx
  have sized : x.1.Sized := TableRow.sized_cells row x.1 (List.fst_mem_of_mem_zipIdx hx)
  refine ((resolves_of_image made).rows_placed p hrow x hx).stored sized rfl rows (fun kind => ?_) few
  cases kind with
  | strings => exact strings
  | guids => exact guids
  | blobs => exact blobs

/-- The lengths of the heaps, and where the fields of each type start: those of the last one behind the
end. -/
theorem evaluates_gallery_sizes : (gallery.image {}).toOption.map (fun made =>
    ((made.1.strings.size, made.1.guids.size, made.1.blobs.size),
      Table.all.all (made.1.tables.count · < 0x1000000), made.1.tables.count .field,
      made.1.tables.typeDef.toList.map (·.fieldList.number))) =
      some ((116, 16, 18), true, 3, [1, 1, 3, 4]) := by
  decide +kernel

theorem stored_columns_exact_gallery :
    ∃ image, (gallery.assemble {} none : Service Unit Image).run () = (.ok image, ()) ∧
      image.tables.count .field = 3 ∧
      image.tables.typeDef.toList.map (·.fieldList.number) = [1, 1, 3, 4] ∧
      ∀ (p : Placement) (t : Table), ∀ row ∈ (image.placedTables p).rows t,
        ∀ x ∈ (TableRow.cells row).zipIdx,
          ∃ v, x.1.Stored ⟨image.heapSizes, (image.placedTables p).count⟩ (t.slack x.2) v := by
  obtain ⟨⟨image, symbols⟩, made, sizes⟩ := Option.map_eq_some_iff.1 evaluates_gallery_sizes
  simp only [Prod.mk.injEq, List.all_eq_true, decide_eq_true_eq] at sizes
  obtain ⟨⟨strings, guids, blobs⟩, few, fields, starts⟩ := sizes
  have assembled := assemble_of_toOption made
  refine ⟨image, assembled, fields, starts, fun p t row hrow => ?_⟩
  exact stored_columns_exact assembled (by omega) (by omega) (by omega)
    (fun t => few t (Table.mem_all t)) p hrow

end Module
end Cil
