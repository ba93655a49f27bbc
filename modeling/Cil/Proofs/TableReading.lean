import Cil.Proofs.CellWidths
import Cil.Proofs.Reading
import Mathlib.Data.List.Basic

/-!
Reading the stream of tables back. The reader knows only the rules of the format: it takes the flags of
the heaps, the mask of the tables and their row counts from the header, computes the widths of all
columns from these, and reads the rows table by table. What is written for tables that point only at
what is there is read as the same tables, and nothing but padding is left.
-/

namespace Cil

open List TableRow Bytes

theorem Tables.ext_rows {a b : Tables} (h : ∀ t, a.rows t = b.rows t) : a = b := by
  cases a
  cases b
  simp only [Tables.mk.injEq]
  refine ⟨h .module, h .typeRef, h .typeDef, h .field, h .methodDef, h .param, h .interfaceImpl,
    h .memberRef, h .constant, h .customAttribute, h .fieldMarshal, h .declSecurity, h .classLayout,
    h .fieldLayout, h .standAloneSig, h .eventMap, h .event, h .propertyMap, h .property,
    h .methodSemantics, h .methodImpl, h .moduleRef, h .typeSpec, h .implMap, h .fieldRva,
    h .assembly, h .assemblyRef, h .file, h .exportedType, h .manifestResource, h .nestedClass,
    h .genericParam, h .methodSpec, h .genericParamConstraint⟩

namespace Field

theorem join_eq_ok {fields : List Field} (h : ∀ f ∈ fields, ∃ bytes, f = .ok bytes) :
    join fields = .ok (fields.flatMap (·.toOption.getD [])) := by
  induction fields with
  | nil => rfl
  | cons f fields ih =>
    obtain ⟨⟨bytes, rfl⟩, rest⟩ := forall_mem_cons.1 h
    exact join_cons_eq_ok.2 ⟨bytes, _, rfl, ih rest, rfl⟩

theorem join_map_ok (pieces : List Bytes) : join (pieces.map .ok) = .ok pieces.flatten := by
  rw [join_eq_ok (by simp), flatMap_map]
  simp [Except.toOption]

end Field

/-- What a cell points at is there: its heap is longer than its offset, or its table has its row. -/
def Cell.Inside (length : HeapKind → Nat) (rows : Table → Nat) : Cell → Prop
  | number .. => True
  | @heap kind i => i.offset < length kind
  | @row t i => i.number ≤ rows t
  | coded .null => True
  | coded (.row t n _) => 1 ≤ n ∧ n ≤ rows t

/-- An offset into a heap has four bytes at most. -/
def Cell.Addressable : Cell → Prop
  | heap i => i.offset < 0x100000000
  | _ => True

instance (length : HeapKind → Nat) (rows : Table → Nat) : DecidablePred (Cell.Inside length rows)
  | .number .. => inferInstanceAs (Decidable True)
  | @Cell.heap kind i => inferInstanceAs (Decidable (i.offset < length kind))
  | @Cell.row t i => inferInstanceAs (Decidable (i.number ≤ rows t))
  | .coded .null => inferInstanceAs (Decidable True)
  | .coded (.row t n _) => inferInstanceAs (Decidable (1 ≤ n ∧ n ≤ rows t))

instance : DecidablePred Cell.Addressable
  | .heap i => inferInstanceAs (Decidable (i.offset < 0x100000000))
  | .number .. | .row _ | .coded _ => inferInstanceAs (Decidable True)

namespace Tables

/-- All cells of the tables are as `p` says. -/
def Every (p : Cell → Prop) (ts : Tables) : Prop :=
  ∀ t, ∀ row ∈ ts.rows t, ∀ c ∈ cells row, p c

instance (p : Cell → Prop) [DecidablePred p] (ts : Tables) : Decidable (ts.Every p) :=
  decidable_of_iff (∀ t ∈ Table.all, ∀ row ∈ (ts.rows t).toList, ∀ c ∈ cells row, p c)
    ⟨fun h t row hrow => h t (Table.mem_all t) row (by simpa using hrow),
      fun h t _ row hrow => h t row (by simpa using hrow)⟩

/-- The cells of the tables point at what is there. -/
abbrev Inside (length : HeapKind → Nat) (ts : Tables) : Prop := ts.Every (·.Inside length ts.count)

abbrev Addressable (ts : Tables) : Prop := ts.Every (·.Addressable)

end Tables

theorem Cell.Inside.fits {length : HeapKind → Nat} {s : Sizes} {c : Cell} (h : c.Inside length s.rows)
    (sized : c.Sized) (addressable : c.Addressable)
    (heaps : ∀ kind, s.heaps.wide kind = decide (0x10000 ≤ length kind))
    (few : ∀ t, s.rows t < Nat.pow 2 27) : c.Fits s := by
  cases c with
  | number bytes v => exact ⟨v, rfl, sized⟩
  | @heap kind i =>
    refine ⟨i.offset, rfl, width_heap addressable fun narrow => ?_⟩
    have short : ¬ 0x10000 ≤ length kind := by simpa [heaps] using narrow
    exact Nat.lt_trans h (Nat.lt_of_not_le short)
  | @row t i =>
    refine ⟨i.number, rfl, width_row ?_ fun narrow => Nat.lt_of_le_of_lt h narrow⟩
    exact Nat.lt_of_le_of_lt h (Nat.lt_trans (few t) (by decide))
  | @coded k i =>
    refine fits_coded few fun t n mem same => ?_
    subst same
    exact h.2

namespace TableStream

variable {ts : Tables} {length : HeapKind → Nat} {s : Sizes}

def readNumber (width : Nat) (bytes : Bytes) : Option (Nat × Bytes) := do
  let (front, rest) ← split? width bytes
  return (ofLe front, rest)

def cell? (value : Nat) : Column → Option Cell
  | .number bytes => some (.number bytes value)
  | .heap kind => some (@Cell.heap kind ⟨value⟩)
  | .row t => some (@Cell.row t ⟨value⟩)
  | .coded k => (CodedIndex.decode k value).toOption.map .coded

def readCells (width : Column → Nat) : List Column → Bytes → Option (List Cell × Bytes)
  | [], bytes => some ([], bytes)
  | c :: columns, bytes => do
    let (value, bytes) ← readNumber (width c) bytes
    let cell ← cell? value c
    let (cells, bytes) ← readCells width columns bytes
    return (cell :: cells, bytes)

def readRows (width : Column → Nat) (t : Table) : Nat → Bytes → Option (List t.Row × Bytes)
  | 0, bytes => some ([], bytes)
  | n + 1, bytes => do
    let (cells, bytes) ← readCells width t.columns bytes
    let row ← ofCells? cells
    let (rows, bytes) ← readRows width t n bytes
    return (row :: rows, bytes)

/-- The row counts of the tables whose bits are set, by the numbers of the tables. -/
def readCounts (mask : Nat) : List Nat → Bytes → Option (List (Nat × Nat) × Bytes)
  | [], bytes => some ([], bytes)
  | n :: numbers, bytes =>
    if mask.testBit n then do
      let (count, bytes) ← readNumber 4 bytes
      let (counts, bytes) ← readCounts mask numbers bytes
      return ((n, count) :: counts, bytes)
    else readCounts mask numbers bytes

def readTables (width : Column → Nat) : List (Nat × Nat) → Tables → Bytes → Option (Tables × Bytes)
  | [], ts, bytes => some (ts, bytes)
  | (n, count) :: counts, ts, bytes => do
    let t ← Table.ofNumber? n
    let (rows, bytes) ← readRows width t count bytes
    readTables width counts (ts.modify t fun _ => rows.toArray) bytes

def countOf (counts : List (Nat × Nat)) (t : Table) : Nat := (counts.lookup t.number).getD 0

/-- The tables in a stream, and what follows them. A reserved word and the version come first, and
another reserved byte stands behind the flags of the heaps. -/
def read (bytes : Bytes) : Option (Tables × Bytes) := do
  let (_, bytes) ← readNumber 4 bytes
  let (major, bytes) ← readNumber 1 bytes
  let (minor, bytes) ← readNumber 1 bytes
  if major = 2 ∧ minor = 0 then
    let (flags, bytes) ← readNumber 1 bytes
    let (_, bytes) ← readNumber 1 bytes
    let (valid, bytes) ← readNumber 8 bytes
    let (_, bytes) ← readNumber 8 bytes
    let (counts, bytes) ← readCounts valid (List.range 64) bytes
    readTables (·.prescribed flags (countOf counts)) counts {} bytes
  else none

theorem readNumber_le {width n : Nat} (h : n < Nat.pow 256 width) (rest : Bytes) :
    readNumber width (le width n ++ rest) = some (n, rest) := by
  have split := split?_append (le width n) rest
  rw [length_le] at split
  rw [readNumber, split]
  have value : ofLe (le width n) = n := by rw [ofLe_le, Nat.mod_eq_of_lt h]
  exact congrArg (fun v => some (v, rest)) value

theorem cell?_value {rows : Table → Nat} {c : Cell} {v : Nat} (h : c.Inside length rows)
    (value : c.value = .ok v) : cell? v c.column = some c := by
  cases c with
  | number | heap | row =>
    cases value
    rfl
  | @coded k i =>
    have known : i = .null ∨ 0 < i.number := by
      cases i with
      | null => exact .inl rfl
      | row t n mem => exact .inr h.1
    rw [Cell.value, CodedIndex.encode] at value
    split at value
    case isTrue =>
      obtain rfl := Except.ok.inj value
      rw [Cell.column, cell?, CodedIndex.decode_code known]
      rfl
    case isFalse => cases value

section

variable {length : HeapKind → Nat} {s : Sizes}

theorem readCells_stored {cells : List Cell} (inside : ∀ c ∈ cells, c.Inside length s.rows)
    (fits : ∀ c ∈ cells, c.Fits s) (rest : Bytes) :
    readCells (·.width s) (cells.map (·.column)) (cells.flatMap (·.stored s) ++ rest) =
      some (cells, rest) := by
  induction cells with
  | nil => rfl
  | cons c cells ih =>
    obtain ⟨insideFirst, insideRest⟩ := forall_mem_cons.1 inside
    obtain ⟨fitsFirst, fitsRest⟩ := forall_mem_cons.1 fits
    obtain ⟨_, v, value, stored, bound⟩ := fitsFirst.encode
    rw [map_cons, flatMap_cons, readCells, stored, append_assoc, readNumber_le bound]
    simp [cell?_value insideFirst value, ih insideRest fitsRest]

theorem readRows_stored {t : Table} (rows : List t.Row)
    (inside : ∀ row ∈ rows, ∀ c ∈ cells row, c.Inside length s.rows)
    (fits : ∀ row ∈ rows, ∀ c ∈ cells row, c.Fits s) (rest : Bytes) :
    readRows (·.width s) t rows.length
        (rows.flatMap (fun row => (cells row).flatMap (·.stored s)) ++ rest) =
      some (rows, rest) := by
  induction rows with
  | nil => rfl
  | cons row rows ih =>
    obtain ⟨insideFirst, insideRest⟩ := forall_mem_cons.1 inside
    obtain ⟨fitsFirst, fitsRest⟩ := forall_mem_cons.1 fits
    have first := readCells_stored insideFirst fitsFirst
    rw [column_cells] at first
    rw [length_cons, flatMap_cons, readRows, append_assoc, first]
    simp [ofCells?_cells, ih insideRest fitsRest]

end

def listed (ts : Tables) (tables : List Table) : List (Nat × Nat) :=
  tables.map fun t => (t.number, ts.count t)

def storedRows (s : Sizes) (ts : Tables) (t : Table) : Bytes :=
  (ts.rows t).toList.flatMap fun row => (cells row).flatMap (·.stored s)

theorem readTables_stored (rows : s.rows = ts.count) (inside : ts.Inside length)
    (fits : ∀ t, ∀ row ∈ ts.rows t, ∀ c ∈ cells row, c.Fits s) (tables : List Table)
    (known : Tables) (rest : Bytes) :
    readTables (·.width s) (listed ts tables) known (tables.flatMap (storedRows s ts) ++ rest) =
      some (tables.foldl (fun known t => known.modify t fun _ => ts.rows t) known, rest) := by
  induction tables generalizing known with
  | nil => rfl
  | cons t tables ih =>
    have own := readRows_stored (s := s) (ts.rows t).toList
      (fun row hrow => rows ▸ inside t row (by simpa using hrow))
      (fun row hrow => fits t row (by simpa using hrow))
    rw [Array.length_toList] at own
    rw [listed, map_cons, readTables, Table.ofNumber?_number, flatMap_cons, storedRows,
      append_assoc, Option.bind_eq_bind, Option.bind_some]
    change (readRows _ t (ts.rows t).size _).bind _ = _
    rw [own, Option.bind_some]
    exact ih _

theorem rows_foldl_modify (ts : Tables) (tables : List Table) (known : Tables) (t : Table) :
    (tables.foldl (fun known t => known.modify t fun _ => ts.rows t) known).rows t =
      if t ∈ tables then ts.rows t else known.rows t := by
  induction tables generalizing known with
  | nil => rfl
  | cons u tables ih =>
    rw [foldl_cons, ih]
    by_cases same : t = u
    · subst same
      simp [Tables.rows_modify_self]
    · simp [Tables.rows_modify_of_ne _ _ same, same]

def present (ts : Tables) : List Table := Table.all.filter (ts.count · != 0)

theorem summary_eq_present (ts : Tables) :
    ts.summary = (present ts).map fun t => (t, ts.count t) := by
  rw [Tables.summary, present, filter_map]
  rfl

theorem mem_present {t : Table} : t ∈ present ts ↔ ts.count t ≠ 0 := by
  simp [present, Table.mem_all]

theorem testBit_mask (tables : List Table) (n : Nat) :
    (mask tables).testBit n = tables.any (·.number == n) := by
  have from_ (m : Nat) : (tables.foldl (fun m t => m ||| Nat.pow 2 t.number) m).testBit n =
      (m.testBit n || tables.any (·.number == n)) := by
    induction tables generalizing m with
    | nil => simp
    | cons t tables ih =>
      have own : (Nat.pow 2 t.number).testBit n = (t.number == n) :=
        Nat.testBit_two_pow.trans (Bool.eq_iff_iff.2 (by simp))
      rw [foldl_cons, ih, Nat.testBit_or, own, any_cons, Bool.or_assoc]
  simpa [mask] using from_ 0

theorem testBit_valid (ts : Tables) (n : Nat) :
    (valid ts).testBit n = (Table.ofNumber? n).any (ts.count · != 0) := by
  have tables : ts.summary.map (·.1) = present ts := by
    rw [summary_eq_present, map_map]
    exact map_id _
  rw [valid, tables, testBit_mask, Bool.eq_iff_iff]
  simp only [any_eq_true, beq_iff_eq, mem_present, Option.any_eq_true, bne_iff_ne]
  constructor
  · rintro ⟨t, nonempty, rfl⟩
    exact ⟨t, Table.ofNumber?_number t, nonempty⟩
  · rintro ⟨t, found, nonempty⟩
    exact ⟨t, nonempty, by simpa using List.find?_some found⟩

theorem valid_lt (ts : Tables) : valid ts < Nat.pow 256 8 := by
  refine Nat.lt_pow_two_of_testBit (n := 64) _ fun n large => ?_
  rw [testBit_valid]
  have none : Table.ofNumber? n = none := by
    rw [Table.ofNumber?, List.find?_eq_none]
    intro t _ same
    have small : t.number < 64 := by cases t <;> decide
    have := beq_iff_eq.1 same
    omega
  rw [none]
  rfl

theorem ofNumber?_range : (List.range 64).filterMap Table.ofNumber? = Table.all := by
  decide

theorem readCounts_stored (few : ∀ t, ts.count t < Nat.pow 2 27) (numbers : List Nat)
    (rest : Bytes) :
    readCounts (valid ts) numbers
        (((numbers.filterMap Table.ofNumber?).filter (ts.count · != 0)).flatMap
          (fun t => le 4 (ts.count t)) ++ rest) =
      some (listed ts ((numbers.filterMap Table.ofNumber?).filter (ts.count · != 0)), rest) := by
  induction numbers with
  | nil => rfl
  | cons n numbers ih =>
    rw [readCounts, testBit_valid]
    cases found : Table.ofNumber? n with
    | none =>
      rw [filterMap_cons_none found]
      simpa using ih
    | some t =>
      have number : t.number = n := by simpa using List.find?_some found
      rw [filterMap_cons_some found]
      by_cases empty : ts.count t = 0
      · simpa [empty] using ih
      · have small : ts.count t < Nat.pow 256 4 := Nat.lt_trans (few t) (by decide)
        rw [filter_cons_of_pos (by simpa using empty), flatMap_cons, append_assoc,
          readNumber_le small]
        simp [empty, ih, listed, number]

theorem countOf_listed (ts : Tables) (t : Table) : countOf (listed ts (present ts)) t = ts.count t := by
  have find (tables : List Table) : (listed ts tables).lookup t.number =
      if t ∈ tables then some (ts.count t) else none := by
    induction tables with
    | nil => rfl
    | cons u tables ih =>
      have injective : t.number = u.number → t = u := fun same => by
        have known := Table.ofNumber?_number t
        rw [same, Table.ofNumber?_number] at known
        exact (Option.some.inj known).symm
      rw [listed, map_cons, lookup_cons]
      by_cases same : t = u
      · subst same
        simp
      · have other : (t.number == u.number) = false := by
          simpa using fun h => same (injective h)
        rw [other]
        simpa [same, listed] using ih
  rw [countOf, find]
  by_cases empty : ts.count t = 0
  · rw [if_neg (by simpa [mem_present] using empty), empty]
    rfl
  · rw [if_pos (by simpa [mem_present] using empty)]
    rfl

theorem tableFields_eq_encode (s : Sizes) (ts : Tables) (t : Table) : tableFields s ts t =
    (ts.rows t).toList.flatMap fun row => (cells row).map (·.encode s) := by
  refine flatMap_congr fun row _ => ?_
  rw [rowFields, ← column_cells row, map_map, zipWith_map_left, zipWith_self]
  rfl

theorem encodeRows_eq_ok (fits : ∀ t, ∀ row ∈ ts.rows t, ∀ c ∈ cells row, c.Fits s) :
    encodeRows s ts = .ok (Table.all.flatMap (storedRows s ts)) := by
  have written : ∀ f ∈ Table.all.flatMap (tableFields s ts), ∃ bytes, f = .ok bytes := by
    intro f hf
    obtain ⟨t, _, member⟩ := mem_flatMap.1 hf
    rw [tableFields_eq_encode] at member
    obtain ⟨row, hrow, member⟩ := mem_flatMap.1 member
    obtain ⟨c, hc, rfl⟩ := mem_map.1 member
    exact ⟨_, (fits t row (by simpa using hrow) c hc).encode.1⟩
  rw [encodeRows, Field.join_eq_ok written, flatMap_assoc]
  refine congrArg Except.ok (flatMap_congr fun t _ => ?_)
  rw [tableFields_eq_encode, flatMap_assoc]
  refine flatMap_congr fun row _ => ?_
  rw [flatMap_map]
  rfl

theorem read_header (heaps : HeapSizes) (few : ∀ t, ts.count t < Nat.pow 2 27) (rest : Bytes) :
    read (header heaps ts ++ rest) =
      readTables (·.prescribed heaps.flags.toNat ts.count) (listed ts (present ts)) {} rest := by
  have counts := readCounts_stored few (List.range 64) rest
  rw [ofNumber?_range] at counts
  change readCounts _ _ ((present ts).flatMap _ ++ _) = some (listed ts (present ts), rest) at counts
  have flat : (ts.summary.flatMap fun x => le 4 x.2) =
      (present ts).flatMap fun t => le 4 (ts.count t) := by
    rw [summary_eq_present, flatMap_map]
  have byte (b : UInt8) (rest : Bytes) : readNumber 1 (b :: rest) = some (b.toNat, rest) := by
    simp [readNumber, split?, ofLe]
  have reserved : 0 < Nat.pow 256 4 := by decide
  have sorted_lt : sorted < Nat.pow 256 8 := by decide
  have counted : countOf (listed ts (present ts)) = ts.count := funext (countOf_listed ts)
  have version : ((2 : UInt8).toNat = 2 ∧ (0 : UInt8).toNat = 0) := ⟨rfl, rfl⟩
  rw [read, header, flat]
  simp only [append_assoc, cons_append, nil_append,
    readNumber_le reserved, byte, readNumber_le (valid_lt ts),
    readNumber_le sorted_lt, counts, counted, version, Option.bind_eq_bind, Option.bind_some,
    and_self, if_true]

theorem flatMap_present (s : Sizes) (ts : Tables) :
    (present ts).flatMap (storedRows s ts) = Table.all.flatMap (storedRows s ts) := by
  rw [present]
  induction Table.all with
  | nil => rfl
  | cons t tables ih =>
    by_cases empty : ts.count t = 0
    · have none : storedRows s ts t = [] := by
        rw [storedRows, Array.size_eq_zero_iff.1 empty]
        rfl
      simp [empty, none, ih]
    · simp [empty, ih]

theorem written_tables_read_back {length : HeapKind → Nat} {ts : Tables} (inside : ts.Inside length)
    (addressable : ts.Addressable) (few : ∀ t, ts.count t < Nat.pow 2 27) :
    ∃ bytes pad, encode (.ofLengths (length .strings) (length .guids) (length .blobs)) ts = .ok bytes ∧
      read bytes = some (ts, Bytes.zeros pad) ∧ pad ≤ 3 := by
  generalize same : HeapSizes.ofLengths (length .strings) (length .guids) (length .blobs) = heaps
  have fits : ∀ t, ∀ row ∈ ts.rows t, ∀ c ∈ TableRow.cells row, c.Fits ⟨heaps, ts.count⟩ := by
    intro t row hrow c hc
    refine (inside t row hrow c hc).fits (TableRow.sized_cells row c hc) (addressable t row hrow c hc)
      (fun kind => ?_) few
    rw [← same]
    exact HeapSizes.wide_ofLengths length kind
  generalize written : header heaps ts ++ Table.all.flatMap (storedRows ⟨heaps, ts.count⟩ ts) = bytes
  refine ⟨Bytes.padTo 4 bytes, Bytes.padding 4 bytes.length, ?_, ?_, ?_⟩
  · rw [encode, encodeRows_eq_ok fits, ← written]
    rfl
  · have widths : (fun c : Column => c.prescribed heaps.flags.toNat ts.count) =
        fun c => c.width ⟨heaps, ts.count⟩ :=
      funext (Column.prescribed_eq_width ⟨heaps, ts.count⟩)
    rw [Bytes.padTo, ← written, List.append_assoc, read_header heaps few, widths, ← flatMap_present,
      readTables_stored rfl inside fits]
    refine congrArg (fun ts => some (ts, _)) (Tables.ext_rows fun t => ?_)
    rw [rows_foldl_modify]
    split
    case isTrue => rfl
    case isFalse absent =>
        have empty : ts.count t = 0 := by simpa [mem_present] using absent
        rw [Array.size_eq_zero_iff.1 empty]
        cases t <;> rfl
  · exact Nat.le_of_lt_succ (Nat.mod_lt _ (by decide))

/-- Types without a base and a field, next to a type of another scope; the names are far into a heap that
is large enough for wide offsets. -/
def smallTables : Tables where
  module := #[⟨0, ⟨0x12345⟩, ⟨1⟩, ⟨0⟩, ⟨0⟩⟩]
  typeRef := #[⟨.row .module 1, ⟨0xFFFF⟩, ⟨0⟩⟩]
  typeDef := #[⟨0x100000, ⟨0x10000⟩, ⟨0⟩, .null, ⟨1⟩, ⟨0⟩⟩, ⟨0, ⟨7⟩, ⟨9⟩, .null, ⟨1⟩, ⟨0⟩⟩]
  field := #[⟨0x16, ⟨0x10001⟩, ⟨5⟩⟩]

def smallHeaps : HeapKind → Nat
  | .strings => 0x20000
  | .guids => 16
  | .blobs => 6

theorem written_tables_read_back_small :
    smallTables.Inside smallHeaps ∧ smallTables.Addressable ∧
      (∀ t, smallTables.count t < Nat.pow 2 27) ∧
      ∃ bytes pad, encode (.ofLengths (smallHeaps .strings) (smallHeaps .guids) (smallHeaps .blobs))
          smallTables = .ok bytes ∧
        read bytes = some (smallTables, Bytes.zeros pad) ∧ pad ≤ 3 := by
  have inside : smallTables.Inside smallHeaps := by decide
  have addressable : smallTables.Addressable := by decide
  have few : ∀ t, smallTables.count t < Nat.pow 2 27 := by
    intro t
    cases t <;> decide
  exact ⟨inside, addressable, few, written_tables_read_back inside addressable few⟩

def farTables : Tables where
  moduleRef := #[⟨⟨0x100000000⟩⟩]

def farHeaps : HeapKind → Nat
  | .strings => 0x100000001
  | .guids => 0
  | .blobs => 1

/-- Such an offset loses its highest bit. -/
theorem far_offset_lost :
    farTables.Inside farHeaps ∧ (∀ t, farTables.count t < Nat.pow 2 27) ∧
      ∃ bytes, encode (.ofLengths (farHeaps .strings) (farHeaps .guids) (farHeaps .blobs)) farTables =
          .ok bytes ∧
        ∀ rest, read bytes ≠ some (farTables, rest) := by
  have stored : ((encode (.ofLengths 0x100000001 0 1) farTables).toOption.bind read).map
      (fun r => r.1.moduleRef.toList.map (·.name.offset)) = some [0] := by
    decide +kernel
  have inside : farTables.Inside farHeaps := by decide
  have few : ∀ t, farTables.count t < Nat.pow 2 27 := by
    intro t
    cases t <;> decide
  cases written : encode (.ofLengths 0x100000001 0 1) farTables with
  | error e =>
      rw [written] at stored
      cases stored
  | ok bytes =>
      rw [written] at stored
      refine ⟨inside, few, bytes, written, fun rest same => ?_⟩
      rw [Except.toOption, Option.bind_some, same] at stored
      have offsets : farTables.moduleRef.toList.map (·.name.offset) = [0] := Option.some.inj stored
      exact absurd offsets (by decide)

end TableStream
end Cil
