import Cil.Metadata.TableStream

/-!
How wide the cells of tables are, and what fits them. The rules of the format give each column a width
by the flags of the heaps and the row counts alone; a cell whose value fits that width is stored
without loss.
-/

namespace Cil

namespace HeapSizes

theorem wide_ofLengths (length : HeapKind → Nat) (kind : HeapKind) :
    (ofLengths (length .strings) (length .guids) (length .blobs)).wide kind =
      decide (0x10000 ≤ length kind) := by
  by_cases strings : 0x10000 ≤ length .strings <;> by_cases guids : 0x10000 ≤ length .guids <;>
    by_cases blobs : 0x10000 ≤ length .blobs <;> cases kind <;>
    simp only [ofLengths, strings, guids, blobs, if_true, if_false] <;> rfl

end HeapSizes

namespace Column

/-- The width of a column by the rules of the format. The flags have a bit for each heap; an index of
one table has two bytes if the table has less than 2^16 rows, and one of several tables if the rows of
each of them leave room for the tag. -/
def prescribed (flags : Nat) (rows : Table → Nat) : Column → Nat
  | number bytes => bytes
  | heap .strings => if flags.testBit 0 then 4 else 2
  | heap .guids => if flags.testBit 1 then 4 else 2
  | heap .blobs => if flags.testBit 2 then 4 else 2
  | row t => if rows t < 0x10000 then 2 else 4
  | coded k => if ∀ t ∈ k.tables, rows t < Nat.pow 2 (16 - k.tagBits) then 2 else 4

theorem prescribed_eq_width (s : Sizes) (c : Column) :
    c.prescribed s.heaps.flags.toNat s.rows = c.width s := by
  cases c with
  | number bytes => rfl
  | heap kind => cases kind <;> rfl
  | row t =>
    by_cases h : s.rows t < 0x10000
    · simp [prescribed, width, wide, h]
    · simp [prescribed, width, wide, h, Nat.le_of_not_lt h]
  | coded k =>
    have wide : (Column.coded k).wide s = !decide (∀ t ∈ k.tables, s.rows t <
        Nat.pow 2 (16 - k.tagBits)) := by
      rw [Column.wide, CodedIndex.Kind.wide, Bool.eq_iff_iff]
      simp
    by_cases h : ∀ t ∈ k.tables, s.rows t < Nat.pow 2 (16 - k.tagBits)
    · rw [prescribed, if_pos h, width, wide, decide_eq_true h]
      · rfl
      · exact nofun
    · rw [prescribed, if_neg h, width, wide, decide_eq_false h]
      · rfl
      · exact nofun

end Column

theorem TableRow.column_cells {t : Table} (row : t.Row) :
    (cells row).map (·.column) = t.columns := by
  cases t <;> rfl

namespace CodedIndex

theorem Kind.tagBits_le (k : Kind) : k.tagBits ≤ 5 := by
  cases k <;> decide

theorem tag_lt {k : Kind} (i : CodedIndex k) : i.tag < Nat.pow 2 k.tagBits := by
  have room : k.slots.length ≤ Nat.pow 2 k.tagBits := by cases k <;> decide
  cases i with
  | null => exact Nat.pow_pos (by decide)
  | row t n mem =>
    exact Nat.lt_of_lt_of_le (List.idxOf_lt_length_of_mem (Kind.some_mem_slots mem)) room

theorem code_lt {k : Kind} (i : CodedIndex k) (bits : Nat) (enough : k.tagBits ≤ bits)
    (h : i.number < Nat.pow 2 (bits - k.tagBits)) :
    i.number * Nat.pow 2 k.tagBits + i.tag < Nat.pow 2 bits := by
  have split : Nat.pow 2 bits = Nat.pow 2 (bits - k.tagBits) * Nat.pow 2 k.tagBits := by
    have := Nat.pow_add 2 (bits - k.tagBits) k.tagBits
    rwa [Nat.sub_add_cancel enough] at this
  have tag := i.tag_lt
  calc
    i.number * Nat.pow 2 k.tagBits + i.tag < (i.number + 1) * Nat.pow 2 k.tagBits := by
      rw [Nat.add_mul, Nat.one_mul]
      omega
    _ ≤ Nat.pow 2 bits := by
      rw [split]
      exact Nat.mul_le_mul_right _ h

theorem decode_row {k : Kind} {t : Table} {n : Nat} (mem : t ∈ k.tables)
    (nonzero : n * Nat.pow 2 k.tagBits + k.tag t ≠ 0) :
    decode k (n * Nat.pow 2 k.tagBits + k.tag t) = .ok (row t n mem) := by
  have small : k.tag t < Nat.pow 2 k.tagBits := (row t n mem).tag_lt
  have room : 0 < Nat.pow 2 k.tagBits := Nat.pow_pos (by decide)
  have low : (n * Nat.pow 2 k.tagBits + k.tag t) % Nat.pow 2 k.tagBits = k.tag t := by
    rw [Nat.mul_add_mod_self_right, Nat.mod_eq_of_lt small]
  have high : (n * Nat.pow 2 k.tagBits + k.tag t) / Nat.pow 2 k.tagBits = n := by
    rw [Nat.mul_comm, Nat.mul_add_div room, Nat.div_eq_of_lt small, Nat.add_zero]
  rw [decode, if_neg nonzero]
  split
  case h_1 u found =>
    rw [low, Kind.table?_tag mem] at found
    cases found
    simp only [high]
  case h_2 missing =>
    rw [low, Kind.table?_tag mem] at missing
    cases missing

theorem decode_code {k : Kind} {i : CodedIndex k} (h : i = null ∨ 0 < i.number) :
    decode k (i.number * Nat.pow 2 k.tagBits + i.tag) = .ok i := by
  cases i with
  | null => simp [number, tag, decode]
  | row t n mem =>
    have positive : 0 < n := by simpa [number] using h
    have room : 0 < Nat.pow 2 k.tagBits := Nat.pow_pos (by decide)
    exact decode_row mem (Nat.ne_of_gt (Nat.add_pos_left (Nat.mul_pos positive room) _))

end CodedIndex

namespace Cell

variable {s : Sizes}

/-- The value of a cell fits the width of its column. -/
def Fits (s : Sizes) (c : Cell) : Prop :=
  ∃ v, c.value = .ok v ∧ v < Nat.pow 256 (c.column.width s)

/-- Numbers are as large as they say. -/
def Sized : Cell → Prop
  | number bytes v => v < Nat.pow 256 bytes
  | _ => True

def stored (s : Sizes) (c : Cell) : Bytes := (c.encode s).toOption.getD []

theorem Fits.encode {c : Cell} (h : c.Fits s) :
    c.encode s = .ok (c.stored s) ∧ ∃ v, c.value = .ok v ∧
      c.stored s = Bytes.le (c.column.width s) v ∧ v < Nat.pow 256 (c.column.width s) := by
  obtain ⟨v, value, bound⟩ := h
  have encoded : c.encode s = .ok (Bytes.le (c.column.width s) v) := by
    rw [Cell.encode, value]
    rfl
  have stored : c.stored s = Bytes.le (c.column.width s) v := by
    rw [Cell.stored, encoded]
    rfl
  exact ⟨by rw [encoded, stored], v, value, stored, bound⟩

theorem width_heap {kind : HeapKind} {v : Nat} (wide : v < 0x100000000)
    (narrow : s.heaps.wide kind = false → v < 0x10000) :
    v < Nat.pow 256 ((Column.heap kind).width s) := by
  rw [Column.width]
  · split
    case isTrue => exact wide
    case isFalse h => exact narrow (by simpa [Column.wide] using h)
  · exact nofun

theorem width_row {t : Table} {v : Nat} (wide : v < 0x100000000)
    (narrow : s.rows t < 0x10000 → v < 0x10000) : v < Nat.pow 256 ((Column.row t).width s) := by
  rw [Column.width]
  · split
    case isTrue => exact wide
    case isFalse h => exact narrow (by simpa [Column.wide] using h)
  · exact nofun

theorem fits_coded {k : CodedIndex.Kind} {i : CodedIndex k} (few : ∀ t, s.rows t < Nat.pow 2 27)
    (h : ∀ t n mem, i = .row t n mem → n ≤ s.rows t) : (coded i).Fits s := by
  have bits := k.tagBits_le
  have small (b : Nat) (low : k.tagBits ≤ b)
      (rows : ∀ t ∈ k.tables, s.rows t < Nat.pow 2 (b - k.tagBits)) :
      i.number < Nat.pow 2 (b - k.tagBits) := by
    cases i with
    | null => exact Nat.pow_pos (by decide)
    | row t n mem => exact Nat.lt_of_le_of_lt (h t n mem rfl) (rows t mem)
  have large : i.number < Nat.pow 2 (32 - k.tagBits) := by
    refine small 32 (by omega) fun t _ => Nat.lt_of_lt_of_le (few t) ?_
    exact Nat.pow_le_pow_right (by decide) (by omega)
  refine ⟨i.number * Nat.pow 2 k.tagBits + i.tag, ?_, ?_⟩
  · rw [value, CodedIndex.encode, if_pos large]
  · rw [column, Column.width]
    · split
      case isTrue => exact i.code_lt 32 (by omega) large
      case isFalse narrow =>
        refine i.code_lt 16 (by omega) (small 16 (by omega) fun t mem => ?_)
        simp only [Column.wide, CodedIndex.Kind.wide, List.any_eq_true, decide_eq_true_eq,
          not_exists, not_and] at narrow
        exact Nat.lt_of_not_le (narrow t mem)
    · exact nofun

end Cell

theorem TableRow.sized_cells {t : Table} (row : t.Row) : ∀ c ∈ cells row, c.Sized := by
  have byte (v : UInt8) : (Cell.byte v).Sized := v.toNat_lt
  have half (v : UInt16) : (Cell.half v).Sized := v.toNat_lt
  have word (v : UInt32) : (Cell.word v).Sized := v.toNat_lt
  have heap {k : HeapKind} (i : HeapIndex k) : (Cell.heap i).Sized := trivial
  have index {t : Table} (i : RowIndex t) : (Cell.row i).Sized := trivial
  have coded {k : CodedIndex.Kind} (i : CodedIndex k) : (Cell.coded i).Sized := trivial
  cases t <;> simp [cells, byte, half, word, heap, index, coded]

end Cil
