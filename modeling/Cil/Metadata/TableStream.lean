import Cil.Tables

/-!
The stream of tables: a header with the heap sizes, the masks of present and of sorted tables and
the row counts, then all rows by table, padded to a multiple of four bytes.
-/

namespace Cil
namespace TableStream

/-- A mask with the bits of some tables. -/
def mask (ts : List Table) : Nat := ts.foldl (fun m t => m ||| Nat.pow 2 t.number) 0

/-- The mask of the tables that have rows. -/
def valid (ts : Tables) : Nat := mask (ts.summary.map (·.1))

/-- The mask of the tables that are kept sorted. -/
def sorted : Nat := mask (Table.all.filter (·.isSorted))

def rowFields {t : Table} (widths : List Nat) (row : t.Row) : List Field :=
  List.zipWith (fun width (c : Cell) => c.value.map (Bytes.le width)) widths (TableRow.cells row)

def tableFields (s : Sizes) (ts : Tables) (t : Table) : List Field :=
  let widths := t.columns.map (·.width s)
  (ts.rows t).toList.flatMap (rowFields widths)

/-- All rows in the order of the tables. -/
def encodeRows (s : Sizes) (ts : Tables) : Except EncodingError Bytes :=
  Field.join (Table.all.flatMap (tableFields s ts))

def header (heaps : HeapSizes) (ts : Tables) : Bytes :=
  Bytes.le 4 0 ++ [2, 0, heaps.flags, 1] ++ Bytes.le 8 (valid ts) ++ Bytes.le 8 sorted ++
    ts.summary.flatMap fun (_, count) => Bytes.le 4 count

def encode (heaps : HeapSizes) (ts : Tables) : Except EncodingError Bytes := do
  let rows ← encodeRows ⟨heaps, ts.count⟩ ts
  return Bytes.padTo 4 (header heaps ts ++ rows)

end TableStream
end Cil
