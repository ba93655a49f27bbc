import Cil.Heap.Blobs
import Cil.Tables

/-!
How the rows of specs are found again: those of types by their signatures, those of methods by the
method and its instantiation. The rows are kept under a hash of what they are for; the other way is to
go through the table in its order.
-/

namespace Cil

/-- The hash FNV-1a. -/
def fnv1a (values : List Nat) : UInt64 :=
  values.foldl (fun hash v => (hash ^^^ .ofNat v) * 0x100000001B3) 0xCBF29CE484222325

/-- The hashes that rows of specs are kept under. -/
structure SpecKeys where
  typeSpec : Bytes → UInt64
  methodSpec : MethodDefOrRef → BlobIndex → UInt64

def SpecKeys.fnv : SpecKeys where
  typeSpec blob := fnv1a (blob.map (·.toNat))
  methodSpec method instantiation := fnv1a [method.tag, method.number, instantiation.offset]

inductive SpecSearch
  /-- The first row of the table that is for the same. -/
  | listed
  /-- The first row with the same hash that is for the same. -/
  | keyed (keys : SpecKeys)

structure SpecIndex where
  search : SpecSearch := .keyed .fnv
  /-- The rows with their tables and hashes in the order of writing; rows are counted from 0. -/
  rows : Array (Table × UInt64 × Nat) := #[]

namespace SpecIndex

variable (x : SpecIndex) (t : Table)

/-- The first row of a table that is kept under a hash and has a property. -/
def find? (key : UInt64) (p : Nat → Bool) : Option Nat :=
  (x.rows.find? fun (table, k, row) => table == t && k == key && p row).map (·.2.2)

def add (key : SpecKeys → UInt64) (row : Nat) : SpecIndex :=
  match x.search with
  | .listed => x
  | .keyed keys => { x with rows := x.rows.push (t, key keys, row) }

end SpecIndex
end Cil
