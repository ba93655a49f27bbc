import Cil.Table.Row

/-!
Sorted tables. A row goes behind all rows whose key is not greater, so that rows with equal keys stay
in the order of insertion.
-/

namespace Cil

/-- The rows of a sorted table. Keys are compared place by place. -/
class SortedRow (α : Type) where
  key : α → List Nat

namespace SortedRow

/-- The order of keys: the first place that differs decides. -/
def keyLe : List Nat → List Nat → Bool
  | [], _ => true
  | _ :: _, [] => false
  | a :: as, b :: bs => a < b || (a == b && keyLe as bs)

variable {α : Type} [SortedRow α]

def le (a b : α) : Bool := keyLe (key a) (key b)

/-- The place behind the last of the first `n` rows that is not greater than `row`. The rows are looked at
one by one from the last; in a sorted table a search by halves ends at the same place. -/
def upperBound (rows : Array α) (row : α) : Nat → Nat
  | 0 => 0
  | n + 1 =>
    match rows[n]? with
    | some r => if le r row then n + 1 else upperBound rows row n
    | none => upperBound rows row n

/-- Where a row goes in a sorted table. -/
def position (rows : Array α) (row : α) : Nat := upperBound rows row rows.size

def insert (rows : Array α) (row : α) : Array α :=
  rows.insertIdxIfInBounds (position rows row) row

end SortedRow

namespace Row

instance : SortedRow InterfaceImpl := ⟨fun r => [r.owner.number, r.interface.number, r.interface.tag]⟩
instance : SortedRow Constant := ⟨fun r => [r.parent.number, r.parent.tag]⟩
instance : SortedRow CustomAttribute := ⟨fun r => [r.parent.number, r.parent.tag]⟩
instance : SortedRow FieldMarshal := ⟨fun r => [r.parent.number, r.parent.tag]⟩
instance : SortedRow DeclSecurity := ⟨fun r => [r.parent.number, r.parent.tag]⟩
instance : SortedRow ClassLayout := ⟨fun r => [r.parent.number]⟩
instance : SortedRow FieldLayout := ⟨fun r => [r.field.number]⟩
instance : SortedRow MethodSemantics := ⟨fun r => [r.association.number, r.association.tag]⟩
instance : SortedRow MethodImpl := ⟨fun r => [r.owner.number]⟩
instance : SortedRow ImplMap := ⟨fun r => [r.memberForwarded.number, r.memberForwarded.tag]⟩
instance : SortedRow FieldRva := ⟨fun r => [r.field.number]⟩
instance : SortedRow NestedClass := ⟨fun r => [r.nested.number]⟩
instance : SortedRow GenericParam := ⟨fun r => [r.owner.number, r.owner.tag, r.number.toNat]⟩
instance : SortedRow GenericParamConstraint := ⟨fun r => [r.owner.number]⟩

end Row

namespace Table

/-- The order of the rows of a table that is kept sorted. -/
def sortedRow? : (t : Table) → Option (SortedRow t.Row)
  | interfaceImpl => some (inferInstanceAs (SortedRow Cil.Row.InterfaceImpl))
  | constant => some (inferInstanceAs (SortedRow Cil.Row.Constant))
  | customAttribute => some (inferInstanceAs (SortedRow Cil.Row.CustomAttribute))
  | fieldMarshal => some (inferInstanceAs (SortedRow Cil.Row.FieldMarshal))
  | declSecurity => some (inferInstanceAs (SortedRow Cil.Row.DeclSecurity))
  | classLayout => some (inferInstanceAs (SortedRow Cil.Row.ClassLayout))
  | fieldLayout => some (inferInstanceAs (SortedRow Cil.Row.FieldLayout))
  | methodSemantics => some (inferInstanceAs (SortedRow Cil.Row.MethodSemantics))
  | methodImpl => some (inferInstanceAs (SortedRow Cil.Row.MethodImpl))
  | implMap => some (inferInstanceAs (SortedRow Cil.Row.ImplMap))
  | fieldRva => some (inferInstanceAs (SortedRow Cil.Row.FieldRva))
  | nestedClass => some (inferInstanceAs (SortedRow Cil.Row.NestedClass))
  | genericParam => some (inferInstanceAs (SortedRow Cil.Row.GenericParam))
  | genericParamConstraint => some (inferInstanceAs (SortedRow Cil.Row.GenericParamConstraint))
  | _ => none

def isSorted (t : Table) : Bool := t.sortedRow?.isSome

end Table
end Cil
