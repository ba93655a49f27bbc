/-!
Names of the parts of a module. A type is named by its place in the module, a member by its type and
its place there.
-/

namespace Cil

structure TypeId where
  index : Nat
  deriving DecidableEq

/-- The type that holds global fields and methods. -/
def TypeId.globals : TypeId := ⟨0⟩

structure FieldId where
  parent : TypeId
  index : Nat
  deriving DecidableEq

structure MethodId where
  parent : TypeId
  index : Nat
  deriving DecidableEq

structure PropertyId where
  parent : TypeId
  index : Nat
  deriving DecidableEq

structure EventId where
  parent : TypeId
  index : Nat
  deriving DecidableEq

structure AssemblyRefId where
  index : Nat
  deriving DecidableEq

structure ModuleRefId where
  index : Nat
  deriving DecidableEq

structure FileId where
  index : Nat
  deriving DecidableEq

structure ExportedTypeId where
  index : Nat
  deriving DecidableEq

structure DocumentId where
  index : Nat
  deriving DecidableEq

/-- The name of a block of statements; several blocks of a body may carry the same one. -/
structure BlockId where
  index : Nat
  deriving DecidableEq

instance : Ord BlockId := ⟨compareOn BlockId.index⟩

instance : Std.TransOrd BlockId := inferInstanceAs (Std.TransCmp (compareOn BlockId.index))

instance : Std.LawfulEqOrd BlockId where
  eq_of_compare {a b} h := by
    cases a
    exact congrArg BlockId.mk (Std.LawfulEqOrd.eq_of_compare h)

end Cil
