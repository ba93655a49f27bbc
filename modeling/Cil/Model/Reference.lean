import Cil.Model.TypeSig

/-!
Uses of members. The declaring type as seen from the place of use, type arguments and the types of
additional arguments turn a definition into a reference.
-/

namespace Cil

structure MethodRef where
  method : MethodId
  parent : Option TypeSig := none
  genericArguments : List TypeSig := []
  varArgTypes : List TypeSig := []

structure FieldRef where
  field : FieldId
  parent : Option TypeSig := none

end Cil
