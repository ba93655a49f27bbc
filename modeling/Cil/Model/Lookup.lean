import Cil.Error
import Cil.Model.Module

/-!
The parts of a module by their identifiers.
-/

namespace Cil
namespace Module

def typeInfo (m : Module) (id : TypeId) : Except Error TypeInfo :=
  match m.type? id with
  | some t => .ok t
  | none => .error (.unresolved (.type id))

def fieldDef (m : Module) (id : FieldId) : Except Error FieldDef := do
  match (← m.typeInfo id.parent).fields[id.index]? with
  | some f => .ok f
  | none => .error (.unresolved (.field id))

def methodDef (m : Module) (id : MethodId) : Except Error Method := do
  match (← m.typeInfo id.parent).methods[id.index]? with
  | some f => .ok f
  | none => .error (.unresolved (.method id))

end Module
end Cil
