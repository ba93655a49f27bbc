import Cil.Assemble.Populate.Generics
import Cil.Assemble.Populate.Manifest
import Cil.Assemble.Populate.Types

/-!
The tables of a module, filled in a fixed order: each kind of row for all types in turn, then the
manifest, the generic parameters, the remaining references, and last the custom attributes.
-/

namespace Cil
namespace Populate

/-- The row of the module itself, which is the first to be written. -/
def moduleRow (m : Module) : Emit Unit := do
  let name ← Emit.string m.name
  let mvid ← Emit.guid m.mvid
  let _ ← Emit.push .module { generation := 0, name, mvid, encId := {}, encBaseId := {} }

def all (src : Source) (publicKey : Option Bytes) : Emit Unit := do
  let types := src.definitions
  attach (.row (.row .module 1)) src.module.attributes
  types.forM (typeDef src)
  types.forM (fields src)
  types.forM (methods src)
  types.forM params
  types.forM (members src)
  types.forM (properties src)
  types.forM (events src)
  types.forM (accessors src)
  types.forM (methodImpls src)
  types.forM (implMaps src)
  types.forM fieldRvas
  manifest src publicKey
  types.forM (nestedClass src)
  generics src
  references src
  customAttributes src

/-- The token of the entry point, or 0. -/
def entryPoint (src : Source) : Except Error Nat :=
  match src.module.entryPoint with
  | none => .ok 0
  | some (.method method) =>
    match src.numbering.methodRow? method with
    | some row => (Token.row .methodDef row).encode.mapError .encoding
    | none => .error (.unresolved (.entryPoint method))
  | some (.file file) => do
    (Token.row .file (← fileRow src.module file)).encode.mapError .encoding

end Populate
end Cil
