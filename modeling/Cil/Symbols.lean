import Cil.Image
import Cil.Model.Lookup

/-!
Debug symbols: the scopes, named locals and sequence points of each method, told to a symbol writer
once the image is complete.
-/

namespace Cil

/-- An instruction that starts a range of source text. -/
structure SequencePoint where
  offset : Nat
  startLine : Nat
  startColumn : Nat
  endLine : Nat
  endColumn : Nat
  deriving DecidableEq

inductive ScopeEvent
  | opened (offset : Nat)
  | named (name : String) (slot : Nat) (signature : Bytes)
  | closed (offset : Nat)
  deriving DecidableEq

/-- What is known about a method that has scopes or sequence points. -/
structure MethodSymbols where
  token : Nat
  codeSize : Nat
  scopes : List ScopeEvent
  points : List (DocumentId × SequencePoint)
  deriving DecidableEq

/-- What a symbol writer is told. -/
inductive SymbolCall
  | openMethod (token : Nat)
  | openScope (offset : Nat)
  | closeScope (offset : Nat)
  | defineLocal (name : String) (slot : Nat) (signature : Bytes)
  | definePoints (document : Document) (points : List SequencePoint)
  | closeMethod

/-- Actions of a service with a state of its own, which is kept when an action fails. -/
abbrev Service (σ : Type) := ExceptT Error (StateM σ)

/-- A symbol writer can look up names in the image. -/
abbrev SymbolWriter (σ : Type) := Image → SymbolCall → Service σ Unit

def ScopeEvent.call : ScopeEvent → SymbolCall
  | opened offset => .openScope offset
  | named name slot signature => .defineLocal name slot signature
  | closed offset => .closeScope offset

namespace MethodSymbols

/-- The documents of the points, in the order of their first use. -/
def documents (d : MethodSymbols) : List DocumentId := (d.points.map (·.1)).eraseDups

/-- The points in one document. -/
def pointsIn (d : MethodSymbols) (document : DocumentId) : List SequencePoint :=
  d.points.filterMap fun (id, point) => if id = document then some point else none

/-- The calls for a method, up to the first point in a document that the module lacks. -/
def calls (m : Module) (d : MethodSymbols) : List (Except Error SymbolCall) :=
  [.ok (.openMethod d.token), .ok (.openScope 0)] ++ d.scopes.map (.ok ·.call) ++
    d.documents.map (fun id =>
      match m.documents[id.index]? with
      | some document => .ok (.definePoints document (d.pointsIn id))
      | none => .error (.unresolved (.document id))) ++
    [.ok (.closeScope d.codeSize), .ok .closeMethod]

/-- Tells a writer about methods, until it fails. -/
def replay {σ : Type} (writer : SymbolCall → Service σ Unit) (m : Module)
    (methods : List MethodSymbols) : Service σ Unit :=
  methods.forM fun d => (d.calls m).forM fun call => do
    writer (← ExceptT.mk (pure call))

end MethodSymbols
end Cil
