import Cil.Model.Lookup

/-!
Names of types in attribute values: the enclosing types, the arguments, and the assembly that the
outermost type comes from. A suffix for arrays, pointers and references goes in front of the
assembly, which starts behind the first comma and blank; behind a generic type it goes to the end.
-/

namespace Cil
namespace TypeName

/-- A type and the types around it, the outermost last. -/
def enclosing (m : Module) : (fuel : Nat) → TypeId → Except Error (List TypeInfo)
  | 0, id => do throw (.violation (.cyclicNesting (← m.typeInfo id).fullName))
  | fuel + 1, id => do
    let t ← m.typeInfo id
    match t.declaringType with
    | some outer => return t :: (← enclosing m fuel outer)
    | none => return [t]

/-- The name of a type behind those of the types around it. -/
def nested : List TypeInfo → String
  | [] => ""
  | [t] => t.fullName
  | t :: outer => nested outer ++ "+" ++ t.name

def keyText (r : AssemblyReference) : String :=
  match r.publicKeyOrToken with
  | some key =>
    if r.hasFullPublicKey then "PublicKey=" ++ Bytes.hex key
    else if key.isEmpty then "PublicKeyToken=null"
    else "PublicKeyToken=" ++ Bytes.hex key
  | none => "PublicKeyToken=null"

def assemblyText (r : AssemblyReference) : String :=
  let v := r.version
  let culture := r.culture.getD "neutral"
  s!"{r.name}, Version={v.major}.{v.minor}.{v.build}.{v.revision}, " ++
    s!"Culture={culture}, {keyText r}"

/-- The assembly that a type comes from, for a type of another assembly. -/
def qualifier (m : Module) (t : TypeInfo) : Except Error (Option String) :=
  match t.scope with
  | .assembly a =>
    match m.assemblyReferences[a.index]? with
    | some r => .ok (some (assemblyText r))
    | none => .error (.unresolved (.assemblyReference a))
  | .unresolved => .error (.unresolved (.scope t.fullName))
  | .defined | .module _ => .ok none

def withQualifier (base : String) : Option String → String
  | some q => base ++ ", " ++ q
  | none => base

/-- The assembly of the outermost of some types. -/
def outermostQualifier (m : Module) (chain : List TypeInfo) : Except Error (Option String) :=
  match chain.getLast? with
  | some outermost => qualifier m outermost
  | none => .ok none

/-- A text up to the first comma with a blank behind it, and what follows. -/
def splitQualifier : List Char → Option (List Char × List Char)
  | ',' :: ' ' :: rest => some ([], rest)
  | c :: rest => (splitQualifier rest).map fun (front, back) => (c :: front, back)
  | [] => none

def isGeneric (t : TypeSig) : Bool :=
  match t.unmodified with
  | .generic .. => true
  | _ => false

/-- Adds a suffix to the name of a type. -/
def suffixed (element : TypeSig) (name suffix : String) : String :=
  match splitQualifier name.toList with
  | some (base, q) =>
    if isGeneric element then name ++ suffix
    else String.ofList base ++ suffix ++ ", " ++ String.ofList q
  | none => name ++ suffix

mutual

/-- The name of a type in an attribute value. -/
def serialized (m : Module) : TypeSig → Except Error String
  | .modified _ _ inner => serialized m inner
  | .pinned inner => serialized m inner
  | .named id => do
    let chain ← enclosing m (m.types.size + 1) id
    return withQualifier (nested chain) (← outermostQualifier m chain)
  | .generic id arguments => do
    let chain ← enclosing m (m.types.size + 1) id
    let names ← serializedAll m arguments
    let brackets := "[" ++ ",".intercalate (names.map fun n => "[" ++ n ++ "]") ++ "]"
    return withQualifier (nested chain ++ brackets) (← outermostQualifier m chain)
  | .vector element => return suffixed element (← serialized m element) "[]"
  | .array element shape =>
    return suffixed element (← serialized m element)
      ("[" ++ String.ofList (List.replicate (shape.rank - 1) ',') ++ "]")
  | .pointer (some inner) => return suffixed inner (← serialized m inner) "*"
  | .reference inner => return suffixed inner (← serialized m inner) "&"
  | .primitive p => return "System." ++ p.systemName
  | t => throw (.excess (.typeName t))

def serializedAll (m : Module) : List TypeSig → Except Error (List String)
  | [] => return []
  | t :: ts => return (← serialized m t) :: (← serializedAll m ts)

end

end TypeName
end Cil
