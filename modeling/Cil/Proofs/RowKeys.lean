import Cil.Proofs.Writes

/-!
What the rows of references stand for. A request comes to a key first, and then the row of that key is
found or made. A key has one row and a row one key, and the row says what the key is.
-/

namespace Cil

variable {token : Token}

namespace CodedIndex.Kind

theorem methodDef_mem_memberRefParent : Table.methodDef ∈ memberRefParent.tables := by decide

theorem typeSpec_mem_memberRefParent : Table.typeSpec ∈ memberRefParent.tables := by decide

end CodedIndex.Kind

open CodedIndex.Kind

/-- What a module defines. -/
inductive Defined
  | type
  | method
  | field
  deriving DecidableEq

@[reducible] def Defined.table : Defined → Table
  | type => .typeDef
  | method => .methodDef
  | field => .field

/-- What a row stands for. -/
inductive RowKey
  | referent (x : Referent)
  | defined (d : Defined) (row : Nat)
  | typeSpec (signature : Bytes)
  | methodSpec (method : MethodDefOrRef) (instantiation : Bytes)
  | member (parent : CodedIndex .memberRefParent) (name : String) (signature : Bytes)
  | standAlone (signature : Bytes)

/-- What rows can be asked for. -/
inductive Request
  | assemblyRef (id : AssemblyRefId)
  | moduleRef (id : ModuleRefId)
  | typeRef (id : TypeId)
  | typeToken (t : TypeSig)
  | methodToken (r : MethodRef)
  | fieldToken (r : FieldRef)
  | arrayMethod (array : TypeSig) (name : String) (s : MethodSignature)
  | standAloneSig (signature : Bytes)

section

variable (src : Source)

def Request.answer : Request → Emit Token
  | assemblyRef id => return .row .assemblyRef (← Cil.assemblyRef src id)
  | moduleRef id => return .row .moduleRef (← Cil.moduleRef src id)
  | typeRef id => return .row .typeRef (← Cil.typeRef src id)
  | typeToken t => return (← Cil.typeToken src t).token
  | methodToken r => Cil.methodToken src r
  | fieldToken r => Cil.fieldToken src r
  | arrayMethod array name s => Cil.arrayMethod src array name s
  | standAloneSig signature => Cil.standAloneSig signature

def namedKey (id : TypeId) : Emit RowKey := do
  if (← Emit.ofExcept (src.module.typeInfo id)).isDefined then
    return .defined .type (← Emit.ofExcept (src.numbering.typeRow id))
  else return .referent (.type id)

def primitiveKey (p : Primitive) : Emit RowKey :=
  match ownPrimitive? src.module p with
  | some id => namedKey src id
  | none => return .referent (.primitive p)

def typeKey : TypeSig → Emit RowKey
  | .named id => namedKey src id
  | .primitive p => primitiveKey src p
  | t => return .typeSpec (← typeBlob src t)

def methodKey (r : MethodRef) : Emit RowKey := do
  let m ← Emit.ofExcept (src.module.methodDef r.method)
  match ← memberParent src r.parent r.method.parent with
  | none =>
    let row ← Emit.ofExcept (src.numbering.methodRow r.method)
    if r.varArgTypes.isEmpty then return .defined .method row
    else
      let signature ← methodBlob src m.signature m.genericParameters.length r.varArgTypes
      return .member (.row .methodDef row methodDef_mem_memberRefParent) m.name signature
  | some parent =>
    let signature ← methodBlob src m.signature m.genericParameters.length r.varArgTypes
    return .member parent m.name signature

def fieldKey (r : FieldRef) : Emit RowKey := do
  let f ← Emit.ofExcept (src.module.fieldDef r.field)
  match ← memberParent src r.parent r.field.parent with
  | some parent => return .member parent f.name (← fieldBlob src f)
  | none => return .defined .field (← Emit.ofExcept (src.numbering.fieldRow r.field))

def Request.key : Request → Emit RowKey
  | assemblyRef id => return .referent (.assembly id)
  | moduleRef id => return .referent (.module id)
  | typeRef id => return .referent (.type id)
  | typeToken t => typeKey src t
  | methodToken r => do
    if r.genericArguments.isEmpty then methodKey src r
    else
      let method ← methodDefOrRef src r
      return .methodSpec method (← instantiationBlob src r.genericArguments)
  | fieldToken r => fieldKey src r
  | arrayMethod array name s => do
    let parent ← typeSpec src array
    let parent := .row .typeSpec parent typeSpec_mem_memberRefParent
    return .member parent name (← methodBlob src s 0 [])
  | standAloneSig signature => return .standAlone signature

def Referent.find : Referent → Emit Nat
  | assembly id => assemblyRef src id
  | module id => moduleRef src id
  | type id => typeRef src id
  | primitive p => Emit.remembered (.primitive p) (primitiveRefRow src p)

def RowKey.find : RowKey → Emit Token
  | referent x => return .row x.table (← x.find src)
  | defined d row => return .row d.table row
  | typeSpec blob => return .row .typeSpec (← typeSpecRow blob)
  | methodSpec method blob => return .row .methodSpec (← methodSpecRow method blob)
  | member parent name signature => return .row .memberRef (← memberRef parent name signature)
  | standAlone signature => Cil.standAloneSig signature

theorem namedType_token (id : TypeId) :
    (do return (← namedType src id).token) = namedKey src id >>= RowKey.find src := by
  simp only [namedType, namedKey, bind_assoc]
  refine bind_congr fun t => ?_
  split <;> simp only [bind_assoc, pure_bind] <;> rfl

theorem primitiveType_token (p : Primitive) :
    (do return (← primitiveType src p).token) = primitiveKey src p >>= RowKey.find src := by
  rw [primitiveType, primitiveKey]
  cases ownPrimitive? src.module p with
  | some id => exact namedType_token src id
  | none =>
    simp only [bind_assoc, pure_bind]
    rfl

theorem typeToken_token (t : TypeSig) :
    (do return (← typeToken src t).token) = typeKey src t >>= RowKey.find src := by
  unfold typeToken typeKey
  split
  · exact namedType_token src _
  · exact primitiveType_token src _
  · simp only [typeSpec, bind_assoc, pure_bind]
    rfl

theorem methodDefOrRef_token (r : MethodRef) :
    (do return (← methodDefOrRef src r).token) = methodKey src r >>= RowKey.find src := by
  simp only [methodDefOrRef, methodKey, bind_assoc]
  refine bind_congr fun m => bind_congr fun parent => ?_
  cases parent with
  | some parent =>
    simp only [bind_assoc, pure_bind]
    rfl
  | none =>
    simp only [bind_assoc]
    refine bind_congr fun row => ?_
    split
    · simp only [pure_bind]
      rfl
    · simp only [bind_assoc, pure_bind]
      rfl

theorem fieldToken_eq (r : FieldRef) : fieldToken src r = fieldKey src r >>= RowKey.find src := by
  simp only [fieldToken, fieldKey, bind_assoc]
  refine bind_congr fun f => bind_congr fun parent => ?_
  cases parent <;> simp only [bind_assoc, pure_bind] <;> rfl

theorem Request.answer_eq (request : Request) :
    request.answer src = request.key src >>= RowKey.find src := by
  cases request with
  | assemblyRef id => rfl
  | moduleRef id => rfl
  | typeRef id => rfl
  | typeToken t => exact typeToken_token src t
  | methodToken r =>
    simp only [answer, key, Cil.methodToken]
    split
    · exact methodDefOrRef_token src r
    · simp only [bind_assoc, pure_bind]
      rfl
  | fieldToken r => exact fieldToken_eq src r
  | arrayMethod array name s =>
    simp only [answer, key, Cil.arrayMethod, bind_assoc, pure_bind]
    rfl
  | standAloneSig signature => rfl

end

namespace Emit.Asks

variable {src : Source}

theorem namedKey (id : TypeId) : Asks src (namedKey src id) := by
  refine .bind (.typeInfo id) fun t => ?_
  split
  · exact .bind (.ofExcept (fails_typeRow .references ..)) fun _ => .pure _
  · exact .pure _

theorem typeKey (t : TypeSig) : Asks src (typeKey src t) := by
  unfold Cil.typeKey
  split
  · exact .namedKey _
  · unfold Cil.primitiveKey
    split
    · exact .namedKey _
    · exact .pure _
  · exact .bind (.typeBlob _) fun _ => .pure _

theorem methodKey (r : MethodRef) : Asks src (methodKey src r) := by
  refine .bind (.ofExcept (fails_methodDef .references ..)) fun m =>
    .bind (.memberParent ..) fun parent => ?_
  cases parent with
  | none =>
    refine .bind (.ofExcept (fails_methodRow .references ..)) fun row => ?_
    split
    · exact .pure _
    · exact .bind (.methodBlob ..) fun _ => .pure _
  | some parent => exact .bind (.methodBlob ..) fun _ => .pure _

theorem fieldKey (r : FieldRef) : Asks src (fieldKey src r) := by
  refine .bind (.ofExcept (fails_fieldDef .references ..)) fun f =>
    .bind (.memberParent ..) fun parent => ?_
  cases parent with
  | none => exact .bind (.ofExcept (fails_fieldRow .references ..)) fun _ => .pure _
  | some parent => exact .bind (.fieldBlob f) fun _ => .pure _

theorem key (request : Request) : Asks src (request.key src) := by
  cases request with
  | assemblyRef | moduleRef | typeRef | standAloneSig => exact .pure _
  | typeToken t => exact .typeKey t
  | methodToken r =>
    rw [Request.key]
    split
    · exact .methodKey r
    · exact .bind (.methodDefOrRef r) fun _ => .bind (.instantiationBlob _) fun _ => .pure _
  | fieldToken r => exact .fieldKey r
  | arrayMethod array name s =>
    exact .bind (.typeSpec array) fun _ => .bind (.methodBlob ..) fun _ => .pure _

end Emit.Asks

variable {key : RowKey}

namespace Session

variable {src : Source} {s s' : Session}

variable {t : Table} {row : t.Row}

/-- The row of a table says what the key is. -/
inductive Tells (s : Session) : RowKey → (t : Table) → t.Row → Prop
  | typeSpec {blob signature} (located : s.BlobAt blob signature) :
      Tells s (.typeSpec blob) .typeSpec { signature }
  | methodSpec {method blob instantiation} (located : s.BlobAt blob instantiation) :
      Tells s (.methodSpec method blob) .methodSpec { method, instantiation }
  | member {parent text name blob signature} (named : s.TextAt text name)
      (located : s.BlobAt blob signature) :
      Tells s (.member parent text blob) .memberRef { parent, name, signature }
  | standAlone {blob signature} (located : s.BlobAt blob signature) :
      Tells s (.standAlone blob) .standAloneSig { signature }

/-- The row of the key is the one with the token. -/
inductive StandsAt (s : Session) : RowKey → Token → Prop
  | referent {x : Referent} {n : Nat} (known : x.row? s = some n) :
      StandsAt s (.referent x) (.row x.table n)
  | defined (d : Defined) (n : Nat) : StandsAt s (.defined d n) (.row d.table n)
  | interned {key : RowKey} {t : Table} {row : t.Row} {i : Nat} (tells : s.Tells key t row)
      (stands : (s.tables.rows t)[i]? = some row) : StandsAt s key (.row t (i + 1))

theorem TextAt.unique {text : String} {i j : StringIndex} (first : s.TextAt text i)
    (second : s.TextAt text j) : i = j := by
  cases i
  cases j
  exact congrArg _ (Heap.Locates.offset_unique first second)

theorem BlobAt.unique {blob : Bytes} {i j : BlobIndex} (first : s.BlobAt blob i)
    (second : s.BlobAt blob j) : i = j := by
  cases i
  cases j
  exact congrArg _ (Heap.Locates.offset_unique first second)

theorem Tells.isInterned (tells : s.Tells key t row) : t.isInterned = true := by
  cases tells <;> rfl

theorem Tells.mono (before : s.Before s') (tells : s.Tells key t row) : s'.Tells key t row := by
  cases tells with
  | typeSpec located => exact .typeSpec (located.mono before)
  | methodSpec located => exact .methodSpec (located.mono before)
  | member named located => exact .member (named.mono before) (located.mono before)
  | standAlone located => exact .standAlone (located.mono before)

theorem Tells.key_unique (cat : s.Catalogued src) {key' : RowKey} (first : s.Tells key t row)
    (second : s.Tells key' t row) : key = key' := by
  have same {blob blob' : Bytes} {i : BlobIndex} (located : s.BlobAt blob i)
      (located' : s.BlobAt blob' i) : blob = blob' :=
    cat.blobs.entry_unique BlobHeap.eq_of_isEmpty located located'
  cases first with
  | typeSpec located | methodSpec located | standAlone located =>
    cases second with
    | _ located' => rw [same located located']
  | member named located =>
    cases second with
    | member named' located' =>
      rw [same located located',
        cat.strings.entry_unique StringHeap.eq_of_isEmpty named named']

namespace StandsAt

theorem mono (before : s.Before s') (stands : s.StandsAt key token) : s'.StandsAt key token := by
  cases stands with
  | referent known => exact .referent (before.referents known)
  | defined d n => exact .defined d n
  | interned tells stands =>
    exact .interned (tells.mono before)
      (before.getElem? (isReference_of_isInterned tells.isInterned) stands)

theorem key_unique (cat : s.Catalogued src) {key' : RowKey} {token' : Token}
    (same : token = token') (first : s.StandsAt key token) (second : s.StandsAt key' token') :
    key = key' := by
  have table {t t' : Table} {n n' : Nat} (same : Token.row t n = Token.row t' n') : t = t' :=
    Token.Target.table.inj (congrArg Token.target same)
  have index {t t' : Table} {n n' : Nat} (same : Token.row t n = Token.row t' n') : n = n' :=
    congrArg Token.index same
  cases first with
  | @referent x n known =>
    cases second with
    | @referent y m known' => rw [cat.apart known (index same ▸ known') (table same)]
    | defined d => cases x <;> cases d <;> cases table same
    | interned tells =>
      have interned := tells.isInterned
      rw [← table same, isInterned_table] at interned
      cases interned
  | defined d n =>
    cases second with
    | @referent y => cases y <;> cases d <;> cases table same
    | defined d' m =>
      have alike : d = d' := by cases d <;> cases d' <;> first | rfl | cases table same
      rw [alike, index same]
    | interned tells =>
      have interned := tells.isInterned
      rw [← table same] at interned
      cases d <;> cases interned
  | interned tells stands =>
    have interned := tells.isInterned
    cases second with
    | @referent y =>
      rw [table same, isInterned_table] at interned
      cases interned
    | defined d =>
      rw [table same] at interned
      cases d <;> cases interned
    | interned tells' stands' =>
      obtain rfl := table same
      obtain rfl := Nat.succ.inj (index same)
      rw [stands] at stands'
      cases stands'
      exact tells.key_unique cat tells'

end StandsAt
end Session

/-- The token is that of a row of the table with a property. -/
def Session.HoldsAt (s : Session) (t : Table) (p : Nat → t.Row → Prop) (token : Token) : Prop :=
  ∃ i row, token = .row t (i + 1) ∧ (s.tables.rows t)[i]? = some row ∧ p i row

/-- The row with the token says what the key is. -/
def RowKey.Describes (src : Source) (s : Session) : RowKey → Token → Prop
  | referent x => s.HoldsAt x.table (x.Describes src s)
  | defined d n => (· = .row d.table n)
  | typeSpec signature => s.HoldsAt .typeSpec fun _ row =>
    s.blobs.read row.signature.offset = .ok signature
  | methodSpec method instantiation => s.HoldsAt .methodSpec fun _ row =>
    row.method = method ∧ s.blobs.read row.instantiation.offset = .ok instantiation
  | member parent name signature => s.HoldsAt .memberRef fun _ row =>
    row.parent = parent ∧ s.strings.Has StringHeap.encode row.name.offset name ∧
      s.blobs.read row.signature.offset = .ok signature
  | standAlone signature => s.HoldsAt .standAloneSig fun _ row =>
    s.blobs.read row.signature.offset = .ok signature

section

variable {src : Source} {s s' : Session}

theorem Session.StandsAt.describes (cat : s.Catalogued src) (stands : s.StandsAt key token) :
    key.Describes src s token := by
  have reads {blob : Bytes} {i : BlobIndex} (located : s.BlobAt blob i) :
      s.blobs.read i.offset = .ok blob :=
    BlobHeap.read_of_locates (cat.faithful.blobs.found cat.blobs) located
  cases stands with
  | referent known =>
    obtain ⟨i, row, rfl, stands, describes⟩ := cat.described known
    exact ⟨i, row, rfl, stands, describes⟩
  | defined d n => rfl
  | interned tells stands =>
    cases tells with
    | typeSpec located | standAlone located => exact ⟨_, _, rfl, stands, reads located⟩
    | methodSpec located => exact ⟨_, _, rfl, stands, rfl, reads located⟩
    | member named located =>
      exact ⟨_, _, rfl, stands, rfl, StringHeap.has_of_locates cat.faithful.strings named,
        reads located⟩

theorem Referent.find_runs (cat : s.Catalogued src) {x : Referent} {n : Nat}
    (run : (x.find src).Runs s n s') : x.row? s' = some n := by
  cases x with
  | assembly id => exact (Emit.assemblyRef_runs cat run).1
  | module id => exact (Emit.moduleRef_runs cat run).1
  | type id => exact (Emit.encloses_typeRefWithin src _).remembers cat run
  | primitive p =>
    exact (Emit.remembered_runs (Emit.Asks.primitiveRefRow p).lasts
      (Emit.madeBy_primitiveRefRow p) cat run).2.2

theorem RowKey.find_runs (cat : s.Catalogued src) (run : (key.find src).Runs s token s') :
    s'.StandsAt key token := by
  cases key with
  | referent x =>
    obtain ⟨n, s₁, found, returned⟩ := Emit.runs_bind.1 run
    obtain ⟨rfl, rfl⟩ := Emit.runs_pure.1 returned
    exact .referent (x.find_runs cat found)
  | defined d n =>
    obtain ⟨rfl, rfl⟩ := Emit.runs_pure.1 run
    exact .defined d n
  | typeSpec blob =>
    obtain ⟨n, s₂, made, returned⟩ := Emit.runs_bind.1 run
    obtain ⟨rfl, rfl⟩ := Emit.runs_pure.1 returned
    obtain ⟨i, s₁, written, found⟩ := Emit.runs_bind.1 made
    obtain ⟨cat₁, _, located, _⟩ := Emit.blob_runs cat written
    obtain ⟨_, before, ⟨place, rfl, stands⟩, _⟩ := Emit.Finds.runs (t := .typeSpec) rfl cat₁
      (fun cat' later => cat'.finds_internSpec (.inl rfl) (.type (located.mono later))
        (cat'.alike_typeSpec (located.mono later))) found
    exact .interned (.typeSpec (located.mono before)) stands
  | methodSpec method blob =>
    obtain ⟨n, s₂, made, returned⟩ := Emit.runs_bind.1 run
    obtain ⟨rfl, rfl⟩ := Emit.runs_pure.1 returned
    obtain ⟨i, s₁, written, found⟩ := Emit.runs_bind.1 made
    obtain ⟨cat₁, _, located, _⟩ := Emit.blob_runs cat written
    obtain ⟨_, before, ⟨place, rfl, stands⟩, _⟩ := Emit.Finds.runs (t := .methodSpec) rfl cat₁
      (fun cat' later => cat'.finds_internSpec (.inr rfl) (.method (located.mono later))
        (cat'.alike_methodSpec (located.mono later))) found
    exact .interned (.methodSpec (located.mono before)) stands
  | member parent text blob =>
    obtain ⟨n, s₁, made, returned⟩ := Emit.runs_bind.1 run
    obtain ⟨rfl, rfl⟩ := Emit.runs_pure.1 returned
    obtain ⟨name, s₁, named, rest⟩ := Emit.runs_bind.1 made
    obtain ⟨i, s₂, written, found⟩ := Emit.runs_bind.1 rest
    obtain ⟨cat₁, _, text_at, _⟩ := Emit.string_runs cat named
    obtain ⟨cat₂, before₂, located, _⟩ := Emit.blob_runs cat₁ written
    obtain ⟨_, before, ⟨place, rfl, stands⟩, _⟩ := Emit.Finds.runs (t := .memberRef) rfl cat₂
      (fun cat' _ => cat'.finds_intern rfl (by decide)) found
    exact .interned (.member (text_at.mono (before₂.trans before)) (located.mono before)) stands
  | standAlone blob =>
    obtain ⟨i, s₁, written, rest⟩ := Emit.runs_bind.1 run
    obtain ⟨n, s₂, found, returned⟩ := Emit.runs_bind.1 rest
    obtain ⟨rfl, rfl⟩ := Emit.runs_pure.1 returned
    obtain ⟨cat₁, _, located, _⟩ := Emit.blob_runs cat written
    obtain ⟨_, before, ⟨place, rfl, stands⟩, _⟩ := Emit.Finds.runs (t := .standAloneSig) rfl cat₁
      (fun cat' _ => cat'.finds_intern rfl (by decide)) found
    exact .interned (.standAlone (located.mono before)) stands

theorem Referent.find_asks (x : Referent) : (x.find src).Asks src := by
  cases x with
  | assembly id => exact .assemblyRef id
  | module id => exact .moduleRef id
  | type id => exact .typeRef id
  | primitive p => exact .remembered _ (.primitiveRefRow p) (Emit.madeBy_primitiveRefRow p)

theorem RowKey.find_asks (key : RowKey) : (key.find src).Asks src := by
  cases key with
  | referent x => exact .bind x.find_asks fun _ => .pure _
  | defined d n => exact .pure _
  | typeSpec blob => exact .bind (.typeSpecRow blob) fun _ => .pure _
  | methodSpec method blob => exact .bind (.methodSpecRow method blob) fun _ => .pure _
  | member parent name signature => exact .bind (.memberRef ..) fun _ => .pure _
  | standAlone signature => exact .standAloneSig signature

theorem Request.answer_runs (request : Request) (cat : s.Catalogued src)
    (run : (request.answer src).Runs s token s') :
    s'.Catalogued src ∧ s.Before s' ∧ ∀ {t : Session}, t.Catalogued src → s'.Before t →
      (request.answer src).Runs t token t ∧
        ∃ key, (request.key src).Runs t key t ∧ t.StandsAt key token := by
  rw [request.answer_eq] at run ⊢
  obtain ⟨key, s₁, keyed, found⟩ := Emit.runs_bind.1 run
  obtain ⟨cat₁, before₁, again₁⟩ := (Emit.Asks.key request).lasts.run cat keyed
  obtain ⟨cat₂, before₂, again₂⟩ := key.find_asks.lasts.run cat₁ found
  refine ⟨cat₂, before₁.trans before₂, fun cat' later => ⟨?_, key, ?_, ?_⟩⟩
  · exact Emit.runs_bind.2 ⟨key, _, again₁ cat' (before₂.trans later), again₂ cat' later⟩
  · exact again₁ cat' (before₂.trans later)
  · exact (key.find_runs cat₁ found).mono later

/-- Requests that succeed one after another, with their answers. -/
inductive Session.Answers (src : Source) : Session → List (Request × Token) → Session → Prop
  | nil (s : Session) : Answers src s [] s
  | cons {s s₁ s' : Session} {request : Request} {token : Token} {log : List (Request × Token)}
      (run : (request.answer src).Runs s token s₁) (rest : Answers src s₁ log s') :
      Answers src s ((request, token) :: log) s'

theorem Session.Answers.runs {log : List (Request × Token)} (answers : s.Answers src log s')
    (cat : s.Catalogued src) :
    s'.Catalogued src ∧ s.Before s' ∧ ∀ {request token}, (request, token) ∈ log →
      (request.answer src).Runs s' token s' ∧
        ∃ key, (request.key src).Runs s' key s' ∧ s'.StandsAt key token := by
  induction answers with
  | nil s => exact ⟨cat, .refl s, fun member => absurd member List.not_mem_nil⟩
  | cons run rest ih =>
    obtain ⟨cat₁, before₁, lasts⟩ := Request.answer_runs _ cat run
    obtain ⟨cat', before', later⟩ := ih cat₁
    refine ⟨cat', before₁.trans before', fun member => ?_⟩
    rcases List.mem_cons.1 member with first | other
    · cases first
      exact lasts cat' before'
    · exact later other

end

end Cil
