import Cil.Image
import Cil.MethodBody
import Cil.Proofs.Reading

/-!
What it takes for an image to be resolved. An extent tells what there is to point at: the rows of each
table, and the places where the entries of each heap start. Everything in an image that points
somewhere has to point into the extent of that image.
-/

namespace Cil

variable {kind : TokenKind} {token : Token} {value : Nat}

structure Extent where
  rows : Table → Nat
  /-- The indices of entries; 0 is not among them. -/
  entry : HeapKind → Nat → Prop
  /-- The offsets of user strings. -/
  text : Nat → Prop

variable {e e' : Extent}

namespace Extent

def HasRow (e : Extent) (t : Table) (n : Nat) : Prop := 1 ≤ n ∧ n ≤ e.rows t

/-- The larger extent has all that the other has. -/
structure Within (e e' : Extent) : Prop where
  rows (t : Table) : e.rows t ≤ e'.rows t
  entry {kind : HeapKind} {offset : Nat} : e.entry kind offset → e'.entry kind offset
  text {offset : Nat} : e.text offset → e'.text offset

theorem HasRow.mono (h : e.Within e') {t : Table} {n : Nat} (row : e.HasRow t n) : e'.HasRow t n :=
  ⟨row.1, Nat.le_trans row.2 (h.rows t)⟩

end Extent

/-- An entry with that offset was written, and its bytes still stand there. -/
def Heap.Holds {α : Type} (encode : α → Except EncodingError Bytes) (h : Heap α) (offset : Nat) :
    Prop :=
  ∃ entry encoding, (entry, offset) ∈ h.entries ∧ encode entry = .ok encoding ∧
    encoding <+: h.bytes.toList.drop offset

def StringHeap.encode (s : String) : Except EncodingError Bytes := .ok (Bytes.ofText s ++ [0])

/-- A blob behind its compressed length. -/
def BlobHeap.encode (blob : Bytes) : Except EncodingError Bytes :=
  Field.join [Compressed.unsigned blob.length, .ok blob]

/-- A literal behind its compressed length. -/
def UserStringHeap.encode (s : String) : Except EncodingError Bytes :=
  Field.join (Compressed.unsigned (length s) :: content s)

/-- What a column allows besides rows that are there. -/
inductive Slack
  | none
  | null
  | pastEnd
  deriving DecidableEq

/-- A type may have no base and a resource may be embedded; the members of a type and the parameters of
a method may start behind the last row. -/
def Table.slack : Table → (column : Nat) → Slack
  | typeDef, 3 | manifestResource, 3 => .null
  | typeDef, 4 | typeDef, 5 | methodDef, 5 => .pastEnd
  | _, _ => .none

def Slack.room : Slack → Nat
  | none | null => 0
  | pastEnd => 1

/-- What a cell points at is there. -/
def Cell.Resolves (e : Extent) (slack : Slack) : Cell → Prop
  | number .. => True
  | @heap kind i => i.offset = 0 ∨ e.entry kind i.offset
  | @row t i => 1 ≤ i.number ∧ i.number ≤ e.rows t + slack.room
  | coded .null => slack = .null
  | coded (.row t n _) => e.HasRow t n

def TableRow.Resolves (e : Extent) (t : Table) (row : t.Row) : Prop :=
  ∀ x ∈ (cells row).zipIdx, x.1.Resolves e (t.slack x.2)

def TokenKind.tables : TokenKind → List Table
  | type => [.typeDef, .typeRef, .typeSpec]
  | field => [.field, .memberRef]
  | method => [.methodDef, .memberRef, .methodSpec]
  | signature => [.standAloneSig]
  | string => []
  | any => [.typeDef, .typeRef, .typeSpec, .field, .memberRef, .methodDef, .methodSpec]

/-- The token is one of the kind, and what it names is there. -/
def Token.Resolves (e : Extent) (kind : TokenKind) (token : Token) : Prop :=
  match token.target with
  | .table t => t ∈ kind.tables ∧ e.HasRow t token.index
  | .userString => kind = .string ∧ e.text token.index

/-- The value is the code of a token that resolves. -/
def Extent.Names (e : Extent) (kind : TokenKind) (value : Nat) : Prop :=
  ∃ token, Token.decode value = .ok token ∧ token.Resolves e kind

/-- Every token of an encoded method resolves: those in its instructions, the types that its handlers
catch, and the signature of its locals. -/
structure MethodBody.Resolves (e : Extent) (m : MethodBody) : Prop where
  code : ∃ listing, Reading.disassemble m.code = some listing ∧
    ∀ offset op operand kind, (offset, .plain op operand) ∈ listing →
      op.operand? = some (.token kind) → e.Names kind (Bytes.ofLe operand)
  clauses : ∀ c ∈ m.clauses, c.flags = Clause.typedFlag → e.Names .type c.classOrFilter.toNat
  locals : m.localSignature = 0 ∨ e.Names .signature m.localSignature.toNat

namespace Image

def extent (image : Image) : Extent where
  rows := image.tables.count
  entry
    | .strings => image.strings.Holds StringHeap.encode
    | .blobs => image.blobs.Holds BlobHeap.encode
    | .guids => fun index => 0 < index ∧ 16 * index ≤ image.guids.size
  text := image.userStrings.Holds UserStringHeap.encode

structure Resolves (image : Image) : Prop where
  rows {t : Table} {row : t.Row} : row ∈ image.tables.rows t →
    TableRow.Resolves image.extent t row
  entryPoint : image.entryPoint = 0 ∨ ∃ t n, Token.decode image.entryPoint = .ok (.row t n) ∧
    t ∈ [.methodDef, .file] ∧ image.extent.HasRow t n
  bodies {row : Nat} {bytes : Bytes} : image.methodBody? row = some bytes →
    ∃ body : MethodBody, body.encode = .ok bytes ∧ body.Resolves image.extent

end Image

theorem Cell.Resolves.mono (h : e.Within e') {slack : Slack} {c : Cell}
    (resolves : c.Resolves e slack) : c.Resolves e' slack := by
  cases c with
  | number => trivial
  | heap i => exact resolves.imp_right h.entry
  | row i => exact ⟨resolves.1, Nat.le_trans resolves.2 (Nat.add_le_add_right (h.rows _) _)⟩
  | coded i =>
    cases i with
    | null => exact resolves
    | row t n => exact Extent.HasRow.mono h resolves

theorem TableRow.Resolves.mono (h : e.Within e') {t : Table} {row : t.Row}
    (resolves : TableRow.Resolves e t row) : TableRow.Resolves e' t row :=
  fun x hx => (resolves x hx).mono h

theorem Token.Resolves.mono (h : e.Within e') (resolves : token.Resolves e kind) :
    token.Resolves e' kind := by
  obtain ⟨target, index⟩ := token
  cases target with
  | table t => exact ⟨resolves.1, resolves.2.mono h⟩
  | userString => exact ⟨resolves.1, h.text resolves.2⟩

theorem Extent.Names.mono (h : e.Within e') (names : e.Names kind value) : e'.Names kind value := by
  obtain ⟨token, decoded, resolves⟩ := names
  exact ⟨token, decoded, resolves.mono h⟩

theorem MethodBody.Resolves.mono (h : e.Within e') {m : MethodBody} (resolves : m.Resolves e) :
    m.Resolves e' where
  code := by
    obtain ⟨listing, listed, names⟩ := resolves.code
    exact ⟨listing, listed, fun offset op operand kind member token =>
      (names offset op operand kind member token).mono h⟩
  clauses c hc typed := (resolves.clauses c hc typed).mono h
  locals := resolves.locals.imp_right (·.mono h)

theorem Token.decode_encode (h : token.encode = .ok value) : decode value = .ok token := by
  obtain ⟨target, index⟩ := token
  rw [encode] at h
  split at h
  case isTrue inside =>
    have split (tag : Nat) : (tag * 0x1000000 + index) % 0x1000000 = index ∧
        (tag * 0x1000000 + index) / 0x1000000 = tag := by
      simp only at inside
      omega
    obtain rfl := Except.ok.inj h
    rw [decode, (split _).1, (split _).2]
    cases target with
    | userString => simp [tag, userString]
    | table t =>
      have other : t.number ≠ userStringTag := by cases t <;> decide
      simp [tag, other, Table.ofNumber?_number, row]
  case isFalse => cases h

theorem Token.encode_lt (h : token.encode = .ok value) : value < 0x100000000 := by
  have tag : token.tag ≤ 0x70 := by
    rw [tag]
    split
    case h_1 t _ => cases t <;> decide
    case h_2 => exact Nat.le_refl _
  rw [encode] at h
  split at h
  · obtain rfl := Except.ok.inj h
    omega
  · cases h

theorem Token.Resolves.names (resolves : token.Resolves e kind) (h : token.encode = .ok value) :
    e.Names kind value :=
  ⟨token, decode_encode h, resolves⟩

theorem Token.Resolves.names_toNat (resolves : token.Resolves e kind)
    (h : token.encode = .ok value) : e.Names kind (UInt32.ofNat value).toNat := by
  rw [UInt32.toNat_ofNat_of_lt' (encode_lt h)]
  exact resolves.names h

end Cil
