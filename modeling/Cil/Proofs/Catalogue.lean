import Cil.Proofs.HeapEntries

/-!
The references that a session keeps. What is referred to by its place in the module has a row that the
session remembers; what is referred to by what it says has the row that says so, and there is one such
row only. Rows of references stay where they are while others are added.
-/

namespace Cil

namespace RowMap

variable {rows : RowMap} {i j row : Nat}

theorem row?_insert_self (fits : i < rows.size) : (rows.insert i row).row? i = some row := by
  simp [row?, insert, fits]

theorem row?_insert_of_ne (other : j ≠ i) : (rows.insert i row).row? j = rows.row? j := by
  simp [row?, insert, Array.getElem?_setIfInBounds_ne other.symm]

end RowMap

namespace Referent

/-- A module has what is referred to. -/
def Known (m : Module) : Referent → Prop
  | assembly id => id.index < m.assemblyReferences.size
  | module id => id.index < m.moduleReferences.size
  | type id => id.index < m.types.size
  | primitive _ => True

/-- A session has room for the row. -/
def Fits (s : Session) : Referent → Prop
  | assembly id => id.index < s.assemblyRefs.size
  | module id => id.index < s.moduleRefs.size
  | type id => id.index < s.typeRefs.size
  | primitive _ => True

variable {s : Session} {x y : Referent} {row : Nat}

theorem row?_note_self (fits : x.Fits s) : x.row? (x.note row s) = some row := by
  cases x with
  | assembly id | module id | type id => exact RowMap.row?_insert_self fits
  | primitive p => simp [row?, note]

theorem row?_note_of_ne (other : y ≠ x) : y.row? (x.note row s) = y.row? s := by
  cases x with
  | assembly id | module id | type id =>
    cases y with
    | primitive => rfl
    | assembly id' | module id' | type id' =>
      -- the rows of other kinds are kept in other maps
      first
      | rfl
      | refine RowMap.row?_insert_of_ne fun same => other ?_
        cases id
        cases id'
        exact congrArg _ (congrArg _ same)
  | primitive p =>
    cases y with
    | primitive q =>
      have distinct : (q == p) = false := by
        rw [beq_eq_false_iff_ne]
        rintro rfl
        exact other rfl
      simp [row?, note, List.lookup_cons, distinct]
    | assembly | module | type => rfl

theorem fits_note : y.Fits (x.note row s) ↔ y.Fits s := by
  cases x <;> cases y <;> simp [Fits, note, RowMap.insert]

end Referent

/-- What stands at an offset; what is absent has the offset 0. -/
def Heap.Has? {α : Type} (encode : α → Except EncodingError Bytes) (h : Heap α) (offset : Nat) :
    Option α → Prop
  | some entry => h.Has encode offset entry
  | none => offset = 0

theorem Heap.Has?.mono {α : Type} {encode : α → Except EncodingError Bytes} {h h' : Heap α}
    (under : h.Under h') {offset : Nat} {entry : Option α} (has : h.Has? encode offset entry) :
    h'.Has? encode offset entry := by
  cases entry with
  | some entry => exact Heap.Has.mono under has
  | none => exact has

namespace Session

/-- The row says what the assembly is that is referred to. -/
structure DescribesAssembly (s : Session) (a : AssemblyReference) (row : Row.AssemblyRef) : Prop where
  major : row.major = a.version.major
  minor : row.minor = a.version.minor
  build : row.build = a.version.build
  revision : row.revision = a.version.revision
  flags : row.flags = .ofNat (flagMask [(a.hasFullPublicKey, 0x1), (a.retargetable, 0x100)])
  publicKeyOrToken : s.blobs.Has? BlobHeap.encode row.publicKeyOrToken.offset a.publicKeyOrToken
  name : s.strings.Has StringHeap.encode row.name.offset a.name
  culture : s.strings.Has? StringHeap.encode row.culture.offset a.culture
  hashValue : s.blobs.Has? BlobHeap.encode row.hashValue.offset a.hashValue

/-- The scope of a row of a type is that of the type: the row of the type around it if there is one,
which comes before its own, or else that of its assembly or module. -/
inductive Scopes (s : Session) (t : TypeInfo) (i : Nat) : CodedIndex .resolutionScope → Prop
  | nested {declaring row} (nested : t.declaringType = some declaring)
      (known : (Referent.type declaring).row? s = some row) (earlier : row ≤ i) :
      Scopes s t i (.row .typeRef row)
  | assembly {a row} (outer : t.declaringType = none) (scope : t.scope = .assembly a)
      (known : (Referent.assembly a).row? s = some row) : Scopes s t i (.row .assemblyRef row)
  | module {m row} (outer : t.declaringType = none) (scope : t.scope = .module m)
      (known : (Referent.module m).row? s = some row) : Scopes s t i (.row .moduleRef row)

/-- The row at a place says what the type is that is referred to. -/
structure DescribesType (s : Session) (t : TypeInfo) (i : Nat) (row : Row.TypeRef) : Prop where
  scope : s.Scopes t i row.resolutionScope
  name : s.strings.Has StringHeap.encode row.name.offset t.name
  typeNamespace : s.strings.Has? StringHeap.encode row.typeNamespace.offset t.typeNamespace

/-- The row is that of a primitive type of the core library. -/
structure DescribesPrimitive (s : Session) (library : AssemblyRefId) (p : Primitive)
    (row : Row.TypeRef) : Prop where
  scope : ∃ n, (Referent.assembly library).row? s = some n ∧
    row.resolutionScope = .row .assemblyRef n
  name : s.strings.Has StringHeap.encode row.name.offset p.systemName
  typeNamespace : s.strings.Has StringHeap.encode row.typeNamespace.offset "System"

end Session

/-- The row at a place says what is referred to. -/
def Referent.Describes (src : Source) (s : Session) (i : Nat) : (x : Referent) → x.table.Row → Prop
  | assembly id, row =>
    ∃ a, src.module.assemblyReferences[id.index]? = some a ∧ s.DescribesAssembly a row
  | module id, row => ∃ r, src.module.moduleReferences[id.index]? = some r ∧
    s.strings.Has StringHeap.encode row.name.offset r.name
  | type id, row => ∃ t, src.module.typeInfo id = .ok t ∧ s.DescribesType t i row
  | primitive p, row =>
    ∃ library, src.module.coreLibrary = some library ∧ s.DescribesPrimitive library p row

def Table.isInterned : Table → Bool
  | memberRef | standAloneSig | typeSpec | methodSpec => true
  | _ => false

namespace Session

variable {x : Referent} {t : Table} {i : Nat} {row : x.table.Row} {s s' : Session}

/-- The text has the index. -/
def TextAt (s : Session) (text : String) (i : StringIndex) : Prop :=
  s.strings.Locates String.isEmpty text i.offset

/-- The blob has the index. -/
def BlobAt (s : Session) (blob : Bytes) (i : BlobIndex) : Prop :=
  s.blobs.Locates List.isEmpty blob i.offset

/-- What a row of specs is kept under. -/
inductive Spec (s : Session) : (t : Table) → t.Row → (SpecKeys → UInt64) → Prop
  | type {blob signature} (located : s.BlobAt blob signature) :
      Spec s .typeSpec { signature } (·.typeSpec blob)
  | method {method blob instantiation} (located : s.BlobAt blob instantiation) :
      Spec s .methodSpec { method, instantiation } (·.methodSpec method instantiation)

/-- Every row of specs is kept under its hash. -/
def Indexed (s : Session) : Prop :=
  ∀ {t : Table} {i : Nat} {row : t.Row}, t = .typeSpec ∨ t = .methodSpec →
    (s.tables.rows t)[i]? = some row →
    ∃ key, s.Spec t row key ∧
      ∀ keys, s.specs.search = .keyed keys → (t, key keys, i) ∈ s.specs.rows

/-- What references have been given so far is in order. -/
structure Catalogued (src : Source) (s : Session) : Prop where
  faithful : s.Faithful
  strings : s.strings.Spaced
  blobs : s.blobs.Spaced
  fits {x : Referent} : x.Known src.module → x.Fits s
  described {x : Referent} {n : Nat} : x.row? s = some n →
    ∃ i row, n = i + 1 ∧ (s.tables.rows x.table)[i]? = some row ∧ x.Describes src s i row
  apart {x y : Referent} {n : Nat} : x.row? s = some n → y.row? s = some n → x.table = y.table →
    x = y
  distinct {t : Table} : t.isInterned = true → (s.tables.rows t).toList.Nodup
  indexed : s.Indexed

/-- The references of the earlier session are those that the later one had first. -/
structure Before (s s' : Session) : Prop where
  strings : s.strings.Before s'.strings
  blobs : s.blobs.Before s'.blobs
  userStrings : s.userStrings.Before s'.userStrings
  rows {t : Table} : t.isReference = true → (s.tables.rows t).toList <+: (s'.tables.rows t).toList
  referents {x : Referent} {n : Nat} : x.row? s = some n → x.row? s' = some n

theorem Before.refl (s : Session) : s.Before s :=
  ⟨.refl _, .refl _, .refl _, fun _ => List.prefix_refl _, id⟩

theorem Before.trans {s₁ : Session} (first : s.Before s₁) (second : s₁.Before s') :
    s.Before s' where
  strings := first.strings.trans second.strings
  blobs := first.blobs.trans second.blobs
  userStrings := first.userStrings.trans second.userStrings
  rows h := (first.rows h).trans (second.rows h)
  referents := second.referents ∘ first.referents

theorem Before.under (before : s.Before s') :
    s.strings.Under s'.strings ∧ s.blobs.Under s'.blobs :=
  ⟨before.strings.bytes, before.blobs.bytes⟩

theorem Before.getElem? (before : s.Before s') (reference : t.isReference = true) {row : t.Row}
    (stands : (s.tables.rows t)[i]? = some row) : (s'.tables.rows t)[i]? = some row := by
  obtain ⟨more, rows⟩ := before.rows reference
  rw [← Array.getElem?_toList] at stands ⊢
  rw [← rows, List.getElem?_append_left (List.getElem?_eq_some_iff.1 stands).1, stands]

section

variable {src : Source} {s s' : Session} (before : s.Before s')

include before

theorem TextAt.mono {text : String} {i : StringIndex} (at' : s.TextAt text i) : s'.TextAt text i :=
  Heap.Locates.mono before.strings at'

theorem BlobAt.mono {blob : Bytes} {i : BlobIndex} (at' : s.BlobAt blob i) : s'.BlobAt blob i :=
  Heap.Locates.mono before.blobs at'

theorem Spec.mono {row : t.Row} {key : SpecKeys → UInt64} (spec : s.Spec t row key) :
    s'.Spec t row key := by
  cases spec with
  | type located => exact .type (located.mono before)
  | method located => exact .method (located.mono before)

theorem Scopes.mono {t : TypeInfo} {scope : CodedIndex .resolutionScope}
    (scopes : s.Scopes t i scope) : s'.Scopes t i scope := by
  cases scopes with
  | nested nested known earlier => exact .nested nested (before.referents known) earlier
  | assembly outer scope known => exact .assembly outer scope (before.referents known)
  | module outer scope known => exact .module outer scope (before.referents known)

theorem describes_mono (h : x.Describes src s i row) : x.Describes src s' i row := by
  obtain ⟨strings, blobs⟩ := before.under
  cases x with
  | assembly id =>
    obtain ⟨a, found, told⟩ := h
    exact ⟨a, found, { told with
      publicKeyOrToken := told.publicKeyOrToken.mono blobs
      name := told.name.mono strings
      culture := told.culture.mono strings
      hashValue := told.hashValue.mono blobs }⟩
  | module id =>
    obtain ⟨r, found, name⟩ := h
    exact ⟨r, found, name.mono strings⟩
  | type id =>
    obtain ⟨t, found, told⟩ := h
    exact ⟨t, found, told.scope.mono before, told.name.mono strings,
      told.typeNamespace.mono strings⟩
  | primitive p =>
    obtain ⟨library, found, told⟩ := h
    obtain ⟨n, known, scope⟩ := told.scope
    exact ⟨library, found, ⟨n, before.referents known, scope⟩, told.name.mono strings,
      told.typeNamespace.mono strings⟩

end

theorem lt_of_typeInfo {m : Module} {id : TypeId} {t : TypeInfo} (h : m.typeInfo id = .ok t) :
    id.index < m.types.size := by
  rw [Module.typeInfo] at h
  split at h
  case h_1 found => exact (Array.getElem?_eq_some_iff.1 found).1
  case h_2 => cases h

theorem known_of_describes {src : Source} (h : x.Describes src s i row) : x.Known src.module := by
  cases x with
  | assembly id =>
    obtain ⟨a, found, _⟩ := h
    exact (Array.getElem?_eq_some_iff.1 found).1
  | module id =>
    obtain ⟨r, found, _⟩ := h
    exact (Array.getElem?_eq_some_iff.1 found).1
  | type id =>
    obtain ⟨t, found, _⟩ := h
    exact lt_of_typeInfo found
  | primitive p => trivial

/-- The rows of references and what is remembered of them are as before. -/
structure Same (s s' : Session) : Prop where
  rows {t : Table} : t.isReference = true → s'.tables.rows t = s.tables.rows t
  assemblyRefs : s'.assemblyRefs = s.assemblyRefs
  moduleRefs : s'.moduleRefs = s.moduleRefs
  typeRefs : s'.typeRefs = s.typeRefs
  primitiveRefs : s'.primitiveRefs = s.primitiveRefs
  specs : s'.specs = s.specs

section

variable {src : Source} {s s' : Session}

theorem Same.row? (same : s.Same s') (x : Referent) : x.row? s' = x.row? s := by
  cases x with
  | assembly id => rw [Referent.row?, same.assemblyRefs]; rfl
  | module id => rw [Referent.row?, same.moduleRefs]; rfl
  | type id => rw [Referent.row?, same.typeRefs]; rfl
  | primitive p => rw [Referent.row?, same.primitiveRefs]; rfl

theorem Same.fits (same : s.Same s') (fits : x.Fits s) : x.Fits s' := by
  cases x with
  | assembly id => rwa [Referent.Fits, same.assemblyRefs]
  | module id => rwa [Referent.Fits, same.moduleRefs]
  | type id => rwa [Referent.Fits, same.typeRefs]
  | primitive p => trivial

theorem Same.before (same : s.Same s') (strings : s.strings.Before s'.strings)
    (blobs : s.blobs.Before s'.blobs) (userStrings : s.userStrings.Before s'.userStrings) :
    s.Before s' where
  strings := strings
  blobs := blobs
  userStrings := userStrings
  rows reference := same.rows reference ▸ List.prefix_refl _
  referents known := (same.row? _).trans known

theorem isReference_of_isInterned (h : t.isInterned = true) : t.isReference = true := by
  cases t <;> first | rfl | cases h

theorem isReference_table (x : Referent) : x.table.isReference = true := by
  cases x <;> rfl

theorem isInterned_table (x : Referent) : x.table.isInterned = false := by
  cases x <;> rfl

theorem isReference_of_spec (h : t = .typeSpec ∨ t = .methodSpec) : t.isReference = true := by
  rcases h with rfl | rfl <;> rfl

theorem Catalogued.carry (cat : s.Catalogued src) (same : s.Same s') (before : s.Before s')
    (faithful : s'.Faithful) (strings : s'.strings.Spaced) (blobs : s'.blobs.Spaced) :
    s'.Catalogued src where
  faithful := faithful
  strings := strings
  blobs := blobs
  fits known := same.fits (cat.fits known)
  described {x n} remembered := by
    obtain ⟨i, row, number, stands, describes⟩ := cat.described ((same.row? x) ▸ remembered)
    exact ⟨i, row, number, before.getElem? (isReference_table x) stands,
      describes_mono before describes⟩
  apart hx hy := cat.apart (same.row? _ ▸ hx) (same.row? _ ▸ hy)
  distinct interned := by
    rw [same.rows (isReference_of_isInterned interned)]
    exact cat.distinct interned
  indexed {t i row} isSpec stands := by
    rw [same.rows (isReference_of_spec isSpec)] at stands
    obtain ⟨key, spec, kept⟩ := cat.indexed isSpec stands
    rw [same.specs]
    exact ⟨key, spec.mono before, kept⟩

def addRow (s : Session) (t : Table) (row : t.Row) : Session :=
  { s with tables := s.tables.push t row }

theorem rows_addRow_self (s : Session) (t : Table) (row : t.Row) :
    (s.addRow t row).tables.rows t = (s.tables.rows t).push row :=
  Tables.rows_modify_self ..

theorem rows_addRow_of_ne (s : Session) {u : Table} (row : t.Row) (other : u ≠ t) :
    (s.addRow t row).tables.rows u = s.tables.rows u :=
  Tables.rows_modify_of_ne _ _ other

theorem before_addRow (s : Session) (t : Table) (row : t.Row) : s.Before (s.addRow t row) where
  strings := .refl _
  blobs := .refl _
  userStrings := .refl _
  rows {u} _ := by
    by_cases same : u = t
    · subst same
      rw [rows_addRow_self, Array.toList_push]
      exact List.prefix_append ..
    · exact rows_addRow_of_ne s row same ▸ List.prefix_refl _
  referents {x n} known := by
    cases x <;> exact known

theorem Catalogued.addRow (cat : s.Catalogued src) (other : t.isInterned = false) (row : t.Row) :
    (s.addRow t row).Catalogued src where
  faithful := ⟨cat.faithful.strings, cat.faithful.blobs⟩
  strings := cat.strings
  blobs := cat.blobs
  fits {x} known := by
    have fits := cat.fits known
    cases x <;> exact fits
  described {x n} remembered := by
    have known : x.row? s = some n := by cases x <;> exact remembered
    obtain ⟨i, row', number, stands, describes⟩ := cat.described known
    have before := before_addRow s t row
    exact ⟨i, row', number, before.getElem? (isReference_table x) stands,
      describes_mono before describes⟩
  apart {x y n} hx hy := by
    have hx' : x.row? s = some n := by cases x <;> exact hx
    have hy' : y.row? s = some n := by cases y <;> exact hy
    exact cat.apart hx' hy'
  distinct {u} interned := by
    have distinct : u ≠ t := by
      rintro rfl
      rw [other] at interned
      cases interned
    rw [rows_addRow_of_ne s row distinct]
    exact cat.distinct interned
  indexed {u i r} isSpec stands := by
    have distinct : u ≠ t := by
      rintro rfl
      rcases isSpec with rfl | rfl <;> cases other
    rw [rows_addRow_of_ne s row distinct] at stands
    obtain ⟨key, spec, kept⟩ := cat.indexed isSpec stands
    exact ⟨key, spec.mono (before_addRow s t row), kept⟩

theorem before_note {n : Nat} (fresh : x.row? s = none) : s.Before (x.note n s) where
  strings := by cases x <;> exact .refl _
  blobs := by cases x <;> exact .refl _
  userStrings := by cases x <;> exact .refl _
  rows {t} _ := by cases x <;> exact List.prefix_refl _
  referents {y m} known := by
    have other : y ≠ x := by
      rintro rfl
      rw [fresh] at known
      cases known
    rwa [Referent.row?_note_of_ne other]

theorem Catalogued.note (cat : s.Catalogued src) (fresh : x.row? s = none)
    (stands : (s.tables.rows x.table)[i]? = some row) (describes : x.Describes src s i row)
    (unused : ∀ y : Referent, y.table = x.table → y.row? s ≠ some (i + 1)) :
    (x.note (i + 1) s).Catalogued src := by
  have before := before_note (n := i + 1) fresh
  have self : x.row? (x.note (i + 1) s) = some (i + 1) :=
    Referent.row?_note_self (cat.fits (known_of_describes describes))
  have tables : (x.note (i + 1) s).tables = s.tables := by cases x <;> rfl
  have specs : (x.note (i + 1) s).specs = s.specs := by cases x <;> rfl
  refine {
    faithful := ⟨?_, ?_⟩
    strings := ?_
    blobs := ?_
    fits := fun known => Referent.fits_note.2 (cat.fits known)
    described := fun {y n} remembered => ?_
    apart := fun {y z n} hy hz same => ?_
    distinct := fun interned => ?_
    indexed := fun {t j r} isSpec stands' => ?_ }
  case refine_1 => cases x <;> exact cat.faithful.strings
  case refine_2 => cases x <;> exact cat.faithful.blobs
  case refine_3 => cases x <;> exact cat.strings
  case refine_4 => cases x <;> exact cat.blobs
  case refine_5 =>
    rw [tables]
    by_cases same : y = x
    · subst same
      rw [self] at remembered
      cases remembered
      exact ⟨i, row, rfl, stands, describes_mono before describes⟩
    · rw [Referent.row?_note_of_ne same] at remembered
      obtain ⟨j, row', number, stands', describes'⟩ := cat.described remembered
      exact ⟨j, row', number, stands', describes_mono before describes'⟩
  case refine_6 =>
    by_cases hyx : y = x
    · by_cases hzx : z = x
      · rw [hyx, hzx]
      · rw [Referent.row?_note_of_ne hzx] at hz
        rw [hyx, self] at hy
        cases hy
        exact absurd hz (unused z (by rw [← same, hyx]))
    · by_cases hzx : z = x
      · rw [Referent.row?_note_of_ne hyx] at hy
        rw [hzx, self] at hz
        cases hz
        exact absurd hy (unused y (by rw [same, hzx]))
      · rw [Referent.row?_note_of_ne hyx] at hy
        rw [Referent.row?_note_of_ne hzx] at hz
        exact cat.apart hy hz same
  case refine_7 =>
    rw [tables]
    exact cat.distinct interned
  case refine_8 =>
    rw [tables] at stands'
    obtain ⟨key, spec, kept⟩ := cat.indexed isSpec stands'
    rw [specs]
    exact ⟨key, spec.mono before, kept⟩

theorem Catalogued.remember (cat : s.Catalogued src) (fresh : x.row? s = none)
    (describes : x.Describes src s (s.tables.count x.table) row) :
    (x.note (s.tables.count x.table + 1) (s.addRow x.table row)).Catalogued src ∧
      s.Before (x.note (s.tables.count x.table + 1) (s.addRow x.table row)) := by
  have before := before_addRow s x.table row
  have fresh' : x.row? (s.addRow x.table row) = none := by cases x <;> exact fresh
  refine ⟨(cat.addRow (isInterned_table x) row).note fresh' ?_ (describes_mono before describes) ?_,
    before.trans (before_note fresh')⟩
  · rw [rows_addRow_self, Tables.count, Array.getElem?_push_size]
  · intro y same remembered
    have remembered' : y.row? s = some (s.tables.count x.table + 1) := by
      cases y <;> exact remembered
    obtain ⟨j, row', number, stands, _⟩ := cat.described remembered'
    have inside := (Array.getElem?_eq_some_iff.1 stands).1
    rw [same] at inside
    have : s.tables.count x.table = (s.tables.rows x.table).size := rfl
    omega

end

end Session
end Cil
