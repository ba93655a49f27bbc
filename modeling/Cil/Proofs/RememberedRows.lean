import Cil.Proofs.Requests
import Mathlib.Logic.Relation

/-!
Rows that are remembered: those of assemblies, modules and types. A row is made first and then
remembered. That of a nested type comes behind the one of the type around it, so that no row is made
while it is being made.
-/

namespace Cil

open Referent

variable {n : Nat}

theorem Permits.references : Permits (fun _ => True) (·.isOutOfRange = false) :=
  ⟨fun _ => trivial, id⟩

namespace Session

variable {src : Source} {s s₁ s' : Session}

theorem Same.refl (s : Session) : s.Same s := ⟨fun _ => rfl, rfl, rfl, rfl, rfl, rfl⟩

theorem Same.trans (first : s.Same s₁) (second : s₁.Same s') : s.Same s' where
  rows h := (second.rows h).trans (first.rows h)
  assemblyRefs := second.assemblyRefs.trans first.assemblyRefs
  moduleRefs := second.moduleRefs.trans first.moduleRefs
  typeRefs := second.typeRefs.trans first.typeRefs
  primitiveRefs := second.primitiveRefs.trans first.primitiveRefs
  specs := second.specs.trans first.specs

theorem Same.count (same : s.Same s') {t : Table} (reference : t.isReference = true) :
    s'.tables.count t = s.tables.count t := by
  rw [Tables.count, Tables.count, same.rows reference]

/-- An action wrote to the heaps at most, and what it gave has a property from then on. -/
structure Wrote (src : Source) (s s' : Session) (p : Session → Prop) : Prop where
  catalogued : s'.Catalogued src
  before : s.Before s'
  same : s.Same s'
  holds {t : Session} : s'.Before t → p t

end Session

namespace Emit

variable {src : Source} {s s' : Session} {i : StringIndex} {id : AssemblyRefId} {x : Referent}
  {make : Emit x.table.Row}

theorem wrote_string (cat : s.Catalogued src) {text : String} (run : (Emit.string text).Runs s i s') :
    s.Wrote src s' fun t => t.strings.Has StringHeap.encode i.offset text := by
  obtain ⟨cat', before, located, same⟩ := string_runs cat run
  refine ⟨cat', before, same, fun later => ?_⟩
  exact (StringHeap.has_of_locates cat'.faithful.strings located).mono later.strings.bytes

theorem wrote_blob (cat : s.Catalogued src) {bytes : Bytes} {i : BlobIndex}
    (run : (Emit.blob bytes).Runs s i s') :
    s.Wrote src s' fun t => t.blobs.Has BlobHeap.encode i.offset bytes := by
  obtain ⟨cat', before, located, same, encoding, encoded⟩ := blob_runs cat run
  refine ⟨cat', before, same, fun later => ?_⟩
  exact (BlobHeap.has_of_locates cat'.faithful.blobs encoded located).mono later.blobs.bytes

theorem wrote_string? (cat : s.Catalogued src) {text : Option String}
    (run : (Emit.string? text).Runs s i s') :
    s.Wrote src s' fun t => t.strings.Has? StringHeap.encode i.offset text := by
  cases text with
  | some text => exact wrote_string cat run
  | none =>
    obtain ⟨rfl, rfl⟩ := runs_pure.1 run
    exact ⟨cat, .refl _, .refl _, fun _ => rfl⟩

theorem wrote_blob? (cat : s.Catalogued src) {bytes : Option Bytes} {i : BlobIndex}
    (run : (Emit.blob? bytes).Runs s i s') :
    s.Wrote src s' fun t => t.blobs.Has? BlobHeap.encode i.offset bytes := by
  cases bytes with
  | some bytes => exact wrote_blob cat run
  | none =>
    obtain ⟨rfl, rfl⟩ := runs_pure.1 run
    exact ⟨cat, .refl _, .refl _, fun _ => rfl⟩

theorem wrote_assemblyRefRow (cat : s.Catalogued src) {row : Row.AssemblyRef}
    (run : (assemblyRefRow src id).Runs s row s') :
    s.Wrote src s' fun t => ∃ a, src.module.assemblyReferences[id.index]? = some a ∧
      t.DescribesAssembly a row := by
  unfold assemblyRefRow at run
  cases found : src.module.assemblyReferences[id.index]? with
  | none =>
    simp only [found] at run
    exact absurd run runs_throw
  | some a =>
    simp only [found, runs_bind, runs_pure] at run
    obtain ⟨key, s₁, run₁, hash, s₂, run₂, culture, s₃, run₃, name, s₄, run₄, rfl, rfl⟩ := run
    have keyed := wrote_blob? cat run₁
    have hashed := wrote_blob? keyed.catalogued run₂
    have cultured := wrote_string? hashed.catalogued run₃
    have named := wrote_string cultured.catalogued run₄
    have third := named.before
    have second := cultured.before.trans third
    have first := hashed.before.trans second
    exact ⟨named.catalogued, keyed.before.trans first,
      keyed.same.trans (hashed.same.trans (cultured.same.trans named.same)), fun later =>
      ⟨a, rfl, rfl, rfl, rfl, rfl, rfl, keyed.holds (first.trans later), named.holds later,
        cultured.holds (third.trans later), hashed.holds (second.trans later)⟩⟩

theorem wrote_moduleRefRow (cat : s.Catalogued src) {id : ModuleRefId} {row : Row.ModuleRef}
    (run : (moduleRefRow src id).Runs s row s') :
    s.Wrote src s' fun t => ∃ r, src.module.moduleReferences[id.index]? = some r ∧
      t.strings.Has StringHeap.encode row.name.offset r.name := by
  unfold moduleRefRow at run
  cases found : src.module.moduleReferences[id.index]? with
  | none =>
    simp only [found] at run
    exact absurd run runs_throw
  | some r =>
    simp only [found, runs_bind, runs_pure] at run
    obtain ⟨name, s₁, run₁, rfl, rfl⟩ := run
    have named := wrote_string cat run₁
    exact ⟨named.catalogued, named.before, named.same, fun later => ⟨r, rfl, named.holds later⟩⟩

theorem madeBy_of_wrote
    (wrote : ∀ {s row s'}, s.Catalogued src → make.Runs s row s' →
      s.Wrote src s' fun t => ∀ i, x.Describes src t i row) : x.MadeBy src make where
  fresh cat fresh run := ((wrote cat run).same.row? x).trans fresh
  describes cat run := (wrote cat run).holds (.refl _) _

namespace Asks

theorem throw {α : Type} {e : Error} (h : e.isOutOfRange = false) : Asks src (throw e : Emit α) :=
  .ofExcept (.error h)

theorem ofEncoding {α : Type} (r : Except EncodingError α) : Asks src (Emit.ofEncoding r) := by
  cases r with
  | ok a => exact .ofExcept (.ok a)
  | error e => exact .ofExcept (.error rfl)

theorem string? (text : Option String) : Asks src (Emit.string? text) := by
  cases text with
  | some text => exact .string text
  | none => exact .pure _

theorem blob? (bytes : Option Bytes) : Asks src (Emit.blob? bytes) := by
  cases bytes with
  | some bytes => exact .blob bytes
  | none => exact .pure _

theorem assemblyRefRow (id : AssemblyRefId) : Asks src (assemblyRefRow src id) := by
  unfold Cil.assemblyRefRow
  split
  · exact .bind (.blob? _) fun _ => .bind (.blob? _) fun _ => .bind (.string? _) fun _ =>
      .bind (.string _) fun _ => .pure _
  · exact .throw rfl

theorem moduleRefRow (id : ModuleRefId) : Asks src (moduleRefRow src id) := by
  unfold Cil.moduleRefRow
  split
  · exact .bind (.string _) fun _ => .pure _
  · exact .throw rfl

end Asks

theorem madeBy_assemblyRefRow (id : AssemblyRefId) :
    (assembly id).MadeBy src (assemblyRefRow src id) := by
  refine madeBy_of_wrote fun cat run => ?_
  have wrote := wrote_assemblyRefRow cat run
  exact { wrote with holds := fun later _ => wrote.holds later }

theorem madeBy_moduleRefRow (id : ModuleRefId) :
    (module id).MadeBy src (moduleRefRow src id) := by
  refine madeBy_of_wrote fun cat run => ?_
  have wrote := wrote_moduleRefRow cat run
  exact { wrote with holds := fun later _ => wrote.holds later }

theorem Asks.assemblyRef (id : AssemblyRefId) : Asks src (assemblyRef src id) :=
  .remembered _ (.assemblyRefRow id) (madeBy_assemblyRefRow id)

theorem Asks.moduleRef (id : ModuleRefId) : Asks src (moduleRef src id) :=
  .remembered _ (.moduleRefRow id) (madeBy_moduleRefRow id)

theorem row?_of_wrote {p : x.table.Row → Session → Prop}
    (wrote : ∀ {row s₁}, make.Runs s row s₁ → s.Wrote src s₁ (p row))
    (run : (Emit.remembered x make).Runs s n s') {y : Referent} (other : y ≠ x) :
    y.row? s' = y.row? s := by
  rcases remembered_cases run with ⟨_, rfl⟩ | ⟨row, s₁, _, making, rfl, rfl⟩
  · rfl
  · rw [row?_note_of_ne other, ← (wrote making).same.row? y]
    cases y <;> rfl

theorem assemblyRef_runs (cat : s.Catalogued src) (run : (assemblyRef src id).Runs s n s') :
    (assembly id).row? s' = some n ∧
      ∀ y : Referent, y ≠ .assembly id → y.row? s' = y.row? s := by
  exact ⟨(remembered_runs (Asks.assemblyRefRow id).lasts (madeBy_assemblyRefRow id) cat run).2.2,
    fun y other => row?_of_wrote (fun making => wrote_assemblyRefRow cat making) run other⟩

theorem moduleRef_runs (cat : s.Catalogued src) {id : ModuleRefId}
    (run : (moduleRef src id).Runs s n s') :
    (module id).row? s' = some n ∧
      ∀ y : Referent, y ≠ .module id → y.row? s' = y.row? s := by
  exact ⟨(remembered_runs (Asks.moduleRefRow id).lasts (madeBy_moduleRefRow id) cat run).2.2,
    fun y other => row?_of_wrote (fun making => wrote_moduleRefRow cat making) run other⟩

end Emit

/-- The second type is the first one or lies around it. -/
def TypeId.Within (m : Module) : TypeId → TypeId → Prop :=
  Relation.ReflTransGen fun d e => ∃ t, m.typeInfo d = .ok t ∧ t.declaringType = some e

section

variable {src : Source} {s s' : Session}

variable {e : TypeId}

theorem Session.Catalogued.row?_declaring (cat : s.Catalogued src) {d : TypeId} {t : TypeInfo}
    (found : src.module.typeInfo d = .ok t) (nested : t.declaringType = some e)
    (known : (type d).row? s = some n) : ∃ m < n, (type e).row? s = some m := by
  obtain ⟨i, row, rfl, _, t', found', told⟩ := cat.described known
  rw [found] at found'
  cases found'
  obtain ⟨scope, _, _⟩ := told
  generalize row.resolutionScope = index at scope
  cases scope with
  | nested nested' known' earlier =>
    rw [nested] at nested'
    cases nested'
    exact ⟨_, Nat.lt_succ_of_le earlier, known'⟩
  | assembly outer | module outer =>
    rw [nested] at outer
    cases outer

theorem Session.Catalogued.row?_within (cat : s.Catalogued src) {d : TypeId}
    (within : d.Within src.module e) (known : (type d).row? s = some n) :
    ∃ m ≤ n, (type e).row? s = some m := by
  induction within with
  | refl => exact ⟨n, Nat.le_refl n, known⟩
  | tail _ step ih =>
    obtain ⟨m, le, known'⟩ := ih
    obtain ⟨t, found, nested⟩ := step
    obtain ⟨k, lt, known''⟩ := cat.row?_declaring found nested known'
    exact ⟨k, by omega, known''⟩

/-- The action gives the rows of external types and remembers them; other types get rows only if they lie
around one of them. -/
structure Emit.Encloses (src : Source) (within : TypeId → Emit Nat) : Prop where
  asks (d : TypeId) : (within d).Asks src
  remembers {s s' : Session} {d : TypeId} {n : Nat} : s.Catalogued src → (within d).Runs s n s' →
    (type d).row? s' = some n
  around {s s' : Session} {d e : TypeId} {n m : Nat} : s.Catalogued src → (within d).Runs s n s' →
    (type e).row? s = none → (type e).row? s' = some m → d.Within src.module e

namespace Emit

variable {within : TypeId → Emit Nat} {t : TypeInfo} {scope : CodedIndex .resolutionScope}

theorem Encloses.typeScope (h : Encloses src within) (t : TypeInfo) :
    Asks src (typeScope src within t) := by
  unfold Cil.typeScope
  split
  · exact .throw rfl
  · exact .throw rfl
  · refine .bind (.ofExcept (fails_typeInfo .references ..)) fun outer => ?_
    split
    · exact .throw rfl
    · exact .bind (h.asks _) fun _ => .pure _
  · exact .bind (.assemblyRef _) fun _ => .pure _
  · exact .bind (.moduleRef _) fun _ => .pure _

theorem Encloses.typeRefRow (h : Encloses src within) (id : TypeId) :
    Asks src (typeRefRow src within id) :=
  .bind (.ofExcept (fails_typeInfo .references ..)) fun _ => .bind (h.typeScope _) fun _ =>
    .bind (.string? _) fun _ =>
    .bind (.string _) fun _ => .pure _

theorem typeScope_cases (run : (typeScope src within t).Runs s scope s') :
    (∃ d n, t.declaringType = some d ∧ (within d).Runs s n s' ∧ scope = .row .typeRef n) ∨
      (∃ a n, t.declaringType = none ∧ t.scope = .assembly a ∧ (assemblyRef src a).Runs s n s' ∧
        scope = .row .assemblyRef n) ∨
      ∃ m n, t.declaringType = none ∧ t.scope = .module m ∧ (moduleRef src m).Runs s n s' ∧
        scope = .row .moduleRef n := by
  unfold typeScope at run
  split at run
  case h_1 | h_2 => exact absurd run runs_throw
  case h_3 d nested _ _ =>
    obtain ⟨outer, _, found, rest⟩ := runs_bind.1 run
    obtain ⟨_, rfl⟩ := runs_ofExcept.1 found
    split at rest
    · exact absurd rest runs_throw
    · obtain ⟨n, _, made, returned⟩ := runs_bind.1 rest
      obtain ⟨rfl, rfl⟩ := runs_pure.1 returned
      exact .inl ⟨d, n, nested, made, rfl⟩
  case h_4 a lies outer =>
    obtain ⟨n, _, made, returned⟩ := runs_bind.1 run
    obtain ⟨rfl, rfl⟩ := runs_pure.1 returned
    exact .inr (.inl ⟨a, n, outer, lies, made, rfl⟩)
  case h_5 m lies outer =>
    obtain ⟨n, _, made, returned⟩ := runs_bind.1 run
    obtain ⟨rfl, rfl⟩ := runs_pure.1 returned
    exact .inr (.inr ⟨m, n, outer, lies, made, rfl⟩)

theorem Encloses.scopes (h : Encloses src within) (cat : s.Catalogued src)
    (run : (Cil.typeScope src within t).Runs s scope s') :
    s'.Scopes t (s'.tables.count .typeRef) scope := by
  rcases typeScope_cases run with ⟨d, n, nested, made, rfl⟩ | ⟨a, n, outer, lies, made, rfl⟩ |
    ⟨m, n, outer, lies, made, rfl⟩
  · have known := h.remembers cat made
    obtain ⟨i, row, rfl, stands, _⟩ := ((h.asks d).lasts.run cat made).1.described known
    exact .nested nested known (Array.getElem?_eq_some_iff.1 stands).1
  · exact .assembly outer lies (assemblyRef_runs cat made).1
  · exact .module outer lies (moduleRef_runs cat made).1

theorem Encloses.around_typeScope (h : Encloses src within) (cat : s.Catalogued src)
    (run : (Cil.typeScope src within t).Runs s scope s') {m : Nat}
    (absent : (type e).row? s = none) (present : (type e).row? s' = some m) :
    ∃ d n, t.declaringType = some d ∧ d.Within src.module e ∧ (type d).row? s' = some n := by
  rcases typeScope_cases run with ⟨d, n, nested, made, rfl⟩ | ⟨a, n, _, _, made, rfl⟩ |
    ⟨m, n, _, _, made, rfl⟩
  · exact ⟨d, n, nested, h.around cat made absent present, h.remembers cat made⟩
  · rw [(assemblyRef_runs cat made).2 (.type e) (by simp), absent] at present
    cases present
  · rw [(moduleRef_runs cat made).2 (.type e) (by simp), absent] at present
    cases present

theorem typeRefRow_runs {id : TypeId} {row : Row.TypeRef}
    (run : (typeRefRow src within id).Runs s row s') :
    ∃ t s₁, src.module.typeInfo id = .ok t ∧
      (typeScope src within t).Runs s row.resolutionScope s₁ ∧
      (s₁.Catalogued src → s₁.Wrote src s' fun u =>
        u.strings.Has StringHeap.encode row.name.offset t.name ∧
          u.strings.Has? StringHeap.encode row.typeNamespace.offset t.typeNamespace) := by
  simp only [typeRefRow, runs_bind, runs_ofExcept, runs_pure] at run
  obtain ⟨t, _, ⟨found, rfl⟩, scope, s₁, run₁, typeNamespace, s₂, run₂, name, s₃, run₃, rfl, rfl⟩ := run
  refine ⟨t, s₁, found, run₁, fun cat => ?_⟩
  have spaced := wrote_string? cat run₂
  have named := wrote_string spaced.catalogued run₃
  exact ⟨named.catalogued, spaced.before.trans named.before, spaced.same.trans named.same,
    fun later => ⟨named.holds later, spaced.holds (named.before.trans later)⟩⟩

theorem Encloses.madeBy (h : Encloses src within) (id : TypeId) :
    (type id).MadeBy src (Cil.typeRefRow src within id) where
  fresh {s s' row} cat fresh run := by
    obtain ⟨t, s₁, found, scoping, naming⟩ := typeRefRow_runs run
    have cat₁ := ((h.typeScope t).lasts.run cat scoping).1
    rw [(naming cat₁).same.row?]
    cases present : (type id).row? s₁ with
    | none => rfl
    | some m =>
      -- The type would lie around itself, and its row before its own.
      obtain ⟨d, n, nested, around, known⟩ := h.around_typeScope cat scoping fresh present
      obtain ⟨m', le, present'⟩ := cat₁.row?_within around known
      obtain ⟨n', lt, known'⟩ := cat₁.row?_declaring found nested present
      rw [present] at present'
      rw [known] at known'
      cases present'
      cases known'
      omega
  describes {s s' row} cat run := by
    obtain ⟨t, s₁, found, scoping, naming⟩ := typeRefRow_runs run
    have wrote := naming ((h.typeScope t).lasts.run cat scoping).1
    obtain ⟨name, typeNamespace⟩ := wrote.holds (.refl _)
    refine ⟨t, found, ?_, name, typeNamespace⟩
    rw [show s'.tables.count (type id).table = s₁.tables.count .typeRef from wrote.same.count rfl]
    exact (h.scopes cat scoping).mono wrote.before

theorem Encloses.remembered (h : Encloses src within) :
    Encloses src fun id => Emit.remembered (.type id) (Cil.typeRefRow src within id) where
  asks id := .remembered _ (h.typeRefRow id) (h.madeBy id)
  remembers {s s' d n} cat run := (remembered_runs (h.typeRefRow d).lasts (h.madeBy d) cat run).2.2
  around {s s' d e n m} cat run absent present := by
    rcases remembered_cases run with ⟨_, rfl⟩ | ⟨row, s₁, _, making, rfl, rfl⟩
    · rw [absent] at present
      cases present
    · by_cases same : e = d
      · exact same ▸ .refl
      · obtain ⟨t, s₂, found, scoping, naming⟩ := typeRefRow_runs making
        have wrote := naming ((h.typeScope t).lasts.run cat scoping).1
        have other : type e ≠ .type d := fun equal => same (type.inj equal)
        rw [row?_note_of_ne other] at present
        have present₂ : (type e).row? s₂ = some m := (wrote.same.row? _).symm.trans present
        obtain ⟨outer, _, nested, around, _⟩ := h.around_typeScope cat scoping absent present₂
        exact .head ⟨t, found, nested⟩ around

theorem encloses_typeRefWithin (src : Source) (fuel : Nat) : Encloses src (typeRefWithin src fuel) := by
  induction fuel with
  | zero =>
    have fails {s s' : Session} {id : TypeId} {n : Nat} : ¬ (typeRefWithin src 0 id).Runs s n s' := by
      simp [typeRefWithin]
    exact ⟨fun _ => .bind (.ofExcept (fails_typeInfo .references ..)) fun _ => .throw rfl, fun _ run =>
      absurd run fails,
      fun _ run => absurd run fails⟩
  | succ fuel ih => exact ih.remembered

end Emit
end
end Cil
