import Cil.Proofs.Catalogue

/-!
Rows that are found again by what they say. Whichever way a spec is searched for, the row that is found
is the only one that says the same; so the hashes of specs do not matter, and all such rows are given
out by first occurrence.
-/

namespace Cil

open Emit

theorem findIdx?_congr {α : Type} {xs : Array α} {p q : α → Bool} (h : ∀ x ∈ xs, p x = q x) :
    xs.findIdx? p = xs.findIdx? q := by
  rcases xs with ⟨l⟩
  simp only [List.findIdx?_toArray]
  induction l with
  | nil => rfl
  | cons a l ih =>
    have first := h a (by simp)
    have rest := ih fun x member => h x (by simpa using Or.inr (by simpa using member))
    simp only [List.findIdx?_cons, first, rest]

namespace SpecIndex

variable {x : SpecIndex} {t : Table} {key : UInt64} {p : Nat → Bool} {n : Nat}

theorem find?_some (found : x.find? t key p = some n) : p n = true := by
  obtain ⟨⟨table, k, m⟩, first, rfl⟩ := Option.map_eq_some_iff.1 found
  have is := Array.find?_some first
  simp only [Bool.and_eq_true] at is
  exact is.2

theorem exists_find? (member : (t, key, n) ∈ x.rows) (is : p n = true) :
    ∃ m, x.find? t key p = some m := by
  have found : (x.find? t key p).isSome = true := by
    rw [find?, Option.isSome_map, Array.find?_isSome]
    exact ⟨_, member, by simp [is]⟩
  exact Option.isSome_iff_exists.1 found

end SpecIndex

namespace Session

variable {src : Source} {s s' : Session} {t : Table} {row : t.Row} {i : Nat}

variable {blob : Bytes}

theorem Spec.key_unique (spaced : s.blobs.Spaced) {key key' : SpecKeys → UInt64}
    (spec : s.Spec t row key) (spec' : s.Spec t row key') : key = key' := by
  cases spec with
  | type located =>
    cases spec' with
    | type located' => rw [spaced.entry_unique BlobHeap.eq_of_isEmpty located located']
  | method located =>
    cases spec' with
    | method located' => rfl

theorem isInterned_of_spec (h : t = .typeSpec ∨ t = .methodSpec) : t.isInterned = true := by
  rcases h with rfl | rfl <;> rfl

theorem Catalogued.place_unique (cat : s.Catalogued src) (interned : t.isInterned = true) {j : Nat}
    (stands : (s.tables.rows t)[i]? = some row) (stands' : (s.tables.rows t)[j]? = some row) :
    i = j := by
  rw [← Array.getElem?_toList] at stands stands'
  exact (List.getElem?_inj (List.getElem?_eq_some_iff.1 stands).1 (cat.distinct interned)).1
    (stands.trans stands'.symm)

theorem Catalogued.findIdx? (cat : s.Catalogued src) (interned : t.isInterned = true)
    (stands : (s.tables.rows t)[i]? = some row) :
    (s.tables.rows t).findIdx? (· == row) = some i := by
  obtain ⟨inside, is⟩ := Array.getElem?_eq_some_iff.1 stands
  refine Array.findIdx?_eq_some_iff_getElem.2 ⟨inside, by simp [is], fun j earlier same => ?_⟩
  have stands' := Array.getElem?_eq_some_iff.2
    ⟨Nat.lt_trans earlier inside, beq_iff_eq.1 same⟩
  have := cat.place_unique interned stands stands'
  omega

theorem getElem?_of_findIdx? (found : (s.tables.rows t).findIdx? (· == row) = some i) :
    (s.tables.rows t)[i]? = some row := by
  obtain ⟨inside, is, _⟩ := Array.findIdx?_eq_some_iff_getElem.1 found
  exact Array.getElem?_eq_some_iff.2 ⟨inside, beq_iff_eq.1 is⟩

theorem notMem_of_findIdx? (missing : (s.tables.rows t).findIdx? (· == row) = none) :
    row ∉ s.tables.rows t := by
  intro member
  have := Array.findIdx?_eq_none_iff.1 missing row member
  simp at this

theorem Catalogued.findSpec? (cat : s.Catalogued src) {key : SpecKeys → UInt64}
    {same : t.Row → Bool} (isSpec : t = .typeSpec ∨ t = .methodSpec) (spec : s.Spec t row key)
    (alike : ∀ r ∈ s.tables.rows t, same r = (r == row)) :
    s.findSpec? t key same row = (s.tables.rows t).findIdx? (· == row) := by
  rw [Session.findSpec?]
  split
  case h_1 => exact findIdx?_congr alike
  case h_2 keys keyed =>
    cases place : (s.tables.rows t).findIdx? (· == row) with
    | none =>
      refine Option.eq_none_iff_forall_not_mem.2 fun n found => ?_
      have stands : (s.tables.rows t)[n]? = some row := by
        simpa using SpecIndex.find?_some (Option.mem_def.1 found)
      exact notMem_of_findIdx? place (Array.mem_of_getElem? stands)
    | some i =>
      -- The row is kept under its hash, and what is found there is this row.
      have stands := getElem?_of_findIdx? place
      obtain ⟨key', spec', kept⟩ := cat.indexed isSpec stands
      have member := kept keys keyed
      rw [Spec.key_unique cat.blobs spec' spec] at member
      obtain ⟨n, found⟩ := SpecIndex.exists_find?
        (p := fun n => (s.tables.rows t)[n]? == some row) member (beq_iff_eq.2 stands)
      have stands' : (s.tables.rows t)[n]? = some row := by simpa using SpecIndex.find?_some found
      rw [found, cat.place_unique (isInterned_of_spec isSpec) stands' stands]

theorem Catalogued.holds_eq (cat : s.Catalogued src) {blob' : Bytes} {index index' : BlobIndex}
    (located : s.BlobAt blob index) (located' : s.BlobAt blob' index') :
    s.blobs.holds index'.offset blob = (index' == index) := by
  rw [BlobHeap.holds, BlobHeap.read_of_locates (cat.faithful.blobs.found cat.blobs) located',
    Bool.eq_iff_iff]
  simp only [beq_iff_eq]
  constructor
  · rintro rfl
    have := Heap.Locates.offset_unique located' located
    cases index
    cases index'
    exact congrArg _ this
  · rintro rfl
    exact cat.blobs.entry_unique BlobHeap.eq_of_isEmpty located' located

theorem Catalogued.alike_typeSpec (cat : s.Catalogued src) {signature : BlobIndex}
    (located : s.BlobAt blob signature) (r : Row.TypeSpec) (member : r ∈ s.tables.rows .typeSpec) :
    s.blobs.holds r.signature.offset blob = (r == { signature }) := by
  obtain ⟨i, stands⟩ := Array.getElem?_of_mem member
  obtain ⟨_, spec, _⟩ := cat.indexed (.inl rfl) stands
  cases spec with
  | type located' =>
    rw [cat.holds_eq located located', Bool.eq_iff_iff]
    simp

theorem Catalogued.alike_methodSpec (cat : s.Catalogued src) {method : MethodDefOrRef}
    {instantiation : BlobIndex} (located : s.BlobAt blob instantiation) (r : Row.MethodSpec)
    (member : r ∈ s.tables.rows .methodSpec) :
    (r.method == method && s.blobs.holds r.instantiation.offset blob) =
      (r == { method, instantiation }) := by
  obtain ⟨i, stands⟩ := Array.getElem?_of_mem member
  obtain ⟨_, spec, _⟩ := cat.indexed (.inr rfl) stands
  cases spec with
  | method located' =>
    rw [cat.holds_eq located located', Bool.eq_iff_iff]
    simp

theorem Catalogued.addInterned (cat : s.Catalogued src) (interned : t.isInterned = true)
    (new : row ∉ s.tables.rows t) {x : SpecIndex}
    (indexed : Indexed { s.addRow t row with specs := x }) :
    Catalogued src { s.addRow t row with specs := x } ∧
      s.Before { s.addRow t row with specs := x } := by
  have before : s.Before { s.addRow t row with specs := x } :=
    { before_addRow s t row with referents := fun {x _} known => by cases x <;> exact known }
  refine ⟨{
    faithful := ⟨cat.faithful.strings, cat.faithful.blobs⟩
    strings := cat.strings
    blobs := cat.blobs
    fits := fun {x} known => ?_
    described := fun {x n} remembered => ?_
    apart := fun {x y n} hx hy => ?_
    distinct := fun {u} interned' => ?_
    indexed := indexed }, before⟩
  case refine_1 =>
    have fits := cat.fits known
    cases x <;> exact fits
  case refine_2 =>
    have known : x.row? s = some n := by cases x <;> exact remembered
    obtain ⟨i, row', number, stands, describes⟩ := cat.described known
    exact ⟨i, row', number, before.getElem? (isReference_table x) stands,
      describes_mono before describes⟩
  case refine_3 =>
    have hx' : x.row? s = some n := by cases x <;> exact hx
    have hy' : y.row? s = some n := by cases y <;> exact hy
    exact cat.apart hx' hy'
  case refine_4 =>
    by_cases same : u = t
    · subst same
      change ((s.addRow u row).tables.rows u).toList.Nodup
      rw [rows_addRow_self, Array.toList_push, List.nodup_append]
      refine ⟨cat.distinct interned, List.nodup_singleton _, fun a old b last => ?_⟩
      rintro rfl
      rw [List.mem_singleton.1 last] at old
      exact new (Array.mem_toList_iff.1 old)
    · change ((s.addRow t row).tables.rows u).toList.Nodup
      rw [rows_addRow_of_ne s row same]
      exact cat.distinct interned'

end Session

/-- The action gives the row of a table that says what is wanted, and adds it if there is none. -/
structure Emit.Finds (s : Session) (t : Table) (row : t.Row) (c : Emit Nat) : Prop where
  found {i : Nat} : (s.tables.rows t)[i]? = some row → c.Runs s (i + 1) s
  added : row ∉ s.tables.rows t → ∃ x, c.Runs s (s.tables.count t + 1)
    { s.addRow t row with specs := x } ∧
    Session.Indexed { s.addRow t row with specs := x }

theorem Emit.runs_push {s s' : Session} {t : Table} {row : t.Row} {n : Nat} :
    (push t row).Runs s n s' ↔ n = s.tables.count t + 1 ∧ s' = s.addRow t row := by
  have count : (s.tables.push t row).count t = s.tables.count t + 1 := by
    rw [Tables.count, Tables.push, Tables.rows_modify_self, Array.size_push]
    rfl
  rw [push, runs_modifyGet, Prod.mk.injEq, count]
  constructor <;> rintro ⟨rfl, rfl⟩ <;> exact ⟨rfl, rfl⟩

/-- A map from rows to numbers keeps the rows of a table. -/
def Emit.Keeps {t : Table} (numbers : t.Row → Option Nat) (s : Session) : Prop :=
  ∀ r, numbers r = ((s.tables.rows t).findIdx? (· == r)).map (· + 1)

/-- `intern` with a map from rows to numbers, which goes on to keep the row, in place of the search. -/
def Emit.internBy {t : Table} (numbers : t.Row → Option Nat) (row : t.Row) :
    Emit (Nat × (t.Row → Option Nat)) := do
  match numbers row with
  | some n => return (n, numbers)
  | none =>
    let n ← push t row
    return (n, fun r => if row == r then some n else numbers r)

/-- A map that keeps the rows of a table gives the numbers that the search gives, and keeps the rows
from then on. -/
theorem Emit.internBy_keeps {s : Session} {t : Table} {numbers : t.Row → Option Nat}
    (keeps : Keeps numbers s) (row : t.Row) : ∃ n numbers' s',
      (internBy numbers row).Runs s (n, numbers') s' ∧ (intern t row).Runs s n s' ∧
        Keeps numbers' s' := by
  have known := keeps row
  cases place : (s.tables.rows t).findIdx? (· == row) with
  | some i =>
    rw [place] at known
    refine ⟨i + 1, numbers, s, ?_, runs_bind.2 ⟨s, s, runs_get.2 ⟨rfl, rfl⟩, ?_⟩, keeps⟩
    · rw [internBy, known]
      exact runs_pure.2 ⟨rfl, rfl⟩
    · simp only [place]
      exact runs_pure.2 ⟨rfl, rfl⟩
  | none =>
    rw [place] at known
    have pushed : (push t row).Runs s (s.tables.count t + 1) (s.addRow t row) :=
      runs_push.2 ⟨rfl, rfl⟩
    refine ⟨s.tables.count t + 1, fun r => if row == r then some (s.tables.count t + 1) else numbers r,
      s.addRow t row, ?_, runs_bind.2 ⟨s, s, runs_get.2 ⟨rfl, rfl⟩, ?_⟩, fun r => ?_⟩
    · rw [internBy, known]
      exact runs_bind.2 ⟨_, _, pushed, runs_pure.2 ⟨rfl, rfl⟩⟩
    · simp only [place]
      exact pushed
    · dsimp only
      rw [Session.rows_addRow_self, Array.findIdx?_push, keeps r]
      by_cases same : row = r
      · subst same
        simp [place, Tables.count]
      · simp [same]

namespace Session.Catalogued

variable {src : Source} {s : Session} {t : Table} {row : t.Row} {key : SpecKeys → UInt64}

theorem finds_intern (cat : s.Catalogued src) (interned : t.isInterned = true)
    (other : ¬ (t = .typeSpec ∨ t = .methodSpec)) : (intern t row).Finds s t row where
  found {i} stands := by
    refine runs_bind.2 ⟨s, s, runs_get.2 ⟨rfl, rfl⟩, ?_⟩
    simp only [cat.findIdx? interned stands]
    exact runs_pure.2 ⟨rfl, rfl⟩
  added new := by
    refine ⟨s.specs, runs_bind.2 ⟨s, s, runs_get.2 ⟨rfl, rfl⟩, ?_⟩, ?_⟩
    · have missing : (s.tables.rows t).findIdx? (· == row) = none :=
        Array.findIdx?_eq_none_iff.2 fun r member =>
          beq_eq_false_iff_ne.2 (by rintro rfl; exact new member)
      simp only [missing]
      exact runs_push.2 ⟨rfl, rfl⟩
    · intro u i r isSpec stands
      have distinct : u ≠ t := by
        rintro rfl
        exact other isSpec
      change ((s.addRow t row).tables.rows u)[i]? = some r at stands
      rw [rows_addRow_of_ne s row distinct] at stands
      obtain ⟨key, spec, kept⟩ := cat.indexed isSpec stands
      exact ⟨key, spec.mono (before_addRow s t row), kept⟩

theorem indexed_add (cat : s.Catalogued src) (spec : s.Spec t row key) :
    Indexed { s.addRow t row with specs := s.specs.add t key (s.tables.count t) } := by
  have before : s.Before { s.addRow t row with specs := s.specs.add t key (s.tables.count t) } :=
    { before_addRow s t row with referents := fun {x _} known => by cases x <;> exact known }
  have search : (s.specs.add t key (s.tables.count t)).search = s.specs.search := by
    rw [SpecIndex.add]
    split <;> rfl
  have added {keys : SpecKeys} (keyed : s.specs.search = .keyed keys) :
      (s.specs.add t key (s.tables.count t)).rows =
        s.specs.rows.push (t, key keys, s.tables.count t) := by
    rw [SpecIndex.add, keyed]
  have kept {u : Table} {i : Nat} {r : u.Row} (isSpec : u = .typeSpec ∨ u = .methodSpec)
      (stands : (s.tables.rows u)[i]? = some r) :
      ∃ key', Session.Spec
        { s.addRow t row with specs := s.specs.add t key (s.tables.count t) } u r key' ∧
        ∀ keys, (s.specs.add t key (s.tables.count t)).search = .keyed keys →
          (u, key' keys, i) ∈ (s.specs.add t key (s.tables.count t)).rows := by
    obtain ⟨key', spec', member⟩ := cat.indexed isSpec stands
    refine ⟨key', spec'.mono before, fun keys keyed => ?_⟩
    rw [search] at keyed
    rw [added keyed]
    exact Array.mem_push_of_mem _ (member keys keyed)
  intro u i r isSpec stands
  by_cases same : u = t
  · subst same
    have pushed : ((s.tables.rows u).push row)[i]? = some r := (rows_addRow_self s u row) ▸ stands
    rw [Array.getElem?_push] at pushed
    split at pushed
    case isTrue last =>
      cases pushed
      refine ⟨key, spec.mono before, fun keys keyed => ?_⟩
      have keyed' : s.specs.search = .keyed keys := search ▸ keyed
      change _ ∈ (s.specs.add u key (s.tables.count u)).rows
      rw [added keyed', last]
      exact Array.mem_push_self
    case isFalse => exact kept isSpec pushed
  · exact kept isSpec ((rows_addRow_of_ne s row same) ▸ stands)

theorem finds_internSpec (cat : s.Catalogued src) (isSpec : t = .typeSpec ∨ t = .methodSpec)
    {same : Session → t.Row → Bool} (spec : s.Spec t row key)
    (alike : ∀ r ∈ s.tables.rows t, same s r = (r == row)) :
    (internSpec t key same row).Finds s t row where
  found {i} stands := by
    refine runs_bind.2 ⟨s, s, runs_get.2 ⟨rfl, rfl⟩, ?_⟩
    rw [cat.findSpec? isSpec spec alike, cat.findIdx? (isInterned_of_spec isSpec) stands]
    exact runs_pure.2 ⟨rfl, rfl⟩
  added new := by
    refine ⟨_, runs_bind.2 ⟨s, s, runs_get.2 ⟨rfl, rfl⟩, ?_⟩, cat.indexed_add spec⟩
    have missing : (s.tables.rows t).findIdx? (· == row) = none :=
      Array.findIdx?_eq_none_iff.2 fun r member =>
        beq_eq_false_iff_ne.2 (by rintro rfl; exact new member)
    rw [cat.findSpec? isSpec spec alike, missing]
    exact runs_bind.2 ⟨_, _, runs_push.2 ⟨rfl, rfl⟩, runs_bind.2
      ⟨(), _, runs_modify.2 rfl, runs_pure.2 ⟨rfl, rfl⟩⟩⟩

end Session.Catalogued
end Cil
