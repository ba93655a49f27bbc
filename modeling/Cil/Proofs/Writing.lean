import Cil.Proofs.Facts

/-!
What the basic actions of a write give: entries of heaps, rows of tables, and loops over them.
-/

namespace Cil

open List

variable {src : Source} {late : Bool} {s s' : Session}

theorem Session.Sound.grow (sound : s.Sound src late) (grows : s.Grows late s')
    (rows : ∀ {t : Table} {row : t.Row}, row ∈ s'.tables.rows t →
      row ∈ s.tables.rows t ∨ TableRow.Resolves (s'.reach src) t row)
    (strings : s'.strings.Kept StringHeap.encode) (blobs : s'.blobs.Kept BlobHeap.encode)
    (userStrings : s'.userStrings.Kept UserStringHeap.encode)
    (assemblyRefs : s'.assemblyRefs = s.assemblyRefs) (moduleRefs : s'.moduleRefs = s.moduleRefs)
    (typeRefs : s'.typeRefs = s.typeRefs) (primitiveRefs : s'.primitiveRefs = s.primitiveRefs)
    (attributes : s'.attributes = s.attributes) : s'.Sound src late where
  numbered := sound.numbered
  rows hrow := (rows hrow).elim (fun old => (sound.rows old).mono (grows.reach src)) id
  strings := strings
  blobs := blobs
  userStrings := userStrings
  assemblyRefs h := (sound.assemblyRefs (assemblyRefs ▸ h)).mono (grows.reach src)
  moduleRefs h := (sound.moduleRefs (moduleRefs ▸ h)).mono (grows.reach src)
  typeRefs h := (sound.typeRefs (typeRefs ▸ h)).mono (grows.reach src)
  primitiveRefs h := (sound.primitiveRefs (primitiveRefs ▸ h)).mono (grows.reach src)
  attributes h := (sound.attributes (attributes ▸ h)).mono grows

namespace Session

theorem Grows.of_tables (tables : s'.tables = s.tables)
    (entry : ∀ {kind : HeapKind} {offset : Nat}, s.extent.entry kind offset →
      s'.extent.entry kind offset)
    (text : ∀ {offset : Nat}, s.extent.text offset → s'.extent.text offset) : s.Grows late s' where
  extent := ⟨fun t => by simp [Session.extent, tables], entry, text⟩
  rows h := tables ▸ h
  genericParam _ := by rw [tables]

theorem Grows.of_eq (tables : s'.tables = s.tables) (extent : s'.extent = s.extent) :
    s.Grows late s' :=
  .of_tables tables (extent ▸ id) (extent ▸ id)

variable {t : Table} {row : t.Row}

theorem Grows.of_row (f : Array t.Row → Array t.Row)
    (size : (f (s.tables.rows t)).size = (s.tables.rows t).size + 1)
    (mem : ∀ x, x ∈ f (s.tables.rows t) ↔ x = row ∨ x ∈ s.tables.rows t)
    (early : t = .genericParam → late = false) :
    s.Grows late { s with tables := s.tables.modify t f } where
  extent := {
    rows u := by
      simp only [Session.extent, Tables.count]
      by_cases same : u = t
      · subst same
        rw [Tables.rows_modify_self, size]
        exact Nat.le_succ _
      · exact Nat.le_of_eq (by rw [Tables.rows_modify_of_ne _ _ same])
    entry := id
    text := id }
  rows {u x} hx := by
    by_cases same : u = t
    · subst same
      simp only [Tables.rows_modify_self, mem, hx, or_true]
    · simpa only [Tables.rows_modify_of_ne _ _ same] using hx
  genericParam isLate := by
    have other : Table.genericParam ≠ t := fun same => by simp [early same.symm] at isLate
    exact Tables.rows_modify_of_ne s.tables f other

theorem Sound.addRow (sound : s.Sound src late) (f : Array t.Row → Array t.Row)
    (size : (f (s.tables.rows t)).size = (s.tables.rows t).size + 1)
    (mem : ∀ x, x ∈ f (s.tables.rows t) ↔ x = row ∨ x ∈ s.tables.rows t)
    (early : t = .genericParam → late = false) (resolves : TableRow.Resolves (s.reach src) t row) :
    Sound src late { s with tables := s.tables.modify t f } ∧
      s.Grows late { s with tables := s.tables.modify t f } := by
  have grows : s.Grows late { s with tables := s.tables.modify t f } := .of_row f size mem early
  refine ⟨sound.grow grows (fun {u x} hx => ?_) sound.strings sound.blobs sound.userStrings
    rfl rfl rfl rfl rfl, grows⟩
  by_cases same : u = t
  · subst same
    simp only [Tables.rows_modify_self, mem] at hx
    rcases hx with rfl | old
    · exact .inr (resolves.mono (grows.reach src))
    · exact .inl old
  · exact .inl (by simpa only [Tables.rows_modify_of_ne _ _ same] using hx)

theorem lt_of_findSpec? {key : SpecKeys → UInt64} {same : t.Row → Bool} {i : Nat}
    (found : s.findSpec? t key same row = some i) : i < (s.tables.rows t).size := by
  rw [findSpec?] at found
  split at found
  case h_1 => exact (Array.findIdx?_eq_some_iff_getElem.1 found).1
  case h_2 keys _ =>
    obtain ⟨⟨table, k, j⟩, first, rfl⟩ := Option.map_eq_some_iff.1 found
    have kept := Array.find?_some first
    simp only [Bool.and_eq_true, beq_iff_eq] at kept
    exact (Array.getElem?_eq_some_iff.1 kept.2).1

end Session

namespace Gives

open Emit

variable {α : Type} {N : List (Fact late)}

variable {f : α → Emit Unit} {l : List α}

theorem string (text : String) : Gives src N (Emit.string text) fun i => [.entry i] := by
  refine .updateGet fun s sound _ => ?_
  obtain ⟨adds, held⟩ := StringHeap.adds_write sound.strings text
  have grows : s.Grows late { s with strings := (StringHeap.write s.strings text).2 } := by
    refine .of_tables rfl (fun {kind _} h => ?_) id
    cases kind with
    | strings => exact adds.keeps h
    | guids | blobs => exact h
  exact ⟨sound.grow grows .inl adds.kept sound.blobs sound.userStrings rfl rfl rfl rfl rfl, grows,
    forall_mem_singleton.2 held⟩

theorem string? (text : Option String) : Gives src N (Emit.string? text) fun i => [.entry i] := by
  cases text with
  | none => exact .pure (by simp [Fact.Follows, Fact.entry])
  | some text => exact .string text

theorem blob (bytes : Bytes) : Gives src N (Emit.blob bytes) fun i => [.entry i] := by
  rw [Emit.blob_eq]
  refine .bind_ofEncoding fun encoding encoded => .updateGet fun s sound _ => ?_
  obtain ⟨adds, held⟩ := BlobHeap.adds_add sound.blobs encoded
  rw [← Session.blobs_withBlob encoded] at adds held
  have grows : s.Grows late (s.withBlob bytes) := by
    refine .of_tables rfl (fun {kind _} h => ?_) id
    cases kind with
    | blobs => exact adds.keeps h
    | guids | strings => exact h
  exact ⟨sound.grow grows .inl sound.strings adds.kept sound.userStrings rfl rfl rfl rfl rfl, grows,
    forall_mem_singleton.2 held⟩

theorem blob? (bytes : Option Bytes) : Gives src N (Emit.blob? bytes) fun i => [.entry i] := by
  cases bytes with
  | none => exact .pure (by simp [Fact.Follows, Fact.entry])
  | some bytes => exact .blob bytes

theorem guid (g : Guid) : Gives src N (Emit.guid g) fun i => [.entry i] := by
  refine .updateGet fun s sound _ => ?_
  have grows : s.Grows late { s with guids := (s.guids.write g).2 } := by
    refine .of_tables rfl (fun {kind _} h => ?_) id
    cases kind with
    | guids => exact GuidHeap.isSome_read?_write g h
    | blobs | strings => exact h
  exact ⟨sound.grow grows .inl sound.strings sound.blobs sound.userStrings rfl rfl rfl rfl rfl, grows,
    forall_mem_singleton.2 (.inr (GuidHeap.isSome_read?_write_self s.guids g))⟩

theorem userString (text : String) :
    Gives src N (Emit.userString text) fun offset => [.token src .string (.userString offset)] := by
  rw [Emit.userString_eq]
  refine .bind_ofEncoding fun encoding encoded => .updateGet fun s sound _ => ?_
  obtain ⟨adds, held⟩ := sound.userStrings.intern encoded
  rw [← Session.userStrings_withLiteral encoded] at adds held
  have grows : s.Grows late (s.withLiteral text) :=
    .of_tables rfl id adds.keeps
  exact ⟨sound.grow grows .inl sound.strings sound.blobs adds.kept rfl rfl rfl rfl rfl, grows,
    forall_mem_singleton.2 ⟨rfl, held⟩⟩

theorem push_counted (t : Table) {row : t.Row} (k : Nat) (writable : TableRow.Writable src N t row)
    (counted : .atLeast t k ∈ N) :
    Gives src N (Emit.push t row) fun n => [.row src t n, .atLeast t (k + 1)] := by
  refine .updateGet fun s sound facts => ?_
  have size : ((s.tables.rows t).push row).size = (s.tables.rows t).size + 1 := by simp
  obtain ⟨sound', grows⟩ := sound.addRow (·.push row) size (by simp [or_comm])
    writable.1 fun x hx => (writable.2 x hx).resolves facts
  have count : (s.tables.push t row).count t = s.tables.count t + 1 := by
    rw [Tables.count, Tables.push, Tables.rows_modify_self, size]
    rfl
  have least : k ≤ s.tables.count t := facts _ counted
  refine ⟨sound', grows, forall_mem_cons.2 ⟨⟨?_, Nat.le_max_right ..⟩,
    forall_mem_singleton.2 ?_⟩⟩
  · exact Nat.le_trans (Nat.le_add_left ..) (Nat.le_of_eq count.symm)
  · exact Nat.le_trans (Nat.succ_le_succ least) (Nat.le_of_eq count.symm)

theorem push (t : Table) {row : t.Row} (writable : TableRow.Writable src N t row) :
    Gives src N (Emit.push t row) fun n => [.row src t n] :=
  .assume [.atLeast t 0] (fun _ => by simp [Fact.atLeast])
    ((push_counted t 0 (writable.mono (subset_append_right ..)) (by simp)).drop (by simp))

theorem intern (t : Table) {row : t.Row} (writable : TableRow.Writable src N t row) :
    Gives src N (Emit.intern t row) fun n => [.row src t n] := by
  refine .bind_get_row t (fun s => ((s.tables.rows t).findIdx? (· == row)).map (· + 1))
    (fun {s n} _ numbered => ?_) fun s => ?_
  · obtain ⟨i, found, rfl⟩ := Option.map_eq_some_iff.1 numbered
    have inside := (Array.findIdx?_eq_some_iff_getElem.1 found).1
    exact ⟨Nat.le_add_left .., Nat.le_trans inside (Nat.le_max_right ..)⟩
  · split
    case h_1 i found => exact .pure_of_mem (by simp [found])
    case h_2 => exact .push t (writable.mono (subset_append_right ..))

theorem internSpec (t : Table) (key : SpecKeys → UInt64) (same : Session → t.Row → Bool)
    {row : t.Row} (writable : TableRow.Writable src N t row) :
    Gives src N (Emit.internSpec t key same row) fun n => [.row src t n] := by
  refine .bind_get_row t (fun s => (s.findSpec? t key (same s) row).map (· + 1))
    (fun {s n} _ numbered => ?_) fun s => ?_
  · obtain ⟨i, found, rfl⟩ := Option.map_eq_some_iff.1 numbered
    have inside := Session.lt_of_findSpec? found
    exact ⟨Nat.le_add_left .., Nat.le_trans inside (Nat.le_max_right ..)⟩
  · split
    case h_1 i found => exact .pure_of_mem (by simp [found])
    case h_2 =>
      exact .bind (.push t (writable.mono (subset_append_right ..))) fun n =>
        .bind (.update (Q := []) fun s sound _ => ⟨{ sound with }, .of_eq rfl rfl, by simp⟩)
        fun _ => .pure_of_mem (by simp)

theorem insert (t : Table) [SortedRow t.Row] {row : t.Row}
    (writable : TableRow.Writable src N t row) :
    Gives src N (Emit.insert t row) fun _ => [.present t row] := by
  refine .updateGet fun s sound facts => ?_
  obtain ⟨sound', grows⟩ := sound.addRow (SortedRow.insert · row) (SortedRow.size_insert _ row)
    (fun x => SortedRow.mem_insert) writable.1 fun x hx => (writable.2 x hx).resolves facts
  refine ⟨sound', grows, forall_mem_singleton.2 ?_⟩
  simp [Fact.present, Tables.rows_modify_self, SortedRow.mem_insert]

theorem attach {owner : Owner} (attributes : List Attribute) (known : .owner src owner ∈ N) :
    Gives src N (Populate.attach owner attributes) fun _ => [] := by
  refine .update fun s sound facts => ?_
  have all : attributes.foldl (fun as a => as.push (owner, a)) s.attributes =
      s.attributes ++ (attributes.map fun a => (owner, a)).toArray := by
    generalize s.attributes = as
    induction attributes generalizing as with
    | nil => simp
    | cons a attributes ih => simp [ih]
  have grows : s.Grows late { s with
      attributes := attributes.foldl (fun as a => as.push (owner, a)) s.attributes } :=
    .of_eq rfl rfl
  refine ⟨{ sound with attributes := fun {o a} h => ?_ }, grows, by simp⟩
  simp only [all, Array.mem_append, mem_toArray, mem_map] at h
  rcases h with old | ⟨_, _, same⟩
  · exact (sound.attributes old).mono grows
  · obtain ⟨rfl, rfl⟩ := Prod.mk.inj same
    exact (Fact.owner src owner).keeps grows (facts _ known)

theorem forM_facts {Q : α → List (Fact late)} (h : ∀ a ∈ l, Gives src N (f a) fun _ => Q a) :
    Gives src N (l.forM f) fun _ => l.flatMap Q := by
  induction l with
  | nil => exact .pure (by simp)
  | cons a l ih =>
    have rest := ih fun b hb => h b (mem_cons_of_mem a hb)
    exact (h a mem_cons_self).bind fun _ =>
      (rest.supply (by simp +contextual)).keep.drop (by simp +contextual [or_imp])

theorem forM (h : ∀ a ∈ l, Gives src N (f a) fun _ => []) : Gives src N (l.forM f) fun _ => [] :=
  (forM_facts h).drop (by simp)

theorem forM_counted (t : Table) (weight : α → Nat) (k : Nat)
    (h : ∀ a ∈ l, ∀ k, Gives src (.atLeast t k :: N) (f a) fun _ => [.atLeast t (k + weight a)]) :
    Gives src (.atLeast t k :: N) (l.forM f) fun _ => [.atLeast t (k + (l.map weight).sum)] := by
  induction l generalizing k with
  | nil => exact .pure_of_mem (by simp)
  | cons a l ih =>
    refine (h a mem_cons_self k).bind fun _ => ?_
    have rest := ih (k + weight a) fun b hb => h b (mem_cons_of_mem a hb)
    rw [map_cons, sum_cons, ← Nat.add_assoc]
    exact rest.supply (by simp +contextual [or_imp])

theorem forM_each (t : Table) (k : Nat)
    (h : ∀ a ∈ l, ∀ k, Gives src (.atLeast t k :: N) (f a) fun _ => [.atLeast t (k + 1)]) :
    Gives src (.atLeast t k :: N) (l.forM f) fun _ => [.atLeast t (k + l.length)] := by
  have counted := forM_counted t (fun _ => 1) k h
  rwa [map_const', sum_replicate_nat, Nat.mul_one] at counted

theorem forM_fills (t : Table) (weight : α → Nat)
    (h : ∀ a ∈ l, ∀ k, Gives src (.atLeast t k :: N) (f a) fun _ => [.atLeast t (k + weight a)]) :
    Gives src N (l.forM f) fun _ => [.atLeast t ((l.map weight).sum)] := by
  have counted := forM_counted t weight 0 h
  rw [Nat.zero_add] at counted
  exact .assume [.atLeast t 0] (fun _ => by simp [Fact.atLeast]) counted

theorem forM_fills_each (t : Table)
    (h : ∀ a ∈ l, ∀ k, Gives src (.atLeast t k :: N) (f a) fun _ => [.atLeast t (k + 1)]) :
    Gives src N (l.forM f) fun _ => [.atLeast t l.length] := by
  have filled := forM_fills t (fun _ => 1) h
  rwa [map_const', sum_replicate_nat, Nat.mul_one] at filled

end Gives
end Cil
