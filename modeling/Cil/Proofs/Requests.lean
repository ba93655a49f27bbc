import Cil.Proofs.InternedRows

/-!
Requests for references. All that asks for rows of references is made of a few kinds of actions, which
are listed here once. A request that has been answered is answered in the same way in every later
session, and then changes nothing.
-/

namespace Cil
/-- The action makes the row of what is referred to, and does not make it behind its own back. -/
structure Referent.MadeBy (src : Source) (x : Referent) (make : Emit x.table.Row) : Prop where
  fresh {s s' : Session} {row : x.table.Row} : s.Catalogued src → x.row? s = none →
    make.Runs s row s' → x.row? s' = none
  describes {s s' : Session} {row : x.table.Row} : s.Catalogued src → make.Runs s row s' →
    x.Describes src s' (s'.tables.count x.table) row

/-- The actions that ask for references. -/
inductive Emit.Asks (src : Source) : {α : Type} → Emit α → Prop
  | pure {α : Type} (a : α) : Asks src (Pure.pure a : Emit α)
  | ofExcept {α : Type} {r : Except Error α} (fails : Except.Fails (·.isOutOfRange = false) r) :
      Asks src (Emit.ofExcept r)
  | bind {α β : Type} {c : Emit α} {f : α → Emit β} (hc : Asks src c) (hf : ∀ a, Asks src (f a)) :
      Asks src (c >>= f)
  | string (text : String) : Asks src (Emit.string text)
  | blob (bytes : Bytes) : Asks src (Emit.blob bytes)
  | userString (text : String) : Asks src (Emit.userString text)
  | remembered (x : Referent) {make : Emit x.table.Row} (hmake : Asks src make)
      (made : x.MadeBy src make) : Asks src (Emit.remembered x make)
  | memberRefRow (row : Row.MemberRef) : Asks src (Emit.intern .memberRef row)
  | standAloneSigRow (row : Row.StandAloneSig) : Asks src (Emit.intern .standAloneSig row)
  | typeSpecRow (blob : Bytes) : Asks src (typeSpecRow blob)
  | methodSpecRow (method : MethodDefOrRef) (blob : Bytes) : Asks src (methodSpecRow method blob)

/-- The action keeps the catalogue in order; once it has run, it gives the same result in every later
session, and leaves that as it is. -/
structure Emit.Lasts {α : Type} (src : Source) (c : Emit α) : Prop where
  run {s : Session} {a : α} {s' : Session} : s.Catalogued src → c.Runs s a s' →
    s'.Catalogued src ∧ s.Before s' ∧
      ∀ {t : Session}, t.Catalogued src → s'.Before t → c.Runs t a t

namespace Emit

variable {α β : Type} {src : Source} {s s' : Session}

variable {x : Referent} {n : Nat} {make : Emit x.table.Row} {text : String} {i : StringIndex}
  {bytes : Bytes}

theorem runs_string (located : s.TextAt text i) : (Emit.string text).Runs s i s := by
  have written : StringHeap.write s.strings text = (i.offset, s.strings) :=
    Heap.Locates.put_eq located _
  rw [Emit.string, runs_modifyGet, written]

theorem runs_blob {encoding : Bytes} {i : BlobIndex}
    (encoded : BlobHeap.encode bytes = .ok encoding) (located : s.BlobAt bytes i) :
    (Emit.blob bytes).Runs s i s := by
  have written : BlobHeap.add s.blobs bytes encoding = (i.offset, s.blobs) :=
    Heap.Locates.put_eq located _
  have kept : s.withBlob bytes = s := by
    rw [Session.withBlob, BlobWriter.write_of_locates located]
  rw [Emit.blob_eq]
  refine runs_bind.2 ⟨encoding, s, runs_ofEncoding.2 ⟨encoded, rfl⟩, ?_⟩
  rw [runs_modifyGet, written, kept]

theorem string_runs (cat : s.Catalogued src) (run : (Emit.string text).Runs s i s') :
    s'.Catalogued src ∧ s.Before s' ∧ s'.TextAt text i ∧ s.Same s' := by
  rw [Emit.string, runs_modifyGet, Prod.mk.injEq] at run
  obtain ⟨rfl, rfl⟩ := run
  have wrote := StringHeap.wrote_write cat.faithful.strings text
  have same : s.Same { s with strings := (StringHeap.write s.strings text).2 } :=
    ⟨fun _ => rfl, rfl, rfl, rfl, rfl, rfl⟩
  have before := same.before Heap.before_put (.refl _) (.refl _)
  refine ⟨cat.carry same before ⟨wrote.faithful, cat.faithful.blobs⟩ ?_ cat.blobs, before,
    Heap.locates_put, same⟩
  exact cat.strings.put fun _ => List.append_ne_nil_of_right_ne_nil _ (List.cons_ne_nil _ _)

theorem blob_runs {i : BlobIndex} (cat : s.Catalogued src) (run : (Emit.blob bytes).Runs s i s') :
    s'.Catalogued src ∧ s.Before s' ∧ s'.BlobAt bytes i ∧ s.Same s' ∧
      ∃ encoding, BlobHeap.encode bytes = .ok encoding := by
  rw [Emit.blob_eq] at run
  obtain ⟨encoding, _, first, second⟩ := runs_bind.1 run
  obtain ⟨encoded, rfl⟩ := runs_ofEncoding.1 first
  rw [runs_modifyGet, Prod.mk.injEq] at second
  obtain ⟨rfl, rfl⟩ := second
  have wrote := BlobHeap.wrote_add cat.faithful.blobs encoded
  have same : s.Same (s.withBlob bytes) := ⟨fun _ => rfl, rfl, rfl, rfl, rfl, rfl⟩
  have written : (s.withBlob bytes).blobs = (s.blobs.put List.isEmpty bytes encoding).2 :=
    Session.blobs_withBlob encoded
  have before := same.before (.refl _) (written ▸ Heap.before_put) (.refl _)
  refine ⟨cat.carry same before ⟨cat.faithful.strings, written ▸ wrote.faithful⟩ cat.strings ?_, before,
    ?_, same, encoding, encoded⟩
  case refine_2 =>
    rw [Session.BlobAt, written]
    exact Heap.locates_put
  rw [written]
  refine cat.blobs.put fun full => ?_
  obtain ⟨length, _, rfl⟩ := BlobHeap.encode_eq_ok encoded
  exact List.append_ne_nil_of_right_ne_nil _ (by simpa using full)

namespace Lasts

theorem pure (a : α) : Lasts src (Pure.pure a : Emit α) where
  run {s b s'} cat run := by
    obtain ⟨rfl, rfl⟩ := runs_pure.1 run
    exact ⟨cat, .refl _, fun _ _ => runs_pure.2 ⟨rfl, rfl⟩⟩

theorem ofExcept (r : Except Error α) : Lasts src (Emit.ofExcept r) where
  run {s b s'} cat run := by
    obtain ⟨made, rfl⟩ := runs_ofExcept.1 run
    exact ⟨cat, .refl _, fun _ _ => runs_ofExcept.2 ⟨made, rfl⟩⟩

theorem bind {c : Emit α} {f : α → Emit β} (hc : c.Lasts src) (hf : ∀ a, (f a).Lasts src) :
    (c >>= f).Lasts src where
  run {s b s'} cat run := by
    obtain ⟨a, s₁, first, second⟩ := runs_bind.1 run
    obtain ⟨cat₁, before₁, again₁⟩ := hc.run cat first
    obtain ⟨cat₂, before₂, again₂⟩ := (hf a).run cat₁ second
    exact ⟨cat₂, before₁.trans before₂, fun cat' before' =>
      runs_bind.2 ⟨a, _, again₁ cat' (before₂.trans before'), again₂ cat' before'⟩⟩

theorem string (text : String) : (Emit.string text).Lasts src where
  run {s i s'} cat run := by
    obtain ⟨cat', before, located, _⟩ := string_runs cat run
    exact ⟨cat', before, fun _ later => runs_string (located.mono later)⟩

theorem blob (bytes : Bytes) : (Emit.blob bytes).Lasts src where
  run {s i s'} cat run := by
    obtain ⟨cat', before, located, _, encoding, encoded⟩ := blob_runs cat run
    exact ⟨cat', before, fun _ later => runs_blob encoded (located.mono later)⟩

theorem userString (text : String) : (Emit.userString text).Lasts src where
  run {s n s'} cat run := by
    rw [Emit.userString_eq] at run ⊢
    obtain ⟨encoding, _, first, second⟩ := runs_bind.1 run
    obtain ⟨encoded, rfl⟩ := runs_ofEncoding.1 first
    rw [runs_modifyGet, Prod.mk.injEq] at second
    obtain ⟨rfl, rfl⟩ := second
    have same : s.Same (s.withLiteral text) := ⟨fun _ => rfl, rfl, rfl, rfl, rfl, rfl⟩
    have written : (s.withLiteral text).userStrings =
        (s.userStrings.put (fun _ => false) text encoding).2 := Session.userStrings_withLiteral encoded
    have before := same.before (.refl _) (.refl _) (written ▸ Heap.before_put)
    refine ⟨cat.carry same before ⟨cat.faithful.strings, cat.faithful.blobs⟩ cat.strings cat.blobs,
      before, fun {t} _ later => ?_⟩
    have located : t.userStrings.Locates (fun _ => false) text
        (s.userStrings.put (fun _ => false) text encoding).1 :=
      Heap.Locates.mono later.userStrings (written ▸ Heap.locates_put)
    have again : t.userStrings.intern text encoding = _ := located.put_eq encoding
    have kept : t.withLiteral text = t := by
      rw [Session.withLiteral, UserStringWriter.write, HeapWriter.write_of_offset? located]
    refine runs_bind.2 ⟨encoding, t, runs_ofEncoding.2 ⟨encoded, rfl⟩, ?_⟩
    rw [runs_modifyGet, again, kept]
    rfl

end Lasts

/-- What is left by an action that gives the row of a table that says what is wanted. -/
theorem Finds.runs {t : Table} {row : t.Row} {c : Emit Nat} (interned : t.isInterned = true)
    (cat : s.Catalogued src)
    (finds : ∀ {u : Session}, u.Catalogued src → s.Before u → c.Finds u t row)
    (run : c.Runs s n s') :
    s'.Catalogued src ∧ s.Before s' ∧ (∃ i, n = i + 1 ∧ (s'.tables.rows t)[i]? = some row) ∧
      ∀ {u : Session}, u.Catalogued src → s'.Before u → c.Runs u n u := by
  have reference := Session.isReference_of_isInterned interned
  by_cases member : row ∈ s.tables.rows t
  · obtain ⟨i, stands⟩ := Array.getElem?_of_mem member
    obtain ⟨rfl, rfl⟩ := ((finds cat (.refl s)).found stands).iff.1 run
    exact ⟨cat, .refl _, ⟨i, rfl, stands⟩, fun cat' later =>
      (finds cat' later).found (later.getElem? reference stands)⟩
  · obtain ⟨x, ran, indexed⟩ := (finds cat (.refl s)).added member
    obtain ⟨rfl, rfl⟩ := ran.iff.1 run
    obtain ⟨cat₁, before⟩ := cat.addInterned interned member indexed
    have stands : ((s.addRow t row).tables.rows t)[s.tables.count t]? = some row := by
      rw [Session.rows_addRow_self, Tables.count, Array.getElem?_push_size]
    exact ⟨cat₁, before, ⟨_, rfl, stands⟩, fun cat' later =>
      (finds cat' (before.trans later)).found (later.getElem? reference stands)⟩

theorem runs_remembered (known : x.row? s = some n) : (Emit.remembered x make).Runs s n s := by
  refine runs_bind.2 ⟨s, s, runs_get.2 ⟨rfl, rfl⟩, ?_⟩
  simp only [known]
  exact runs_pure.2 ⟨rfl, rfl⟩

theorem remembered_cases (run : (Emit.remembered x make).Runs s n s') :
    (x.row? s = some n ∧ s' = s) ∨
      ∃ row s₁, x.row? s = none ∧ make.Runs s row s₁ ∧ n = s₁.tables.count x.table + 1 ∧
        s' = x.note n (s₁.addRow x.table row) := by
  obtain ⟨_, _, got, rest⟩ := runs_bind.1 run
  obtain ⟨rfl, rfl⟩ := runs_get.1 got
  split at rest
  case h_1 m known =>
    obtain ⟨rfl, rfl⟩ := runs_pure.1 rest
    exact .inl ⟨known, rfl⟩
  case h_2 fresh =>
    obtain ⟨row, s₁, making, pushing⟩ := runs_bind.1 rest
    obtain ⟨m, s₂, pushed, noting⟩ := runs_bind.1 pushing
    obtain ⟨rfl, rfl⟩ := runs_push.1 pushed
    obtain ⟨_, _, noted, returned⟩ := runs_bind.1 noting
    cases runs_modify.1 noted
    obtain ⟨rfl, rfl⟩ := runs_pure.1 returned
    exact .inr ⟨row, s₁, fresh, making, rfl, rfl⟩

theorem remembered_runs (hmake : make.Lasts src) (made : x.MadeBy src make)
    (cat : s.Catalogued src) (run : (Emit.remembered x make).Runs s n s') :
    s'.Catalogued src ∧ s.Before s' ∧ x.row? s' = some n := by
  rcases remembered_cases run with ⟨known, rfl⟩ | ⟨row, s₁, fresh, making, rfl, rfl⟩
  · exact ⟨cat, .refl _, known⟩
  · obtain ⟨cat₁, before₁, _⟩ := hmake.run cat making
    have describes := made.describes cat making
    obtain ⟨cat₂, before₂⟩ := cat₁.remember (made.fresh cat fresh making) describes
    have fits : x.Fits (s₁.addRow x.table row) :=
      (cat₁.addRow (Session.isInterned_table x) row).fits (Session.known_of_describes describes)
    exact ⟨cat₂, before₁.trans before₂, Referent.row?_note_self fits⟩

namespace Lasts

theorem intern {t : Table} (interned : t.isInterned = true)
    (other : ¬ (t = .typeSpec ∨ t = .methodSpec)) (row : t.Row) : (Emit.intern t row).Lasts src where
  run {s n s'} cat run := by
    obtain ⟨cat', before, _, again⟩ :=
      Finds.runs interned cat (fun cat' _ => cat'.finds_intern interned other) run
    exact ⟨cat', before, again⟩

theorem spec {t : Table} (isSpec : t = .typeSpec ∨ t = .methodSpec) (blob : Bytes)
    {key : BlobIndex → SpecKeys → UInt64} {same : BlobIndex → Session → t.Row → Bool}
    {row : BlobIndex → t.Row}
    (spec : ∀ {u : Session} {i : BlobIndex}, u.BlobAt blob i → u.Spec t (row i) (key i))
    (alike : ∀ {u : Session} {i : BlobIndex}, u.Catalogued src → u.BlobAt blob i →
      ∀ r ∈ u.tables.rows t, same i u r = (r == row i)) :
    Lasts src (Emit.blob blob >>= fun i => Emit.internSpec t (key i) (same i) (row i)) where
  run {s n s'} cat run := by
    obtain ⟨i, s₁, first, second⟩ := runs_bind.1 run
    obtain ⟨cat₁, before₁, located, _, encoding, encoded⟩ := blob_runs cat first
    obtain ⟨cat₂, before₂, _, again⟩ := Finds.runs (Session.isInterned_of_spec isSpec) cat₁
      (fun {u} cat' later => cat'.finds_internSpec isSpec (spec (located.mono later))
        (alike cat' (located.mono later))) second
    exact ⟨cat₂, before₁.trans before₂, fun cat' later => runs_bind.2
      ⟨i, _, runs_blob encoded (located.mono (before₂.trans later)), again cat' later⟩⟩

theorem remembered (hmake : make.Lasts src) (made : x.MadeBy src make) :
    (Emit.remembered x make).Lasts src where
  run {s n s'} cat run := by
    obtain ⟨cat', before, known⟩ := remembered_runs hmake made cat run
    exact ⟨cat', before, fun _ later => runs_remembered (later.referents known)⟩

end Lasts

theorem Asks.lasts {c : Emit α} (h : c.Asks src) : c.Lasts src := by
  induction h with
  | pure a => exact .pure a
  | ofExcept _ => exact .ofExcept _
  | bind _ _ ihc ihf => exact ihc.bind ihf
  | string text => exact .string text
  | blob bytes => exact .blob bytes
  | userString text => exact .userString text
  | remembered x _ made ih => exact ih.remembered made
  | memberRefRow row => exact .intern (t := .memberRef) rfl (by decide) row
  | standAloneSigRow row => exact .intern (t := .standAloneSig) rfl (by decide) row
  | typeSpecRow blob =>
    exact .spec (.inl rfl) blob .type fun cat located => cat.alike_typeSpec located
  | methodSpecRow method blob =>
    exact .spec (.inr rfl) blob .method fun cat located => cat.alike_methodSpec located

end Emit
end Cil
