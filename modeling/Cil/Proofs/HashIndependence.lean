import Cil.Proofs.MemberTables

/-!
The hash of a spec is never seen. Rows of specs may be searched through any hashes, or by going through
the list of rows: a write takes the same course, and so gives the same image or the same error.
-/

namespace Cil

/-- The sessions differ at most in how rows of specs are searched. -/
structure Session.Alike (src : Source) (s s' : Session) : Prop where
  left : s.Catalogued src
  right : s'.Catalogued src
  eq : ∃ x, s' = { s with specs := x }

namespace Session.Alike

variable {src : Source} {s s' : Session}

theorem row? (alike : s.Alike src s') (x : Referent) : x.row? s' = x.row? s := by
  obtain ⟨_, rfl⟩ := alike.eq
  cases x <;> rfl

end Session.Alike

namespace Emit

variable {α β : Type} {src : Source} {s s' : Session}

variable {x : Referent}

/-- Both runs of the action end with the same result or error, in sessions that are alike. -/
def Agrees (src : Source) (c : Emit α) (s s' : Session) : Prop :=
  ∃ r t t', c.run s = (r, t) ∧ c.run s' = (r, t') ∧ t.Alike src t'

/-- The action takes the same course in sessions that are alike. -/
structure Blind (src : Source) (c : Emit α) : Prop where
  run {s s' : Session} : s.Alike src s' → c.Agrees src s s'

theorem Agrees.bind {c : Emit α} {f : α → Emit β} (hc : c.Agrees src s s')
    (hf : ∀ {a t t'}, c.Runs s a t → c.Runs s' a t' → t.Alike src t' → (f a).Agrees src t t') :
    (c >>= f).Agrees src s s' := by
  obtain ⟨r, t, t', run, run', alike⟩ := hc
  cases r with
  | error e =>
    refine ⟨.error e, t, t', ?_, ?_, alike⟩
    · rw [Service.run_bind, run]
    · rw [Service.run_bind, run']
  | ok a =>
    obtain ⟨r, u, u', run₁, run₁', alike₁⟩ := hf run run' alike
    refine ⟨r, u, u', ?_, ?_, alike₁⟩
    · rw [Service.run_bind, run]
      exact run₁
    · rw [Service.run_bind, run']
      exact run₁'

theorem Agrees.of_finds {t : Table} {row : t.Row} {c : Emit Nat} (interned : t.isInterned = true)
    (alike : s.Alike src s') (finds : c.Finds s t row) (finds' : c.Finds s' t row) :
    c.Agrees src s s' := by
  obtain ⟨left, right, x, rfl⟩ := alike
  by_cases member : row ∈ s.tables.rows t
  · obtain ⟨i, stands⟩ := Array.getElem?_of_mem member
    exact ⟨_, _, _, finds.found stands, finds'.found stands, left, right, x, rfl⟩
  · obtain ⟨y, run, indexed⟩ := finds.added member
    obtain ⟨y', run', indexed'⟩ := finds'.added member
    exact ⟨_, _, _, run, run', (left.addInterned interned member indexed).1,
      (right.addInterned interned member indexed').1, y', rfl⟩

theorem Agrees.updateGet {f : Session → α × Session} (alike : s.Alike src s')
    (kept : ∀ {s}, s.Catalogued src → (f s).2.Catalogued src)
    (same : ∀ s x, f { s with specs := x } = ((f s).1, { (f s).2 with specs := x })) :
    Agrees src (modifyGet f : Emit α) s s' := by
  obtain ⟨left, right, x, rfl⟩ := alike
  have changed := kept right
  rw [same] at changed
  exact ⟨.ok (f s).1, _, _, rfl, runs_modifyGet.2 (same s x), kept left, changed, x, rfl⟩

theorem runs_remember {row : x.table.Row} :
    (remember x row).Runs s (s.tables.count x.table + 1)
      (x.note (s.tables.count x.table + 1) (s.addRow x.table row)) :=
  runs_bind.2 ⟨_, _, runs_push.2 ⟨rfl, rfl⟩,
    runs_bind.2 ⟨(), _, runs_modify.2 rfl, runs_pure.2 ⟨rfl, rfl⟩⟩⟩

theorem run_remembered {make : Emit x.table.Row} (fresh : x.row? s = none) :
    (Emit.remembered x make).run s = (make >>= remember x).run s := by
  have got : (get : Emit Session).run s = (.ok s, s) := rfl
  rw [Emit.remembered, Service.run_bind, got]
  simp only [fresh]

namespace Blind

theorem bind {c : Emit α} {f : α → Emit β} (hc : c.Blind src) (hf : ∀ a, (f a).Blind src) :
    (c >>= f).Blind src :=
  ⟨fun alike => (hc.run alike).bind fun _ _ alike₁ => (hf _).run alike₁⟩

theorem ofExcept (r : Except Error α) : (Emit.ofExcept r).Blind src :=
  ⟨fun {s s'} alike => ⟨r, s, s', rfl, rfl, alike⟩⟩

theorem pure (a : α) : Blind src (Pure.pure a : Emit α) :=
  ⟨fun {s s'} alike => ⟨.ok a, s, s', rfl, rfl, alike⟩⟩

theorem string (text : String) : (Emit.string text).Blind src where
  run alike := .updateGet alike (fun cat => (string_runs cat (runs_modifyGet.2 rfl)).1) fun _ _ => rfl

theorem blob (bytes : Bytes) : (Emit.blob bytes).Blind src where
  run {s s'} alike := by
    rw [Emit.blob_eq]
    refine ((Blind.ofExcept _).run alike).bind fun {encoding t t'} first _ alike₁ => ?_
    have encoded := (runs_ofEncoding.1 first).1
    refine .updateGet alike₁ (fun {u} cat => ?_) fun _ _ => rfl
    have run : (Emit.blob bytes).Runs u _ _ := Emit.blob_eq bytes ▸
      runs_bind.2 ⟨encoding, u, runs_ofEncoding.2 ⟨encoded, rfl⟩, runs_modifyGet.2 rfl⟩
    exact (blob_runs cat run).1

theorem userString (text : String) : (Emit.userString text).Blind src where
  run {s s'} alike := by
    rw [Emit.userString_eq]
    refine ((Blind.ofExcept _).run alike).bind fun {encoding t t'} first _ alike₁ => ?_
    have encoded := (runs_ofEncoding.1 first).1
    refine .updateGet alike₁ (fun {u} cat => ?_) fun _ _ => rfl
    have run : (Emit.userString text).Runs u _ _ := Emit.userString_eq text ▸
      runs_bind.2 ⟨encoding, u, runs_ofEncoding.2 ⟨encoded, rfl⟩, runs_modifyGet.2 rfl⟩
    exact ((Lasts.userString text).run cat run).1

theorem intern {t : Table} (interned : t.isInterned = true)
    (other : ¬ (t = .typeSpec ∨ t = .methodSpec)) (row : t.Row) : (Emit.intern t row).Blind src where
  run alike := .of_finds interned alike (alike.left.finds_intern interned other)
    (alike.right.finds_intern interned other)

theorem spec {t : Table} (isSpec : t = .typeSpec ∨ t = .methodSpec) (blob : Bytes)
    {key : BlobIndex → SpecKeys → UInt64} {same : BlobIndex → Session → t.Row → Bool}
    {row : BlobIndex → t.Row}
    (spec : ∀ {u : Session} {i : BlobIndex}, u.BlobAt blob i → u.Spec t (row i) (key i))
    (equal : ∀ {u : Session} {i : BlobIndex}, u.Catalogued src → u.BlobAt blob i →
      ∀ r ∈ u.tables.rows t, same i u r = (r == row i)) :
    Blind src (Emit.blob blob >>= fun i => Emit.internSpec t (key i) (same i) (row i)) where
  run {s s'} alike := by
    refine ((Blind.blob blob).run alike).bind fun {i u u'} first first' alike₁ => ?_
    obtain ⟨cat, _, located, _⟩ := blob_runs alike.left first
    obtain ⟨cat', _, located', _⟩ := blob_runs alike.right first'
    exact .of_finds (Session.isInterned_of_spec isSpec) alike₁
      (cat.finds_internSpec isSpec (spec located) (equal cat located))
      (cat'.finds_internSpec isSpec (spec located') (equal cat' located'))

theorem remembered {make : Emit x.table.Row} (hmake : make.Blind src) (made : x.MadeBy src make) :
    (Emit.remembered x make).Blind src where
  run {s s'} alike := by
    cases known : x.row? s with
    | some n =>
      exact ⟨.ok n, s, s', runs_remembered known, runs_remembered ((alike.row? x).trans known), alike⟩
    | none =>
      have known' : x.row? s' = none := (alike.row? x).trans known
      have agrees : Agrees src (make >>= Emit.remember x) s s' := by
        refine (hmake.run alike).bind fun {row t t'} ran ran' alike₁ => ?_
        have fresh := made.fresh alike.left known ran
        have describes := made.describes alike.left ran
        have fresh' := made.fresh alike.right known' ran'
        have describes' := made.describes alike.right ran'
        have kept := (alike₁.left.remember fresh describes).1
        have kept' := (alike₁.right.remember fresh' describes').1
        obtain ⟨y, rfl⟩ := alike₁.eq
        refine ⟨_, _, _, runs_remember, runs_remember, kept, kept', y, ?_⟩
        cases x <;> rfl
      rwa [Agrees, ← run_remembered known, ← run_remembered known'] at agrees

end Blind

theorem Asks.blind {c : Emit α} (h : c.Asks src) : c.Blind src := by
  induction h with
  | pure a => exact .pure a
  | ofExcept _ => exact .ofExcept _
  | bind _ _ ihc ihf => exact ihc.bind ihf
  | string text => exact .string text
  | blob bytes => exact .blob bytes
  | userString text => exact .userString text
  | remembered x _ made ih => exact ih.remembered made
  | memberRefRow row => exact .intern (t := .memberRef) rfl (by decide) row
  | standAloneSigRow row => exact .intern (t := .standAloneSig) rfl (by decide) row
  | typeSpecRow blob =>
    exact .spec (.inl rfl) blob .type fun cat located => cat.alike_typeSpec located
  | methodSpecRow method blob =>
    exact .spec (.inr rfl) blob .method fun cat located => cat.alike_methodSpec located

end Emit

namespace Compile

variable {α : Type} {src : Source}

theorem exec_emit (c : Emit α) (σ : State) :
    (emit c).exec σ = ((c.run σ.session).1, ⟨σ.draft, (c.run σ.session).2⟩) :=
  rfl

theorem Composed.agrees {ctx : BodyContext} {marks : List Mark} {c : Compile α}
    (h : c.Composed ctx marks) {d : Draft} {s s' : Session} (alike : s.Alike ctx.source s') :
    ∃ r d' t t', c.exec ⟨d, s⟩ = (r, ⟨d', t⟩) ∧ c.exec ⟨d, s'⟩ = (r, ⟨d', t'⟩) ∧
      t.Alike ctx.source t' := by
  induction h generalizing d s s' with
  | pure a => exact ⟨.ok a, d, s, s', rfl, rfl, alike⟩
  | bind _ _ ihc ihf =>
    obtain ⟨r, d₁, t, t', run, run', alike₁⟩ := ihc alike
    rw [exec_bind, exec_bind, run, run']
    cases r with
    | ok a => exact ihf a alike₁
    | error e => exact ⟨.error e, d₁, t, t', rfl, rfl, alike₁⟩
  | get => exact ⟨.ok d, d, s, s', rfl, rfl, alike⟩
  | modify f => exact ⟨.ok (), f d, s, s', rfl, rfl, alike⟩
  | modifyGet f => exact ⟨.ok (f d).1, (f d).2, s, s', rfl, rfl, alike⟩
  | emit asks =>
    obtain ⟨r, t, t', run, run', alike₁⟩ := asks.blind.run alike
    refine ⟨r, d, t, t', ?_, ?_, alike₁⟩
    · rw [exec_emit, run]
    · rw [exec_emit, run']
  | fault _ cause => exact ⟨.error _, d, s, s', rfl, rfl, alike⟩
  | passed => exact ⟨.ok (), d, s, s', rfl, rfl, alike⟩
  | value _ ih | fork _ ih => exact ih alike

theorem blind_layOut (ctx : BodyContext) (b : Body) : (layOut ctx b).Blind ctx.source := by
  refine .bind ⟨fun {s s'} alike => ?_⟩ fun x => (Emit.Blind.ofExcept _).bind fun _ =>
    (Emit.Blind.ofExcept _).bind fun _ => .pure _
  obtain ⟨r, d, t, t', run, run', alike₁⟩ := (composed_body ctx b).agrees (d := {}) alike
  exact ⟨.ok (r, d), t, t', runs_lift.2 run, runs_lift.2 run', alike₁⟩

end Compile

theorem Emit.Writes.blind {α : Type} {src : Source} {A : Part → Prop} {c : Emit α}
    (h : c.Writes src A) : c.Blind src := by
  induction h with
  | pure a => exact .pure a
  | ofExcept r => exact .ofExcept r
  | bind _ _ ihc ihf => exact ihc.bind ihf
  | string text => exact .string text
  | blob bytes => exact .blob bytes
  | asks _ h => exact h.blind
  | push _ other row | insert _ other row =>
    exact ⟨fun alike => .updateGet alike (·.aloof (Session.aloof_modify other _)) fun _ _ => rfl⟩
  | read sees _ ih =>
    refine ⟨fun {s s'} alike => ?_⟩
    have tables : s'.tables = s.tables := by
      obtain ⟨x, rfl⟩ := alike.eq
      rfl
    obtain ⟨r, t, t', run, run', alike₁⟩ := (ih s).run alike
    refine ⟨r, t, t', run, ?_, alike₁⟩
    rw [← sees s s' tables] at run'
    exact run'
  | aside _ =>
    exact ⟨fun alike => .updateGet alike (·.aloof (Session.aloof_withAside ..)) fun _ _ => rfl⟩
  | layOut _ source b =>
    subst source
    exact Compile.blind_layOut _ b

namespace Module

theorem writes_emit (src : Source) (publicKey : Option Bytes) (keepsSymbols : Bool) :
    (emit src publicKey keepsSymbols).Writes src fun _ => True := by
  have permits : Permits (fun _ => True) fun _ => True := .of_references fun _ => trivial
  have all : (Populate.all src publicKey).Writes src fun _ => True := by
    rw [Populate.all_eq_passes]
    exact (Populate.writes_passes src (Populate.pass_of_mem src publicKey)).mono fun _ _ => trivial
  exact (Emit.Writes.moduleRow src trivial src.module).bind fun _ =>
    (Emit.Writes.bodies permits keepsSymbols).bind fun _ => all.bind fun _ => .pure _

theorem image_search (m : Module) (options : Options) (search search' : SpecSearch) :
    m.image options search = m.image options search' := by
  unfold image
  refine bind_congr fun publicKey => bind_congr fun numbering => ?_
  obtain ⟨r, s, s', run, run', _, _, x, rfl⟩ :=
    (writes_emit ⟨m, numbering⟩ publicKey options.debugSymbols).blind.run
      ⟨Session.catalogued_ofModule ⟨m, numbering⟩ search,
        Session.catalogued_ofModule ⟨m, numbering⟩ search', _, rfl⟩
  have run : (emit ⟨m, numbering⟩ publicKey options.debugSymbols).run (.ofModule m search) = (r, s) :=
    run
  have run' : (emit ⟨m, numbering⟩ publicKey options.debugSymbols).run (.ofModule m search') =
    (r, { s with specs := x }) := run'
  simp only [run, run', Session.blobs, Session.userStrings]

/-- The hash that rows of specs are searched by has no influence: any other hash gives the same result,
and so does looking for the first row in the list of all rows that has the same blob, and for a method
the same method. -/
theorem assemble_hash_irrelevant {σ : Type} (m : Module) (options : Options)
    (writer : Option (SymbolWriter σ)) :
    (∀ keys : SpecKeys, m.assemble options writer (.keyed keys) = m.assemble options writer) ∧
      m.assemble options writer .listed = m.assemble options writer := by
  have same (search : SpecSearch) : m.assemble options writer search = m.assemble options writer := by
    rw [assemble, assemble, image_search m options search]
  exact ⟨fun keys => same (.keyed keys), same .listed⟩

end Module
end Cil
