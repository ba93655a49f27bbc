import Cil.Proofs.Population

/-!
The tables are complete in the end: the manifest, generic parameters, the remaining references and the
attributes follow the definitions, and every number that was given out in advance has its row.
-/

namespace Cil

open List

attribute [local simp] TableRow.Writable TableRow.cells
variable {s : Session} {src : Source}

namespace Gives

open Populate

variable {src : Source} {late : Bool} {N : List (Fact late)}
  {implementation : CodedIndex .implementation}

theorem moduleRow (m : Module) : Gives src N (moduleRow m) fun _ => [.row src .module 1] := by
  refine .assume [.entry ({} : GuidIndex), .atLeast .module 0]
    (fun _ => by simp [Fact.entry, Fact.atLeast])
    (.bind (.string _) fun name => .bind (.guid _) fun mvid =>
      .bind (.push_counted .module 0 ?_ (by simp)) fun row => .pure ?_)
  · simp
  · refine forall_mem_singleton.2 fun s facts => ⟨Nat.le_refl 1, ?_⟩
    have first : 1 ≤ s.tables.count .module := facts (.atLeast .module 1) (by simp)
    exact Nat.le_trans first (Nat.le_max_right ..)

theorem assembly (publicKey : Option Bytes) (a : Assembly) :
    Gives src N (assembly src publicKey a) fun _ => [] := by
  refine .assume [.atLeast .assembly 0] (fun _ => by simp [Fact.atLeast])
    (.bind (.blob? _) fun key => .bind (.string? _) fun culture => .bind (.string _) fun name =>
      .bind (.push_counted .assembly 0 ?_ (by simp)) fun row => ?_)
  · simp
  · refine .infer (.row src .assembly 1) (fun s facts => ⟨Nat.le_refl 1, ?_⟩)
      (.bind (.security _ (by simp)) fun _ => .attach _ (by simp))
    have first : 1 ≤ s.tables.count .assembly := facts (.atLeast .assembly 1) (by simp)
    exact Nat.le_trans first (Nat.le_max_right ..)

theorem resourceRow (r : Resource) (offset : UInt32)
    (known : .index src implementation ∈ N ∨ implementation = .null) :
    Gives src N (resourceRow r (offset, implementation)) fun _ => [] := by
  refine .bind (.string _) fun name => .bind (.push .manifestResource ?_) fun row =>
    .attach _ (by simp)
  rcases known with known | rfl <;> simp [Table.slack, *]

theorem fileRow {id : FileId} {row : Nat} (h : fileRow src.module id = .ok row) :
    src.Defines .file row := by
  rw [Populate.fileRow] at h
  split at h
  case isTrue inside =>
    obtain rfl := Except.ok.inj h
    exact ⟨Nat.le_add_left .., Nat.succ_lt_succ inside⟩
  case isFalse => cases h

theorem resource (r : Resource) : Gives src N (resource src r) fun _ => [] := by
  unfold Populate.resource
  cases r.data <;> simp only [resourcePlace, bind_assoc, pure_bind]
  · exact .bind (.updateGet (Q := fun _ => []) fun s sound _ =>
      ⟨{ sound with }, .of_eq rfl rfl, by simp⟩) fun offset => resourceRow r _ (by simp)
  · exact .bind_ofExcept fun _ row => .define (fun _ => fileRow row) (resourceRow r _ (by simp))
  · exact .bind (.assemblyRef _) fun _ => resourceRow r _ (by simp)

theorem file (f : File) (k : Nat) :
    Gives src (.atLeast .file k :: N) (file f) fun _ => [.atLeast .file (k + 1)] := by
  refine .bind (.blob _) fun hash => .bind (.string _) fun name =>
    .bind (.push_counted .file k ?_ (by simp)) fun row => ?_
  · simp
  · exact (attach _ (by simp)).keep.drop (by simp)

theorem exportedPlace (i : TypeImplementation) :
    Gives src N (exportedPlace src i) fun place => [.index src place.2] := by
  cases i with
  | file => exact .bind_ofExcept fun _ row => .define (fun _ => fileRow row) (.pure_of_mem (by simp))
  | forwarder => exact .bind (.assemblyRef _) fun _ => .pure_of_mem (by simp)
  | nested enclosing =>
    exact .ite (fun inside => .define (t := .exportedType) (n := enclosing.index + 1)
      (fun _ => ⟨Nat.le_add_left .., Nat.succ_lt_succ inside⟩) (.pure_of_mem (by simp))) fun _ => .throw

theorem exportedType (t : ExportedType) (k : Nat) : Gives src (.atLeast .exportedType k :: N)
    (exportedType src t) fun _ => [.atLeast .exportedType (k + 1)] := by
  refine .bind (.exportedPlace _) fun place => .bind (.string? _) fun typeNamespace =>
    .bind (.string _) fun name => .bind (.push_counted .exportedType k ?_ (by simp)) fun row => ?_
  · simp
  · exact (attach _ (by simp)).keep.drop (by simp)

theorem manifest (publicKey : Option Bytes) : Gives src N (manifest src publicKey) fun _ =>
    [.atLeast .file (src.total .file), .atLeast .exportedType (src.total .exportedType)] := by
  refine .bind (.forM fun a _ => .assembly publicKey a) fun _ =>
    .bind (.forM fun r _ => .resource r) fun _ =>
    .bind (.forM_fills_each .file fun f _ k => .file f k) fun _ => ?_
  refine (Gives.forM_fills_each .exportedType fun t _ k => .exportedType t k).keep.drop fun _ => ?_
  simp [Source.total]

theorem references : Gives src N (references src) fun _ => [] :=
  .bind (.forM fun _ _ => .bind (.assemblyRef _) fun _ => .attach _ (by simp)) fun _ =>
    .forM fun _ _ => .bind (.moduleRef _) fun _ => .attach _ (by simp)

theorem genericParam {N : List (Fact false)} {owner : CodedIndex .typeOrMethodDef} (number : UInt16)
    (p : GenericParameter) (known : .index src owner ∈ N) :
    Gives src N (genericParam owner number p) fun _ => [.owner src (.genericParam owner number)] := by
  refine .bind (.string _) fun name => .bind (.insert .genericParam ?_) fun _ => ?_
  · simp [known]
  · refine .infer (.owner src (.genericParam owner number)) (fun s facts => ?_)
      ((attach _ (by simp)).keep.drop (by simp))
    exact ⟨_, facts (.present .genericParam ⟨number, p.flags, owner, name⟩) (by simp), rfl, rfl⟩

end Gives

theorem Owner.Known.ownerRow {late : Bool} {owner : Owner} (known : owner.Known src late s) :
    (Cell.coded (Populate.ownerRow s.tables owner)).Resolves (s.reach src) .none := by
  have found {α : Type} {rows : Array α} {p : α → Bool} {r : α} (h : r ∈ rows) (hr : p r = true) :
      rows.findIdx p + 1 ≤ rows.size := Array.findIdx_lt_size_of_exists ⟨r, h, hr⟩
  cases owner with
  | row parent => exact known
  | interface | genericParam =>
    obtain ⟨r, member, same⟩ := known
    exact ⟨Nat.le_add_left .., Nat.le_trans (found member (by simp [same])) (Nat.le_max_right ..)⟩
  | constraint =>
    obtain ⟨_, r, member, same⟩ := known
    exact ⟨Nat.le_add_left .., Nat.le_trans (found member (by simp [same])) (Nat.le_max_right ..)⟩

namespace Gives

open Populate

variable {src : Source} {N : List (Fact true)}

theorem constraints {owner : CodedIndex .typeOrMethodDef} {number : UInt16} (p : GenericParameter)
    (known : .owner src (.genericParam owner number) ∈ N) :
    Gives src N (constraints src owner number p) fun _ => [] := by
  refine .bind_get (fun s => [.numbered owner number (genericParamRow s.tables owner number),
    .row src .genericParam (genericParamRow s.tables owner number)]) (fun s _ facts => ?_) fun s => ?_
  · refine forall_mem_cons.2 ⟨⟨rfl, rfl⟩, forall_mem_singleton.2 ?_⟩
    have held : (Owner.genericParam owner number).Known src true s := facts _ known
    exact held.ownerRow
  · generalize genericParamRow s.tables owner number = row
    refine .forM fun c _ => .bind (.typeToken _) fun constraint =>
      .bind (.insert .genericParamConstraint ?_) fun _ => ?_
    · simp
    · refine .infer (.owner src (.constraint owner number constraint)) (fun s facts => ?_)
        (attach _ (by simp))
      have final : (Fact.numbered owner number row : Fact true).holds s := facts _ (by simp)
      exact ⟨rfl, _, facts (.present .genericParamConstraint ⟨⟨row⟩, constraint⟩) (by simp),
        final.2.symm, rfl⟩

theorem customAttribute {owner : Owner} (a : Attribute) (known : .owner src owner ∈ N) :
    Gives src N (customAttribute src owner a) fun _ => [] := by
  refine .bind_get (fun s => [.index src (ownerRow s.tables owner)]) (fun s _ facts => ?_) fun s =>
    .bind (.attributeConstructor _) fun kind => .bind_ofExcept fun _ _ => .bind (.blob _) fun value =>
    .bind (.insert .customAttribute ?_) fun _ => .pure (by simp)
  · have held : owner.Known src true s := facts _ known
    exact forall_mem_singleton.2 held.ownerRow
  · simp

theorem customAttributes : Gives src N (customAttributes src) fun _ => [] := by
  refine .bind (.updateGet (Q := fun waiting => waiting.toList.map fun x => .owner src x.1)
    fun s sound _ => ⟨{ sound with attributes := by simp }, .of_eq rfl rfl, ?_⟩) fun waiting => ?_
  · intro f hf
    obtain ⟨⟨owner, a⟩, member, rfl⟩ := mem_map.1 hf
    exact sound.attributes (Array.mem_toList_iff.1 member)
  · exact .forM fun (owner, a) h =>
      .customAttribute a (mem_append_left _ (mem_map.2 ⟨(owner, a), h, rfl⟩))

end Gives

namespace Fact

def filled (src : Source) {late : Bool} : List (Fact late) :=
  [.atLeast .typeDef (src.total .typeDef), .atLeast .field (src.total .field),
    .atLeast .methodDef (src.total .methodDef), .atLeast .param (src.total .param),
    .atLeast .property (src.total .property), .atLeast .event (src.total .event),
    .atLeast .file (src.total .file), .atLeast .exportedType (src.total .exportedType)]

def late (f : Fact false) : Fact true where
  holds := f.holds
  keeps h := f.keeps ⟨h.extent, h.rows, fun early => by cases early⟩

@[simp] theorem late_atLeast (t : Table) (n : Nat) : late (.atLeast t n) = .atLeast t n := rfl

@[simp] theorem late_genericParam (src : Source) (o : CodedIndex .typeOrMethodDef) (number : UInt16) :
    late (.owner src (.genericParam o number)) = .owner src (.genericParam o number) := rfl

end Fact

theorem Session.Sound.late (sound : s.Sound src false) : s.Sound src true :=
  { sound with
    attributes := fun {owner a} h => by
      have known := sound.attributes h
      cases owner with
      | row | interface | genericParam => exact known
      | constraint => cases known.1 }

/-- Like `Gives`, for an action that starts in the early part of a write and ends in the late one. -/
structure Settles {α : Type} (src : Source) (N : List (Fact false)) (c : Emit α)
    (Q : α → List (Fact true)) : Prop where
  run {s : Session} {a : α} {s' : Session} : s.Sound src false → (∀ f ∈ N, f.holds s) →
    c.Runs s a s' → s'.Sound src true ∧ s.Grows false s' ∧ ∀ f ∈ Q a, f.holds s'

namespace Settles

open Emit Populate

variable {α β : Type} {src : Source} {N : List (Fact false)} {c : Emit α} {f : α → Emit β}
  {Q : α → List (Fact true)} {R : β → List (Fact true)}

theorem of_late (h : Gives src (N.map Fact.late) c Q) :
    Settles src N c Q where
  run sound facts run := by
    obtain ⟨sound', grows, facts'⟩ := h.run sound.late (by simpa [Fact.late] using facts) run
    exact ⟨sound', ⟨grows.extent, grows.rows, fun early => by cases early⟩, facts'⟩

theorem bind_early {Q : α → List (Fact false)} (hc : Gives src N c Q)
    (hf : ∀ a, Settles src (Q a ++ N) (f a) R) : Settles src N (c >>= f) R where
  run sound facts run := by
    obtain ⟨a, s₁, first, second⟩ := runs_bind.1 run
    obtain ⟨sound₁, grows₁, facts₁⟩ := hc.keep.run sound facts first
    obtain ⟨sound₂, grows₂, facts₂⟩ := (hf a).run sound₁ facts₁ second
    exact ⟨sound₂, grows₁.trans grows₂, facts₂⟩

theorem bind_late (hc : Settles src N c Q) (hf : ∀ a, Gives src (Q a ++ N.map Fact.late) (f a) R) :
    Settles src N (c >>= f) R where
  run sound facts run := by
    obtain ⟨a, s₁, first, second⟩ := runs_bind.1 run
    obtain ⟨sound₁, grows₁, facts₁⟩ := hc.run sound facts first
    have all : ∀ f ∈ Q a ++ N.map Fact.late, f.holds s₁ := by
      intro f hf
      rcases mem_append.1 hf with new | old
      · exact facts₁ f new
      · obtain ⟨g, member, rfl⟩ := mem_map.1 old
        exact g.keeps grows₁ (facts g member)
    obtain ⟨sound₂, grows₂, facts₂⟩ := (hf a).run sound₁ all second
    exact ⟨sound₂, grows₁.trans ⟨grows₂.extent, grows₂.rows, fun early => by cases early⟩, facts₂⟩

theorem defines_of_mem_genericParameters (numbered : src.Numbered) {d : Definition}
    (hd : d ∈ src.definitions) {owner : CodedIndex .typeOrMethodDef} {number : UInt16}
    {p : GenericParameter} (h : (owner, number, p) ∈ genericParameters d) :
    ∃ t n mem, owner = .row t n mem ∧ src.Defines t n := by
  rcases mem_append.1 h with ofType | ofMethod
  · obtain ⟨_, _, same⟩ := mem_map.1 ofType
    cases same
    exact ⟨_, _, _, rfl, (numbered.definition hd).row⟩
  · obtain ⟨⟨m, row⟩, member, rest⟩ := mem_flatMap.1 ofMethod
    obtain ⟨_, _, same⟩ := mem_map.1 rest
    cases same
    exact ⟨_, _, _, rfl, numbered.method hd member⟩

theorem generics : Settles src N (generics src) fun _ => [] := by
  refine .bind_early (Q := fun _ => (src.definitions.flatMap genericParameters).flatMap
    fun x => [.owner src (.genericParam x.1 x.2.1)])
    (.of_numbered fun numbered => .forM_facts ?_) fun _ => ?_
  · rintro ⟨owner, number, p⟩ h
    obtain ⟨d, hd, member⟩ := mem_flatMap.1 h
    obtain ⟨t, n, mem, rfl, defines⟩ := defines_of_mem_genericParameters numbered hd member
    exact .define (fun _ => defines) (.genericParam number p (by simp))
  · refine .of_late (.forM fun x h => .constraints x.2.2 ?_)
    refine mem_map.2 ⟨.owner src (.genericParam x.1 x.2.1), ?_, rfl⟩
    exact mem_append_left _ (mem_flatMap.2 ⟨_, h, mem_singleton_self _⟩)

theorem all (publicKey : Option Bytes) (first : .row src .module 1 ∈ N) :
    Settles src N (all src publicKey) fun _ => Fact.filled src := by
  refine .bind_early (.attach _ (by simp [first])) fun _ =>
    .bind_early (.forM_fills_each .typeDef fun d hd k => .typeDef hd k) fun _ =>
    .bind_early (.forM_fills .field _ fun d hd k => .fields hd k) fun _ =>
    .bind_early (.forM_fills .methodDef _ fun d hd k => .methods hd k) fun _ =>
    .bind_early (.forM_fills .param _ fun d _ k => .params k) fun _ =>
    .bind_early (.forM fun d hd => .members hd) fun _ =>
    .bind_early (.forM_fills .property _ fun d hd k => .properties hd k) fun _ =>
    .bind_early (.forM_fills .event _ fun d hd k => .events hd k) fun _ =>
    .bind_early (.forM fun d hd => .accessors hd) fun _ =>
    .bind_early (.forM fun d hd => .methodImpls hd) fun _ =>
    .bind_early (.forM fun d hd => .implMaps hd) fun _ =>
    .bind_early (.forM fun d hd => .fieldRvas hd) fun _ =>
    .bind_early (.manifest publicKey) fun _ =>
    .bind_early (.forM fun d hd => .nestedClass hd) fun _ =>
    .bind_late .generics fun _ => .bind .references fun _ =>
    Gives.customAttributes.keep.drop fun _ => ?_
  simp [Fact.filled, Source.total]

end Settles

theorem Source.total_le_count (filled : ∀ f ∈ (Fact.filled src : List (Fact true)), f.holds s)
    (t : Table) : src.total t ≤ s.tables.count t := by
  simp only [Fact.filled, forall_mem_cons, Fact.atLeast] at filled
  cases t <;> simp_all [Source.total]

end Cil
