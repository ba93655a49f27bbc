import Cil.Proofs.Dictionaries
import Cil.Proofs.HashIndependence
import Cil.Proofs.StoredColumns

/-!
Names of methods and of their types, found from a token. The type that declares a method is the last one
whose methods start at or before it: types without methods may start there too, but stand before it, or
start behind.
-/

namespace Cil

open List
open Cil.Numbering (starts mem_starts)

variable {n : Nat} {tables : Tables} {t : Table} {row : t.Row} {r : Nat}

/-- Where runs follow each other, the last one that starts at or before a number in a run is that run. -/
theorem find?_owner {δ α : Type} {first size : δ → Nat} {start : α → Nat} {ds : List δ}
    {owners : List α} (each : List.Forall₂ (fun d a => start a = first d) ds owners)
    (placed : ds.map first = starts n (ds.map size)) (positive : 0 < n) :
    List.Forall₂ (fun d a => ∀ r, first d ≤ r → r < first d + size d →
      owners.reverse.find? (fun a => start a != 0 && start a ≤ r) = some a) ds owners := by
  induction each generalizing n with
  | nil => exact .nil
  | @cons d a ds owners here rest ih =>
    obtain ⟨head, tail⟩ := List.cons.inj placed
    refine .cons (fun r low high => ?_) ((ih tail (by omega)).imp fun d' a' found r low high => ?_)
    · -- all later runs start behind this one, so the search passes over their owners
      have none : owners.reverse.find? (fun a => start a != 0 && start a ≤ r) = none := by
        refine find?_eq_none.2 fun b member => ?_
        have begins : start b ∈ starts (n + size d) (ds.map size) := by
          rw [← tail, ← map_eq_of_forall₂ rest fun _ _ same => same]
          exact mem_map_of_mem (mem_reverse.1 member)
        have := (mem_starts begins).1
        simp
        omega
      rw [reverse_cons, find?_append, none]
      simp [here, head]
      omega
    · rw [reverse_cons, find?_append, found r low high]
      rfl

theorem Token.encode_of_decode {token : Token} {value : Nat} (h : decode value = .ok token) :
    token.encode = .ok value := by
  have low : value % 0x1000000 < 0x1000000 := Nat.mod_lt _ (by decide)
  have whole : value / 0x1000000 * 0x1000000 + value % 0x1000000 = value := Nat.div_add_mod' ..
  rw [decode] at h
  split at h
  case isTrue text =>
    cases h
    refine (if_pos low).trans (congrArg Except.ok ?_)
    show userStringTag * 0x1000000 + value % 0x1000000 = value
    rw [← text, whole]
  case isFalse =>
    split at h
    case h_1 t found =>
      cases h
      have number : t.number = value / 0x1000000 := by simpa using List.find?_some found
      refine (if_pos low).trans (congrArg Except.ok ?_)
      show t.number * 0x1000000 + value % 0x1000000 = value
      rw [number, whole]
    case h_2 => cases h

/-- The texts that are asked for. -/
def TypeInfo.names (t : TypeInfo) : List String :=
  t.name :: (t.typeNamespace.toList ++ t.methods.toList.map (·.name))

variable {image : Image} {token : Nat}

namespace Image

theorem tokenRow?_eq_some {t : Table} {r : Nat} :
    tokenRow? t token = some r ↔ (Token.row t (r + 1)).encode = .ok token := by
  constructor
  · intro h
    rw [tokenRow?] at h
    split at h
    case h_1 u index decoded =>
      split at h
      · subst u
        cases h
        exact Token.encode_of_decode decoded
      · cases h
    case h_2 => cases h
  · intro h
    rw [tokenRow?, Token.decode_encode h]
    exact if_pos rfl

/-- The name at an index is read as it was written; an absent one is read as the empty text. -/
theorem string?_of_names {i : StringIndex} {name : Option String}
    (reserved : image.strings.Has StringHeap.encode 0 "") (whole : ∀ text ∈ name, '\x00' ∉ text.toList)
    (names : image.strings.Names i name) : image.string? i = some (name.getD "") := by
  cases name with
  | some text => rw [string?, StringHeap.read_of_has (whole text rfl) names]; rfl
  | none => rw [string?, show i.offset = 0 from names, StringHeap.read_of_has (by simp) reserved]; rfl

theorem typeName?_of_described {src : Source} {t : TypeInfo} {row : Row.TypeDef} {r : Nat}
    (reserved : image.strings.Has StringHeap.encode 0 "") (known : tokenRow? .typeDef token = some r)
    (found : image.tables.typeDef[r]? = some row) (described : t.DescribedBy src image.strings row)
    (whole : ∀ text ∈ t.names, '\x00' ∉ text.toList) :
    image.typeName? token = some t.fullName := by
  have named : image.string? row.name = some ((some t.name).getD "") :=
    string?_of_names reserved (by simpa using whole _ mem_cons_self) described.name
  have qualified := string?_of_names reserved
    (fun _ ns => whole _ (mem_cons_of_mem _ (mem_append_left _ (Option.mem_toList.2 ns))))
    described.typeNamespace
  rw [typeName?, known]
  simp only [Option.bind_eq_bind, Option.bind_some, found, named, qualified, TypeInfo.fullName,
    Option.getD_some]
  cases t.typeNamespace with
  | none => rfl
  | some ns => rfl

end Image

/-- The method is one of a type that the module defines. -/
structure Module.DeclaresMethod (m : Module) (id : MethodId) (t : TypeInfo) (method : Method) :
    Prop where
  type : m.type? id.parent = some t
  defined : t.isDefined = true
  method : t.methods[id.index]? = some method

namespace Session.Lists

variable {src : Source} {s : Session} (lists : s.Lists src) {ts : List TypeInfo}
  (placed : src.definitions = ({} : Numbering.Counters).place ts)

include lists placed

/-- The search for the type of a method ends at the one that lists it. -/
theorem owners : List.Forall₂ (fun d l => l.Describes src s.strings s.blobs d ∧
      ∀ r, d.rows.firstMethod ≤ r → r < d.rows.firstMethod + d.info.methods.size →
        (s.tables.numbered .typeDef).reverse.find? (fun y => y.1.methodList.number != 0 &&
          y.1.methodList.number ≤ r) = some l.row) src.definitions s.tables.listing := by
  have starts : List.Forall₂ (fun d l => l.row.1.methodList.number = d.rows.firstMethod)
      src.definitions s.tables.listing := by
    have types := lists.numbered_typeDef placed
    rw [← s.tables.rows_listing, forall₂_map_right_iff] at types
    exact types.imp fun _ _ h => h.2.2
  have follow : src.definitions.map (·.rows.firstMethod) =
      Numbering.starts 1 (src.definitions.map (·.info.methods.size)) := by
    rw [placed]
    exact Numbering.Counters.map_place (·.method) (·.firstMethod)
  refine Forall₂.mp (fun d l describes found => ⟨describes, ?_⟩) (lists.describes_listing placed)
    (find?_owner starts follow Nat.one_pos)
  intro r low high
  rw [← s.tables.rows_listing, ← map_reverse, find?_map]
  exact congrArg (Option.map _) (found r low high)

end Session.Lists

theorem Tables.mem_numbered :
    (row, r) ∈ tables.numbered t ↔ 1 ≤ r ∧ (tables.rows t)[r - 1]? = some row := by
  rw [Tables.numbered, mk_mem_zipIdx_iff_le_and_getElem?_sub, Array.getElem?_toList]

theorem Tables.le_count (h : (row, r) ∈ tables.numbered t) : r ≤ tables.count t := by
  obtain ⟨low, found⟩ := mem_numbered.1 h
  have := (Array.getElem?_eq_some_iff.1 found).1
  exact Nat.le_of_pred_lt this

namespace Image

theorem methodParent?_of_found {r parent : Nat} {owner : Row.TypeDef × Nat}
    (known : tokenRow? .methodDef token = some r) (inside : r < image.tables.methodDef.size)
    (found : (image.tables.numbered .typeDef).reverse.find? (fun y => y.1.methodList.number != 0 &&
      y.1.methodList.number ≤ r + 1) = some owner)
    (encoded : (Token.row .typeDef owner.2).encode = .ok parent) :
    image.methodParent? token = some parent := by
  have search : (image.tables.typeDef.toList.zipIdx 1).reverse.find? (fun y =>
      y.1.methodList.number != 0 && y.1.methodList.number ≤ r + 1) = some owner := found
  rw [methodParent?, known]
  simp only [Option.bind_eq_bind, Option.bind_some, guard, if_pos inside, search, encoded]
  rfl

/-- Nothing is answered for a token that is not of a row. -/
theorem none_of_absent (absent : ∀ r, tokenRow? .methodDef token = some r →
    image.tables.methodDef.size ≤ r) :
    image.methodParent? token = none ∧ image.methodName? token = none := by
  rw [methodParent?, methodName?]
  cases known : tokenRow? .methodDef token with
  | none => exact ⟨rfl, rfl⟩
  | some r =>
    have outside := absent r known
    simp [Nat.not_lt.2 outside, guard]

end Image

/-- What the image tells of a method by its token: the token of its type, and the names of both. -/
structure Image.Answers (image : Image) (token parent : Nat) (t : TypeInfo) (method : Method) :
    Prop where
  owner : image.methodParent? token = some parent
  name : image.methodName? token = some method.name
  type : image.typeName? parent = some t.fullName

/-- The image tells what each method of the module is, and nothing of other tokens. -/
structure Image.Identifies (image : Image) (m : Module) (n : Numbering) : Prop where
  declared {id : MethodId} {t : TypeInfo} {method : Method} : m.DeclaresMethod id t method →
    ∃ row owner token parent, n.methodRow id = .ok row ∧ n.typeRow id.parent = .ok owner ∧
      (Token.row .methodDef row).encode = .ok token ∧
      (Token.row .typeDef owner).encode = .ok parent ∧ image.Answers token parent t method
  other {token : Nat} : (∀ id t method row, m.DeclaresMethod id t method → n.methodRow id = .ok row →
      (Token.row .methodDef row).encode ≠ .ok token) →
    image.methodParent? token = none ∧ image.methodName? token = none

theorem Listing.Describes.answers {src : Source} {blobs : BlobHeap} {d : Definition} {l : Listing}
    (describes : l.Describes src image.strings blobs d)
    (found : ∀ r, d.rows.firstMethod ≤ r → r < d.rows.firstMethod + d.info.methods.size →
      (image.tables.numbered .typeDef).reverse.find? (fun y => y.1.methodList.number != 0 &&
        y.1.methodList.number ≤ r) = some l.row)
    (listed : image.tables.Listed) (member : l ∈ image.tables.listing)
    (reserved : image.strings.Has StringHeap.encode 0 "")
    (few : ∀ t : Table, image.tables.count t < 0x1000000)
    (whole : ∀ text ∈ d.info.names, '\x00' ∉ text.toList) {i : Nat}
    {method : Method} (declared : d.info.methods[i]? = some method) :
    ∃ token parent, (Token.row .methodDef (d.rows.firstMethod + i)).encode = .ok token ∧
      (Token.row .typeDef d.rows.row).encode = .ok parent ∧
      image.Answers token parent d.info method := by
  have inside := (Array.getElem?_eq_some_iff.1 declared).1
  obtain ⟨y, hy, number, described, _⟩ := exists_of_forall₂ describes.methods.flip
    (b := (method, i)) (mk_mem_zipIdx_iff_getElem?.2 (by simpa using declared))
  have row : (y.1.1, y.2) ∈ image.tables.numbered .methodDef := by
    rw [← listed.methods]
    exact mem_map_of_mem (mem_flatMap_of_mem member hy)
  have type : l.row ∈ image.tables.numbered .typeDef := listed.types ▸ mem_map_of_mem member
  have low := Nat.lt_of_le_of_lt (Tables.le_count row) (few _)
  have typeLow := Nat.lt_of_le_of_lt (Tables.le_count type) (few _)
  obtain ⟨positive, row⟩ := Tables.mem_numbered.1 row
  obtain ⟨typePositive, type⟩ := Tables.mem_numbered.1 type
  obtain ⟨token, encoded⟩ : ∃ token, (Token.row .methodDef y.2).encode = .ok token := ⟨_, if_pos low⟩
  obtain ⟨parent, typeEncoded⟩ : ∃ parent, (Token.row .typeDef l.row.2).encode = .ok parent :=
    ⟨_, if_pos typeLow⟩
  have known : Image.tokenRow? .methodDef token = some (y.2 - 1) := by
    rwa [Image.tokenRow?_eq_some, Nat.sub_add_cancel positive]
  have typeKnown : Image.tokenRow? .typeDef parent = some (l.row.2 - 1) := by
    rwa [Image.tokenRow?_eq_some, Nat.sub_add_cancel typePositive]
  refine ⟨token, parent, number ▸ encoded, describes.row ▸ typeEncoded, ?_, ?_, ?_⟩
  · refine Image.methodParent?_of_found known (Array.getElem?_eq_some_iff.1 row).1
      (found _ ?_ ?_) typeEncoded
    · omega
    · dsimp only at number
      omega
  · have name : image.string? y.1.1.name = some ((some method.name).getD "") :=
      Image.string?_of_names reserved (by simpa using whole _ (mem_cons_of_mem _ (mem_append_right _
        (mem_map_of_mem (Array.mem_def.1 (Array.mem_of_getElem? declared)))))) described.name
    have row : image.tables.methodDef[y.2 - 1]? = some y.1.1 := row
    rw [Image.methodName?, known]
    simp only [Option.bind_eq_bind, Option.bind_some, row, name, Option.getD_some]
  · exact Image.typeName?_of_described reserved typeKnown type describes.type whole

theorem Numbering.Placed.methodRow_eq {m : Module} {n : Numbering} {ts : List TypeInfo}
    (placed : n.Placed m ts) {id : TypeId} {d : Definition} (hd : d ∈ Source.definitions ⟨m, n⟩)
    (rows : n.rows? id = some d.rows) {i : Nat} (inside : i < d.info.methods.size) :
    n.methodRow ⟨id, i⟩ = .ok (d.rows.firstMethod + i) := by
  rw [← (Counters.counts_place d (placed.definitions ▸ hd)).2] at inside
  simp [methodRow, methodRow?, rows, inside]

namespace Session.Lists

variable {m : Module} {n : Numbering} {s : Session} {ts : List TypeInfo}

/-- Every row of a method is that of one that the module declares. -/
theorem declares (lists : s.Lists ⟨m, n⟩) (placed : n.Placed m ts)
    (inside : r < s.tables.methodDef.size) :
    ∃ id t method, m.DeclaresMethod id t method ∧ n.methodRow id = .ok (r + 1) := by
  have row : (s.tables.methodDef[r], r + 1) ∈ s.tables.numbered .methodDef :=
    Tables.mem_numbered.2 ⟨Nat.le_add_left .., Array.getElem?_eq_getElem inside⟩
  rw [← (lists.listed placed.definitions).methods] at row
  obtain ⟨y, hy, same⟩ := mem_map.1 row
  obtain ⟨l, hl, hy⟩ := mem_flatMap.1 hy
  obtain ⟨id, hid, d, hd, ⟨info, rows⟩, describes, _⟩ :=
    exists_of_forall₂ (forall₂_comp placed.assigned (lists.owners placed.definitions)) hl
  obtain ⟨x, hx, number, _⟩ := exists_of_forall₂ describes.methods hy
  have declared : d.info.methods[x.2]? = some x.1 := by
    simpa using mk_mem_zipIdx_iff_getElem?.1 hx
  obtain ⟨t, type, defined⟩ := placed.order.mem_iff.1 hid
  obtain rfl := Option.some.inj (type.symm.trans info)
  refine ⟨⟨id, x.2⟩, _, x.1, ⟨info, defined, declared⟩, ?_⟩
  rw [placed.methodRow_eq hd rows (Array.getElem?_eq_some_iff.1 declared).1, ← number,
    (Prod.mk.inj same).2]

end Session.Lists

namespace Module

variable {σ : Type} {m : Module} {options : Options} {writer : Option (SymbolWriter σ)}
  {state state' : σ}

/-- Every method is found by its token, with its name and that of its type, and no other token is
answered: where types without methods start at the same row, the search still ends at the right one. -/
theorem method_names_found (h : (m.assemble options writer).run state = (.ok image, state'))
    (whole : ∀ t ∈ m.types, t.isDefined = true → ∀ text ∈ t.names, '\x00' ∉ text.toList)
    (few : ∀ t : Table, image.tables.count t < 0x1000000) :
    ∃ n, Numbering.ofModule m = .ok n ∧ image.Identifies m n := by
  obtain ⟨symbols, made⟩ := image_of_assemble h
  obtain ⟨n, key, area, s, entryPoint, numbering, ran, _, rfl⟩ := image_eq_ok made
  obtain ⟨ts, placed⟩ := Numbering.placed_of_ofModule numbering
  have lists := Session.lists_of_emit ⟨m, n⟩ key ran
  have faithful := ((writes_emit ⟨m, n⟩ key _).confined.run (Session.faithful_ofModule m) ran).1
  have reserved : s.strings.Has StringHeap.encode 0 "" :=
    ⟨[0], rfl, by simpa using faithful.strings.reserved⟩
  refine ⟨n, numbering, fun {id t method} declared => ?_, fun {token} other => ?_⟩
  · obtain ⟨l, hl, d, hd, ⟨info, rows⟩, describes, found⟩ := exists_of_forall₂
      (forall₂_comp placed.assigned (lists.owners placed.definitions)).flip
      (placed.order.mem_iff.2 ⟨t, declared.type, declared.defined⟩)
    obtain rfl := Option.some.inj (declared.type.symm.trans info)
    obtain ⟨token, parent, answers⟩ := describes.answers found (lists.listed placed.definitions) hl
      reserved few (whole _ (Array.mem_of_getElem? declared.type) declared.defined) declared.method
    refine ⟨_, _, token, parent, placed.methodRow_eq hd rows
      (Array.getElem?_eq_some_iff.1 declared.method).1, ?_, answers⟩
    rw [Numbering.typeRow, show n.rows? id.parent = some d.rows from rows]
  · -- a token that is answered has a row, and every row is of a declared method
    refine Image.none_of_absent fun r known => Nat.not_lt.1 fun inside => ?_
    obtain ⟨id, t, method, declared, row⟩ := lists.declares placed inside
    exact other id t method _ declared row (Image.tokenRow?_eq_some.1 known)

/-- The type of the methods starts where one without methods does, and others start behind them. -/
theorem evaluates_gallery_names : (gallery.image {}).toOption.map (fun made =>
    ((Table.all.all (made.1.tables.count · < 0x1000000),
        made.1.tables.typeDef.toList.map (·.methodList.number)),
      [0x06000001, 0x06000002, 0x06000003, 0x02000002].map made.1.methodParent?,
      made.1.methodName? 0x06000002, made.1.typeName? 0x02000002)) =
      some ((true, [1, 1, 3, 3]), [some 0x02000002, some 0x02000002, none, none], some "Scale",
        some "Shape") := by
  decide +kernel

theorem method_names_found_gallery :
    ∃ image, (gallery.assemble {} none : Service Unit Image).run () = (.ok image, ()) ∧
      (∀ t ∈ gallery.types, t.isDefined = true → ∀ text ∈ t.names, '\x00' ∉ text.toList) ∧
      (∀ t : Table, image.tables.count t < 0x1000000) ∧
      image.tables.typeDef.toList.map (·.methodList.number) = [1, 1, 3, 3] ∧
      [0x06000001, 0x06000002, 0x06000003, 0x02000002].map image.methodParent? =
        [some 0x02000002, some 0x02000002, none, none] ∧
      image.methodName? 0x06000002 = some "Scale" ∧ image.typeName? 0x02000002 = some "Shape" ∧
      ∃ n, Numbering.ofModule gallery = .ok n ∧ image.Identifies gallery n := by
  obtain ⟨⟨image, symbols⟩, made, answers⟩ := Option.map_eq_some_iff.1 evaluates_gallery_names
  simp only [Prod.mk.injEq, List.all_eq_true, decide_eq_true_eq] at answers
  obtain ⟨⟨few, starts⟩, parents, name, type⟩ := answers
  have assembled := assemble_of_toOption made
  have whole : ∀ t ∈ gallery.types, t.isDefined = true → ∀ text ∈ t.names, '\x00' ∉ text.toList := by
    decide +kernel
  have few (t : Table) := few t (Table.mem_all t)
  exact ⟨image, assembled, whole, few, starts, parents, name, type,
    method_names_found assembled whole few⟩

end Module

end Cil
