import Cil.Proofs.AttributeOwners
import Cil.Proofs.LoadedImages

/-!
Initial values of fields in images. Each has one row, which stands beside the place of its data; the data
stands there, aligned, and apart from the data of all other fields.
-/

namespace Cil

/-- The image keeps the initial values of some fields, which are given by their rows, at some places. -/
structure Image.KeepsValues (image : Image) (fields : List (Nat × InitialValue))
    (places : List (DataSection × Nat)) : Prop where
  beside : image.fieldData.size = image.tables.fieldRva.size
  rows : (image.tables.fieldRva.toList.zip image.fieldData.toList).Perm
    ((fields.zip places).map fun x => ({ rva := 0, field := ⟨x.1.1⟩ }, x.2))
  holds : List.Forall₂ (fun x at_ => image.staticData.Holds at_ x.2) fields places
  apart : ((fields.map (·.2)).zip places).Pairwise StaticData.Before

/-- The fields with initial values, each with its number among all fields. -/
def Source.initialValues (src : Source) : List (Nat × InitialValue) :=
  ((src.definitions.flatMap (·.info.fields.toList)).zipIdx 1).flatMap fun x =>
    x.1.initialValue.toList.map (x.2, ·)

theorem Source.initialValues_eq {m : Module} {n : Numbering} (h : Numbering.ofModule m = .ok n) :
    (Source.definitions ⟨m, n⟩).flatMap (·.initialValues) = Source.initialValues ⟨m, n⟩ := by
  obtain ⟨_, ts, placed, _⟩ := Source.definitions_eq_place h
  have starts : (Source.definitions ⟨m, n⟩).map (·.rows.firstField) =
      Numbering.starts 1 ((Source.definitions ⟨m, n⟩).map (·.info.fields.toList.length)) := by
    rw [placed]
    exact Numbering.Counters.map_place (·.field) (·.firstField)
  rw [Source.initialValues, ← flatMap_zipIdx starts, List.flatMap_assoc]
  rfl

theorem Session.Stores.zip {s : Session} {fields : List (Nat × InitialValue)}
    {new : List (Row.FieldRva × DataSection × Nat)} (h : List.Forall₂ s.Stores fields new) :
    (fields.zip (new.map (·.2))).map (fun x => ({ rva := 0, field := ⟨x.1.1⟩ }, x.2)) = new := by
  induction h with
  | nil => rfl
  | @cons x y _ _ stores _ ih =>
    obtain ⟨row, place⟩ := y
    obtain rfl : row = _ := stores.row
    simp [ih]

/-- Each field with an initial value has one row, beside which stands where its data is; there the data
is found, and no other field's. -/
theorem Module.static_values_kept {σ : Type} {m : Module} {options : Options}
    {writer : Option (SymbolWriter σ)} {image : Image} {state state' : σ}
    (h : (m.assemble options writer).run state = (.ok image, state')) :
    ∃ n places, Numbering.ofModule m = .ok n ∧
      image.KeepsValues (Source.initialValues ⟨m, n⟩) places := by
  obtain ⟨symbols, made⟩ := image_of_assemble h
  obtain ⟨n, key, area, s, entryPoint, numbering, ran, _, rfl⟩ := image_eq_ok made
  obtain ⟨aligned, new, stores, arranged, apart⟩ := Session.initialValues_of_emit ran
  rw [Source.initialValues_eq numbering] at stores apart
  refine ⟨n, new.map (·.2), numbering, aligned, ?_, ?_, apart⟩
  · rw [Session.Stores.zip stores]
    exact arranged.perm
  · rw [List.forall₂_map_right_iff]
    exact stores.imp fun _ _ stored => stored.data

open Cil.Module in
/-- The nested type comes behind the one around it; its data goes behind that of the first field. -/
theorem Module.static_values_kept_kiosk : ∃ (image : Image) (places : List (DataSection × Nat)),
    (kiosk.assemble kioskOptions none : Service Unit Image).run () = (.ok image, ()) ∧
      image.KeepsValues
        [(1, ⟨[5, 6, 7, 8], .sdata⟩), (2, ⟨[0x41], .text⟩), (4, ⟨[1, 2, 3], .sdata⟩)] places := by
  obtain ⟨image, _, _, assembled, _⟩ := writes_kiosk
  obtain ⟨n, places, numbered, keeps⟩ := static_values_kept assembled
  have ordered : (Numbering.ofModule kiosk).toOption.map (fun n => Source.initialValues ⟨kiosk, n⟩) =
      some [(1, ⟨[5, 6, 7, 8], .sdata⟩), (2, ⟨[0x41], .text⟩), (4, ⟨[1, 2, 3], .sdata⟩)] := by
    decide +kernel
  rw [numbered] at ordered
  exact ⟨image, places, assembled, Option.some.inj ordered ▸ keeps⟩

end Cil
