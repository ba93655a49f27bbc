import Cil.Proofs.InitialValues

/-!
Embedded resources. The data of a resource is appended behind its length, and the row of the resource
keeps the offset; what is appended later leaves it where it is.
-/

namespace Cil

namespace Resources

/-- A resource stands at an offset, which is a multiple of eight, behind its length. -/
structure Holds (r : Resources) (offset : Nat) (data : Bytes) : Prop where
  aligned : offset % 8 = 0
  data : Bytes.le 4 data.length ++ data <+: r.bytes.toList.drop offset

theorem holds_append (r : Resources) (data : Bytes) : (r.append data).2.Holds (r.append data).1 data :=
  ⟨StaticData.alignEight_aligned _, by simp [append]⟩

theorem Holds.mono {r r' : Resources} {offset : Nat} {data : Bytes} (h : r.Holds offset data)
    (under : r.bytes.toList <+: r'.bytes.toList) : r'.Holds offset data := by
  obtain ⟨more, same⟩ := under
  refine ⟨h.aligned, h.data.trans ?_⟩
  rw [← same, List.drop_append]
  exact List.prefix_append ..

end Resources

/-- The row of a resource tells where its data stands, if it is embedded. -/
def Resource.StoredBy (resources : Resources) (r : Resource) (row : Row.ManifestResource) : Prop :=
  ∀ data, r.data = .embedded data →
    row.implementation = .null ∧ ∃ offset, row.offset = .ofNat offset ∧ resources.Holds offset data

namespace Emit.Fills

open Populate

variable (src : Source)

/-- Once a resource is stored, its place tells where. -/
theorem bind_place {r : Resource} {γ α : Type} {log : Log α} {R : Session → List α → Prop}
    {f : UInt32 × CodedIndex .implementation → Emit γ}
    (refs : Permits (· ≠ log.part) fun _ => True)
    (hf : ∀ place, Fills log (f place) fun later new =>
      (∀ data, r.data = .embedded data → place.2 = .null ∧
        ∃ offset, place.1 = .ofNat offset ∧ later.resources.Holds offset data) → R later new) :
    Fills log (resourcePlace src r.data >>= f) R where
  run {s b s'} faithful run := by
    obtain ⟨place, s₁, first, second⟩ := runs_bind.1 run
    obtain ⟨faithful₁, extends₁⟩ :=
      ((Writes.resourcePlace refs _).confined : Spares log _).run faithful first
    obtain ⟨faithful₂, under, new, added, rest⟩ := (hf place).run faithful₁ second
    refine ⟨faithful₂, extends₁.toUnder.trans under, new, by rw [added, log.spared extends₁],
      fun later h => rest later h fun data embedded => ?_⟩
    rw [embedded] at first
    obtain ⟨offset, s₂, stored, rfl, rfl⟩ : ∃ offset s₂, _ ∧ _ ∧ _ := by
      simpa only [resourcePlace, runs_bind, runs_pure] using first
    refine ⟨rfl, offset, rfl, Resources.Holds.mono ?_ (under.trans h).resources⟩
    have holds := s.resources.holds_append data
    cases runs_modifyGet.1 stored
    exact holds

theorem resource (r : Resource) : Fills (.rows .manifestResource) (resource src r) fun later new =>
    ∃ row, new = [row] ∧ r.StoredBy later.resources row :=
  bind_place src (.besides .manifestResource rfl) fun _ => bind_string fun _ =>
    bind_right (push fun _ _ stored => ⟨_, rfl, stored⟩) fun _ => .attach (by simp) ..

theorem manifestResources (key : Option Bytes) :
    Fills (.rows .manifestResource) (manifest src key) fun later new =>
      List.Forall₂ (Resource.StoredBy later.resources) src.module.resources new := by
  have refs : Permits (· ≠ (Log.rows .manifestResource).part) fun _ => True :=
    .besides .manifestResource rfl
  have assembly (a : Assembly) : (Populate.assembly src key a).Spares (.rows .manifestResource) :=
    (Writes.assembly (by simp) (by simp) (by simp) key a).confined
  refine bind (.forM assembly) fun _ _ => bind_right (forM_each (resource src)) fun _ => ?_
  exact ((Writes.forM fun f => .file src (by simp) (by simp) f).bind fun _ =>
    .forM fun t => .exportedType refs (by simp) (by simp) t).confined

end Emit.Fills

theorem Session.resources_of_emit {src : Source} {key : Option Bytes} {keepsSymbols : Bool}
    {area : CodeArea} {s : Session}
    (h : (Module.emit src key keepsSymbols).Runs (.ofModule src.module) area s) :
    List.Forall₂ (Resource.StoredBy s.resources) src.module.resources
      s.tables.manifestResource.toList :=
  Session.rows_of_emit src key .manifestResource h rfl (by simp) rfl (.manifestResources src key)

end Cil
