import Cil.Proofs.MemberTables

/-!
What the tables of a manifest hold in the end: one row for the module, one for the assembly if there is
one, and one for each resource, file and exported type in its turn.
-/

namespace Cil

section

variable (strings : StringHeap) (blobs : BlobHeap)

structure Module.DescribedBy (m : Module) (row : Row.Module) : Prop where
  generation : row.generation = 0
  name : strings.Has StringHeap.encode row.name.offset m.name

structure Assembly.DescribedBy (a : Assembly) (row : Row.Assembly) : Prop where
  hashAlgorithm : row.hashAlgorithm = a.hashAlgorithm.code
  version : (⟨row.major, row.minor, row.build, row.revision⟩ : Version) = a.version
  name : strings.Has StringHeap.encode row.name.offset a.name
  culture : strings.Names row.culture a.culture

structure Resource.DescribedBy (r : Resource) (row : Row.ManifestResource) : Prop where
  flags : row.flags = if r.isPublic then 0x1 else 0x2
  name : strings.Has StringHeap.encode row.name.offset r.name

structure File.DescribedBy (f : File) (row : Row.File) : Prop where
  flags : row.flags = if f.hasMetadata then 0x0 else 0x1
  name : strings.Has StringHeap.encode row.name.offset f.name
  hashValue : blobs.Has BlobHeap.encode row.hashValue.offset f.hashValue

structure ExportedType.DescribedBy (t : ExportedType) (row : Row.ExportedType) : Prop where
  flags : row.flags = .ofNat (flagMask [(t.isPublic, 0x1), (t.forwarder, 0x200000)])
  name : strings.Has StringHeap.encode row.name.offset t.name
  typeNamespace : strings.Names row.typeNamespace t.typeNamespace

end

namespace Populate

variable (src : Source) (key : Option Bytes)

def manifestPasses : List (List Part × Emit Unit) :=
  [([.rows .assembly, .rows .declSecurity, .attributes],
      src.module.assembly.toList.forM (assembly src key)),
    ([.rows .manifestResource, .attributes], src.module.resources.forM (resource src)),
    ([.rows .file, .attributes], src.module.files.toList.forM file),
    ([.rows .exportedType, .attributes], src.module.exportedTypes.toList.forM (exportedType src))]

theorem manifest_eq_passes : manifest src key = (manifestPasses src key).forM (·.2) := by
  simp only [manifestPasses, List.forM_eq_forM, List.forM_cons, List.forM_nil, bind_pure_unit]
  rfl

theorem pass_of_mem_manifestPasses : ∀ p ∈ manifestPasses src key, Pass src p := by
  simp only [manifestPasses, List.forall_mem_cons]
  exact ⟨.forM fun a => .assembly (by simp) (by simp) (by simp) key a,
    .forM fun r => .resource permits_pass (by simp) (by simp) r,
    .forM fun f => .file src (by simp) (by simp) f,
    .forM fun t => .exportedType permits_pass (by simp) (by simp) t, by simp⟩

end Populate

namespace Emit.Fills

open Populate

variable (src : Source) (key : Option Bytes)

theorem moduleRow : Fills (.rows .module) (moduleRow src.module) fun later new =>
    List.Forall₂ (Module.DescribedBy later.strings) [src.module] new :=
  bind_string fun _ => bind (Writes.confined (.guid _ : Writes src _ _)) fun _ _ =>
    bind_right (push fun _ named => .cons ⟨rfl, named⟩ .nil) fun _ => .pure _

theorem assembly (a : Assembly) : Fills (.rows .assembly) (assembly src key a) fun later new =>
    ∃ row, new = [row] ∧ a.DescribedBy later.strings row :=
  bind (.blob? (fun _ => trivial) _) fun _ _ => bind_string? fun _ => bind_string fun _ =>
    bind_right (push fun _ named cultured => ⟨_, rfl, rfl, rfl, named, cultured⟩) fun _ =>
      Writes.confined (.bind (.security (by simp) ..) fun _ => .attach (by simp) .. : Writes src _ _)

theorem namedResource (r : Resource) :
    Fills (.rows .manifestResource) (Populate.resource src r) fun later new =>
      ∃ row, new = [row] ∧ r.DescribedBy later.strings row :=
  bind (Writes.resourcePlace (.besides .manifestResource rfl) _).confined fun _ _ =>
    bind_string fun _ =>
    bind_right (push fun _ named => ⟨_, rfl, rfl, named⟩) fun _ => .attach (by simp) ..

theorem file (f : File) : Fills (.rows .file) (file f) fun later new =>
    ∃ row, new = [row] ∧ f.DescribedBy later.strings later.blobs row :=
  bind_blob fun _ => bind_string fun _ =>
    bind_right (push fun _ named hashed => ⟨_, rfl, rfl, named, hashed⟩) fun _ => .attach (by simp) ..

theorem exportedType (t : ExportedType) :
    Fills (.rows .exportedType) (exportedType src t) fun later new =>
      ∃ row, new = [row] ∧ t.DescribedBy later.strings row :=
  bind (Writes.exportedPlace (.besides .exportedType rfl) _).confined fun _ _ => bind_string? fun _ =>
    bind_string fun _ => bind_right (push fun _ named inNamespace => ⟨_, rfl, rfl, named, inNamespace⟩)
      fun _ => .attach (by simp) ..

theorem manifest {t : Table} (own : t.isReference = false) {ε : Type} {R : Session → ε → t.Row → Prop}
    {items : List ε} {parts : List Part} {c : Emit Unit}
    (one : (manifestPasses src key).filter (.rows t ∈ ·.1) = [(parts, c)])
    (fills : Fills (.rows t) c (Each R items)) :
    Fills (.rows t) (Populate.manifest src key) (Each R items) := by
  have all : Fills (.rows t) ((manifestPasses src key).forM (·.2)) (Each R [items].flatten) := by
    refine passes src (pass_of_mem_manifestPasses src key) (fun u reference same => ?_) ?_
    · cases same
      rw [own] at reference
      cases reference
    · rw [show (manifestPasses src key).filter ((Log.rows t).part ∈ ·.1) = _ from one]
      exact .cons fills .nil
  rw [manifest_eq_passes]
  simpa using all

end Emit.Fills

/-- The tables of a manifest in the end. -/
structure Session.Manifests (src : Source) (s : Session) : Prop where
  module : List.Forall₂ (Module.DescribedBy s.strings) [src.module] (s.tables.rows .module).toList
  assembly : List.Forall₂ (Assembly.DescribedBy s.strings) src.module.assembly.toList
    (s.tables.rows .assembly).toList
  resources : List.Forall₂ (Resource.DescribedBy s.strings) src.module.resources
    (s.tables.rows .manifestResource).toList
  files : List.Forall₂ (File.DescribedBy s.strings s.blobs) src.module.files.toList
    (s.tables.rows .file).toList
  exportedTypes : List.Forall₂ (ExportedType.DescribedBy s.strings) src.module.exportedTypes.toList
    (s.tables.rows .exportedType).toList

section

variable {src : Source} {key : Option Bytes} {keepsSymbols : Bool} {area : CodeArea} {s : Session}
  (h : (Module.emit src key keepsSymbols).Runs (.ofModule src.module) area s)

include h

theorem Session.module_of_emit :
    List.Forall₂ (Module.DescribedBy s.strings) [src.module] (s.tables.rows .module).toList := by
  have references : Permits (· ≠ (Log.rows .module).part) fun _ => True := .besides .module rfl
  have passes : Emit.Fills (.rows .module) (Populate.all src key) fun later new =>
      List.Forall₂ (Module.DescribedBy later.strings) [] new := by
    have own : ∀ t : Table, t.isReference = true → (Log.rows .module).part ≠ .rows t := by
      intro t reference same
      cases same
      cases reference
    rw [Populate.all_eq_passes]
    exact .passes src (Populate.pass_of_mem src key) own (show List.Forall₂ _ [] [] from .nil)
  have rest : Emit.Fills (.rows .module) (do
      let area ← Compile.bodies src keepsSymbols
      Populate.all src key
      return area) fun later new => List.Forall₂ (Module.DescribedBy later.strings) [] new :=
    .bind (Emit.Writes.bodies references keepsSymbols).confined fun _ _ =>
      .bind_right passes fun _ => .pure _
  have all := (Emit.Fills.moduleRow src).append fun _ => rest
  obtain ⟨_, _, new, added, holds⟩ := all.run (faithful_ofModule src.module) h
  obtain ⟨front, back, rfl, first, none⟩ := holds s (.refl s)
  obtain rfl := List.forall₂_nil_left_iff.1 none
  have same : (s.tables.rows .module).toList = [] ++ (front ++ []) :=
    added.trans (foldl_append_one _ _)
  rwa [same, List.append_nil, List.nil_append]

theorem Session.manifests_of_emit : s.Manifests src where
  module := module_of_emit h
  assembly := rows_of_emit src key .assembly h rfl (by simp) rfl
    (.manifest src key rfl rfl (.forM_each (.assembly src key)))
  resources := rows_of_emit src key .manifestResource h rfl (by simp) rfl
    (.manifest src key rfl rfl (.forM_each (.namedResource src)))
  files := rows_of_emit src key .file h rfl (by simp) rfl
    (.manifest src key rfl rfl (.forM_each .file))
  exportedTypes := rows_of_emit src key .exportedType h rfl (by simp) rfl
    (.manifest src key rfl rfl (.forM_each (.exportedType src)))

end
end Cil
