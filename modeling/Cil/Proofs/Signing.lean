import Cil.Proofs.LoadedImages

/-!
Signatures of files. A signer is asked about a file whose room for a signature is empty, and what it
answers goes into that room and nowhere else; the room is the one that the header of the image tells.
-/

namespace Cil

open List
namespace PortableExecutable

open Bytes

variable {w : FileWriter} {range : Nat × Nat} {image : Image}

def Loaded.offset? (f : Loaded) (rva : Nat) : Option Nat :=
  (f.section? rva).map fun s => s.fileOffset.toNat + (rva - s.rva.toNat)

def cleared (range : Nat × Nat) (bytes : Bytes) : Bytes :=
  bytes.take range.1 ++ zeros range.2 ++ bytes.drop (range.1 + range.2)

/-- Files that differ at most in a range. -/
structure DifferWithin (range : Nat × Nat) (a b : Bytes) : Prop where
  length : a.length = b.length
  outside (i : Nat) : ¬ (range.1 ≤ i ∧ i < range.1 + range.2) → a[i]? = b[i]?

/-- What becomes of a file when the signer has given its answer. -/
inductive Outcome (range : Nat × Nat) (blank : Bytes) : Except Error Bytes → Except Error Bytes → Prop
  | refused (e : Error) : Outcome range blank (.error e) (.error e)
  | misfit {signature : Bytes} (text : String) : signature.length ≠ range.2 →
    Outcome range blank (.ok signature) (.error (.signing text))
  | signed {signature out : Bytes} : signature.length = range.2 → DifferWithin range blank out →
    signature <+: out.drop range.1 → Outcome range blank (.ok signature) (.ok out)

theorem DifferWithin.symm {a b : Bytes} (h : DifferWithin range a b) : DifferWithin range b a :=
  ⟨h.length.symm, fun i outside => (h.outside i outside).symm⟩

theorem DifferWithin.trans {a b c : Bytes} (h : DifferWithin range a b)
    (h' : DifferWithin range b c) : DifferWithin range a c :=
  ⟨h.length.trans h'.length, fun i outside => (h.outside i outside).trans (h'.outside i outside)⟩

section

variable {t : TextSection} {timestamp : UInt32} {metadata out : Bytes} {f : File}
  (serves : w.Serves t.is32Bit (sections w t)) (holds : f.Holds w t timestamp metadata)
  {offset size : Nat} (room : f.signature = some (offset, size))

include serves holds room

theorem File.Holds.signed {signature : Bytes} (length : signature.length = size) :
    let out := f.bytes.take offset ++ signature ++ f.bytes.drop (offset + size)
    f.Agrees out ∧ DifferWithin (offset, size) f.bytes out ∧ signature <+: out.drop offset := by
  subst length
  have inside := holds.room_inside serves room
  have agrees := agrees_patch room inside
  have front : (f.bytes.take offset).length = offset := length_take_of_le (by omega)
  refine ⟨agrees, ⟨?_, fun i outside => ?_⟩, ?_⟩
  · simp only [length_append, front, length_drop]
    omega
  · refine (agrees i ?_).symm
    rintro ⟨offset', size', room', within⟩
    obtain ⟨rfl, rfl⟩ := Prod.mk.inj (Option.some.inj (room.symm.trans room'))
    exact outside within
  · rw [append_assoc, drop_append_of_le_length (Nat.le_of_eq front.symm),
      drop_of_length_le (Nat.le_of_eq front)]
    exact prefix_append ..

theorem File.Holds.outcome {σ : Type} (signer : Signer σ) (s : σ) :
    ∃ result, (f.sign signer).run s = (result, ((signer.sign f.bytes).run s).2) ∧
      Outcome (offset, size) f.bytes ((signer.sign f.bytes).run s).1 result ∧
      ∀ out, result = .ok out → f.Agrees out ∧ DifferWithin (offset, size) f.bytes out := by
  rw [File.sign, room]
  dsimp only
  rw [Service.run_bind]
  rcases (signer.sign f.bytes).run s with ⟨answer, s'⟩
  cases answer with
  | error e => exact ⟨_, rfl, .refused e, by simp⟩
  | ok signature =>
    dsimp only
    by_cases length : signature.length = size
    · rw [if_neg (not_not_intro length)]
      obtain ⟨agrees, differ, stands⟩ := holds.signed serves room length
      exact ⟨_, rfl, .signed length differ stands,
        fun out same => Except.ok.inj same ▸ ⟨agrees, differ⟩⟩
    · rw [if_pos length]
      exact ⟨_, rfl, .misfit _ length, by simp⟩

end

end PortableExecutable
end Cil
