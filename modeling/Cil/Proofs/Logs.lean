import Cil.Proofs.Confinement

/-!
Lists that a write builds up. A log is a list that goes with one part of the session: the rows of a
table, behind one another or sorted, or the attributes that wait for theirs. What an action adds to a
log is described by a relation that holds in all later sessions.
-/

namespace Cil

open List

variable {δ ε : Type} {f : δ → Emit Unit} {l : List δ}

structure Log (α : Type) where
  part : Part
  view : Session → List α
  add : List α → α → List α
  spared {s s' : Session} : s.Extends (· ≠ part) s' → view s' = view s

namespace Log

def rows (t : Table) : Log t.Row where
  part := .rows t
  view s := (s.tables.rows t).toList
  add rows row := rows ++ [row]
  spared h := by rw [h.rows (by simp)]

def sorted (t : Table) [SortedRow t.Row] : Log t.Row where
  part := .rows t
  view s := (s.tables.rows t).toList
  add rows row := (SortedRow.insert rows.toArray row).toList
  spared h := by rw [h.rows (by simp)]

def attributes : Log (Owner × Attribute) where
  part := .attributes
  view s := s.attributes.toList
  add waiting x := waiting ++ [x]
  spared h := by rw [h.attributes (by simp)]

@[simp] theorem part_rows (t : Table) : (rows t).part = .rows t := rfl

@[simp] theorem part_sorted (t : Table) [SortedRow t.Row] : (sorted t).part = .rows t := rfl

@[simp] theorem part_attributes : attributes.part = .attributes := rfl

end Log

theorem foldl_append_one {α : Type} (l new : List α) :
    new.foldl (fun l a => l ++ [a]) l = l ++ new := by
  induction new generalizing l with
  | nil => simp
  | cons a new ih => rw [foldl_cons, ih, append_assoc, singleton_append]

theorem Permits.besides (t : Table) (own : t.isReference = false) :
    Permits (· ≠ .rows t) fun _ => True where
  table {u} reference same := by
    cases same
    rw [own] at reference
    cases reference
  error _ := trivial

/-- New items of a log, one for each of the given. -/
abbrev Each {α ε : Type} (R : Session → ε → α → Prop) (items : List ε) (later : Session)
    (new : List α) :
    Prop :=
  List.Forall₂ (R later) items new

namespace Emit

variable {α β γ : Type}

variable {R' : Session → List α → Prop}

/-- The action leaves the log alone. -/
abbrev Spares (log : Log α) (c : Emit β) : Prop := c.Confined (· ≠ log.part) fun _ => True

/-- The action adds items to the log; what is said of them holds in all later sessions. -/
structure Fills (log : Log α) (c : Emit β) (R : Session → List α → Prop) : Prop where
  run {s : Session} {b : β} {s' : Session} : s.Faithful → c.Runs s b s' →
    s'.Faithful ∧ s.Under s' ∧ ∃ new, log.view s' = new.foldl log.add (log.view s) ∧
      ∀ later, s'.Under later → R later new

namespace Fills

variable {log : Log α} {R : Session → List α → Prop}

theorem weaken {c : Emit β} (h : Fills log c R) (weaker : ∀ later new, R later new → R' later new) :
    Fills log c R' where
  run faithful run := by
    obtain ⟨faithful', under, new, added, holds⟩ := h.run faithful run
    exact ⟨faithful', under, new, added, fun later h => weaker _ _ (holds later h)⟩

theorem nothing {c : Emit β} (hc : c.Spares log) (h : ∀ later, R later []) : Fills log c R where
  run faithful run := by
    obtain ⟨faithful', extends'⟩ := hc.run faithful run
    exact ⟨faithful', extends'.toUnder, [], log.spared extends', fun later _ => h later⟩

theorem bind {c : Emit β} {f : β → Emit γ} (hc : c.Spares log)
    (hf : ∀ b, (∃ s s', c.Runs s b s') → Fills log (f b) R) : Fills log (c >>= f) R where
  run faithful run := by
    obtain ⟨b, s₁, first, second⟩ := runs_bind.1 run
    obtain ⟨faithful₁, extends₁⟩ := hc.run faithful first
    obtain ⟨faithful₂, under, new, added, holds⟩ := (hf b ⟨_, _, first⟩).run faithful₁ second
    exact ⟨faithful₂, extends₁.toUnder.trans under, new, by rw [added, log.spared extends₁], holds⟩

theorem bind_right {c : Emit β} {f : β → Emit γ} (hc : Fills log c R)
    (hf : ∀ b, (f b).Spares log) : Fills log (c >>= f) R where
  run faithful run := by
    obtain ⟨b, s₁, first, second⟩ := runs_bind.1 run
    obtain ⟨faithful₁, under₁, new, added, holds⟩ := hc.run faithful first
    obtain ⟨faithful₂, extends₂⟩ := (hf b).run faithful₁ second
    exact ⟨faithful₂, under₁.trans extends₂.toUnder, new, by rw [log.spared extends₂, added],
      fun later under => holds later (extends₂.toUnder.trans under)⟩

theorem append {c : Emit β} {f : β → Emit γ} (hc : Fills log c R) (hf : ∀ b, Fills log (f b) R') :
    Fills log (c >>= f) fun later new => ∃ front back, new = front ++ back ∧ R later front ∧
      R' later back where
  run faithful run := by
    obtain ⟨b, s₁, first, second⟩ := runs_bind.1 run
    obtain ⟨faithful₁, under₁, front, added₁, holds₁⟩ := hc.run faithful first
    obtain ⟨faithful₂, under₂, back, added₂, holds₂⟩ := (hf b).run faithful₁ second
    refine ⟨faithful₂, under₁.trans under₂, front ++ back, ?_, fun later under => ?_⟩
    · rw [added₂, added₁, foldl_append]
    · exact ⟨front, back, rfl, holds₁ later (under₂.trans under), holds₂ later under⟩

theorem bind_string {text : String} {f : StringIndex → Emit γ}
    (hf : ∀ i, Fills log (f i) fun later new =>
      later.strings.Has StringHeap.encode i.offset text → R later new) :
    Fills log (Emit.string text >>= f) R where
  run {s b s'} faithful run := by
    obtain ⟨i, s₁, first, second⟩ := runs_bind.1 run
    obtain ⟨faithful₁, extends₁⟩ := (Confined.string text : Spares log _).run faithful first
    have has : s₁.strings.Has StringHeap.encode i.offset text := by
      have wrote := StringHeap.wrote_write faithful.strings text
      cases runs_modifyGet.1 first
      exact wrote.has
    obtain ⟨faithful₂, under, new, added, holds⟩ := (hf i).run faithful₁ second
    refine ⟨faithful₂, extends₁.toUnder.trans under, new, by rw [added, log.spared extends₁],
      fun later h => holds later h (has.mono (under.trans h).strings)⟩

theorem bind_blob {bytes : Bytes} {f : BlobIndex → Emit γ}
    (hf : ∀ i, Fills log (f i) fun later new =>
      later.blobs.Has BlobHeap.encode i.offset bytes → R later new) :
    Fills log (Emit.blob bytes >>= f) R where
  run {s b s'} faithful run := by
    obtain ⟨i, s₁, first, second⟩ := runs_bind.1 run
    obtain ⟨faithful₁, extends₁⟩ :=
      (Confined.blob (fun _ => trivial) bytes : Spares log _).run faithful first
    have has : s₁.blobs.Has BlobHeap.encode i.offset bytes := by
      rw [Emit.blob_eq] at first
      obtain ⟨encoding, _, ran, written⟩ := runs_bind.1 first
      obtain ⟨encoded, rfl⟩ := runs_ofEncoding.1 ran
      have wrote := BlobHeap.wrote_add faithful.blobs encoded
      cases runs_modifyGet.1 written
      rw [Session.blobs_withBlob encoded]
      exact wrote.has
    obtain ⟨faithful₂, under, new, added, holds⟩ := (hf i).run faithful₁ second
    refine ⟨faithful₂, extends₁.toUnder.trans under, new, by rw [added, log.spared extends₁],
      fun later h => holds later h (has.mono (under.trans h).blobs)⟩

theorem push {t : Table} {row : t.Row} {R : Session → List t.Row → Prop}
    (h : ∀ later, R later [row]) : Fills (.rows t) (Emit.push t row) R where
  run {s n s'} faithful run := by
    obtain ⟨faithful', extends'⟩ := (Confined.push trivial row : Confined (fun _ => True)
      (fun _ => True) _).run faithful run
    refine ⟨faithful', extends'.toUnder, [row], ?_, fun later _ => h later⟩
    cases runs_modifyGet.1 run
    simp [Log.rows, Tables.push, Tables.rows_modify_self]

theorem insert {t : Table} [SortedRow t.Row] {row : t.Row} {R : Session → List t.Row → Prop}
    (h : ∀ later, R later [row]) : Fills (.sorted t) (Emit.insert t row) R where
  run {s n s'} faithful run := by
    obtain ⟨faithful', extends'⟩ := (Confined.insert trivial row : Confined (fun _ => True)
      (fun _ => True) _).run faithful run
    refine ⟨faithful', extends'.toUnder, [row], ?_, fun later _ => h later⟩
    cases runs_modifyGet.1 run
    simp [Log.sorted, Tables.rows_modify_self]

theorem attach {owner : Owner} {attributes : List Attribute}
    {R : Session → List (Owner × Attribute) → Prop}
    (h : ∀ later, R later (attributes.map (owner, ·))) :
    Fills .attributes (Populate.attach owner attributes) R where
  run {s n s'} faithful run := by
    obtain ⟨faithful', extends'⟩ := (Confined.attach trivial owner attributes : Confined
      (fun _ => True) (fun _ => True) _).run faithful run
    refine ⟨faithful', extends'.toUnder, _, ?_, fun later _ => h later⟩
    cases runs_modify.1 run
    simp only [Log.attributes, foldl_append_one]
    simp

theorem forM {g : δ → List ε} {R : Session → ε → α → Prop}
    (h : ∀ a, Fills log (f a) (Each R (g a))) : Fills log (l.forM f) (Each R (l.flatMap g)) := by
  induction l with
  | nil => exact nothing (.pure ()) fun _ => .nil
  | cons a l ih =>
    refine ((h a).append fun _ => ih).weaken ?_
    rintro later _ ⟨front, back, rfl, first, rest⟩
    exact rel_append first rest

theorem forM_each {R : Session → δ → α → Prop}
    (h : ∀ a, Fills log (f a) fun later new => ∃ item, new = [item] ∧ R later a item) :
    Fills log (l.forM f) (Each R l) := by
  have one (a : δ) : Fills log (f a) (Each R [a]) := by
    refine (h a).weaken ?_
    rintro later _ ⟨item, rfl, holds⟩
    exact .cons holds .nil
  refine (forM one).weaken fun later new each => ?_
  rwa [flatMap_singleton'] at each

theorem forM_zipIdx {k : Nat} {f : δ × Nat → Emit Unit} {R : Session → δ → α → Prop}
    (h : ∀ x, Fills log (f x) fun later new => ∃ item, new = [item] ∧ R later x.1 item) :
    Fills log ((l.zipIdx k).forM f) (Each R l) := by
  refine (forM_each h).weaken fun later new each => ?_
  rwa [Each, ← zipIdx_map_fst k l, forall₂_map_left_iff]

end Fills

/-- As `Fills`, from sessions with `P`; then `Q` is known. -/
structure FillsFrom (P : Session → Prop) (log : Log α) (c : Emit β) (Q : Session → Prop)
    (R : Session → List α → Prop) : Prop where
  run {s : Session} {b : β} {s' : Session} : s.Faithful → P s → c.Runs s b s' →
    s'.Faithful ∧ s.Under s' ∧ Q s' ∧ ∃ new, log.view s' = new.foldl log.add (log.view s) ∧
      ∀ later, s'.Under later → R later new

/-- The action takes sessions with `P` to sessions with `Q`. -/
abbrev Leads (P : Session → Prop) (c : Emit β) (Q : Session → Prop) : Prop :=
  ∀ {s : Session} {b : β} {s' : Session}, s.Faithful → P s → c.Runs s b s' → Q s'

namespace FillsFrom

variable {log : Log α} {P P' Q : Session → Prop} {R : Session → List α → Prop}

theorem of_fills {c : Emit β} (h : Fills log c R) (leads : Leads P c Q) : FillsFrom P log c Q R where
  run faithful start run := by
    obtain ⟨faithful', under, filled⟩ := h.run faithful run
    exact ⟨faithful', under, leads faithful start run, filled⟩

theorem append {c : Emit δ} {f : δ → Emit γ} {R : Session → ε → α → Prop} {front back : List ε}
    (hc : FillsFrom P log c P' (Each R front)) (hf : ∀ b, FillsFrom P' log (f b) Q (Each R back)) :
    FillsFrom P log (c >>= f) Q (Each R (front ++ back)) where
  run faithful start run := by
    obtain ⟨b, s₁, first, second⟩ := runs_bind.1 run
    obtain ⟨faithful₁, under₁, middle, new, added, holds⟩ := hc.run faithful start first
    obtain ⟨faithful₂, under₂, stop, new', added', holds'⟩ := (hf b).run faithful₁ middle second
    refine ⟨faithful₂, under₁.trans under₂, stop, new ++ new', ?_, fun later under => ?_⟩
    · rw [added', added, foldl_append]
    · exact rel_append (holds later (under₂.trans under)) (holds' later under)

theorem forM {P : Nat → Session → Prop} {k : Nat} {g : δ × Nat → List ε}
    {R : Session → ε → α → Prop}
    (h : ∀ a k, FillsFrom (P k) log (f a) (P (k + 1)) (Each R (g (a, k)))) :
    FillsFrom (P k) log (l.forM f) (P (k + l.length)) (Each R ((l.zipIdx k).flatMap g)) := by
  induction l generalizing k with
  | nil =>
    exact of_fills (.nothing (.pure ()) fun _ => .nil) fun _ start run => by
      obtain ⟨_, rfl⟩ := runs_pure.1 run
      exact start
  | cons a l ih =>
    rw [length_cons, Nat.add_comm l.length, ← Nat.add_assoc]
    exact append (h a k) fun _ => ih

end FillsFrom
end Emit

/-- The next row of a table has a number. -/
def Session.Next (t : Table) (k : Nat) (s : Session) : Prop := (s.tables.rows t).size + 1 = k

namespace Emit

variable {α β : Type} {A : Part → Prop} {t : Table} {k : Nat}

theorem Confined.next {c : Emit β} (hc : c.Confined A fun _ => True) (other : ¬ A (.rows t)) :
    Leads (·.Next t k) c (·.Next t k) := by
  intro s b s' faithful next run
  have same := (hc.run faithful run).2.rows other
  rwa [Session.Next, same]

theorem FillsFrom.push {log : Log α} {R : Session → List α → Prop} {row : t.Row} {f : Nat → Emit Unit}
    (other : Part.rows t ≠ log.part) (hf : Fills log (f k) R)
    (keeps : (f k).Confined (· ≠ .rows t) fun _ => True) :
    FillsFrom (·.Next t k) log (Emit.push t row >>= f) (·.Next t (k + 1)) R where
  run {s b s'} faithful next run := by
    obtain ⟨n, s₁, pushed, rest⟩ := runs_bind.1 run
    obtain ⟨faithful₁, extends₁⟩ := (Confined.push other row : Spares log _).run faithful pushed
    have number : n = k ∧ s₁.Next t (k + 1) := by
      cases runs_modifyGet.1 pushed
      simpa [Tables.push, Tables.count, Session.Next, Tables.rows_modify_self] using next
    obtain ⟨rfl, next₁⟩ := number
    obtain ⟨faithful₂, under, new, added, holds⟩ := hf.run faithful₁ rest
    exact ⟨faithful₂, extends₁.toUnder.trans under, keeps.next (by simp) faithful₁ next₁ rest, new,
      by rw [added, log.spared extends₁], holds⟩

theorem FillsFrom.bind_rows {log : Log α} {Q : Session → Prop} {R : Session → List α → Prop}
    {c : Emit β} {f : β → Emit δ}
    (hc : c.Confined (fun part => part ≠ log.part ∧ part ≠ .rows t) fun _ => True)
    (hf : ∀ b, FillsFrom (·.Next t k) log (f b) Q R) : FillsFrom (·.Next t k) log (c >>= f) Q R where
  run faithful next run := by
    obtain ⟨b, s₁, first, second⟩ := runs_bind.1 run
    obtain ⟨faithful₁, extends₁⟩ := hc.run faithful first
    obtain ⟨faithful₂, under, stop, new, added, holds⟩ :=
      (hf b).run faithful₁ (hc.next (by simp) faithful next first) second
    refine ⟨faithful₂, extends₁.toUnder.trans under, stop, new, ?_, holds⟩
    rw [added, log.spared (extends₁.mono fun _ allowed => allowed.1)]

theorem FillsFrom.forM_rows {log : Log α} {R : Session → ε → α → Prop} {g : δ × Nat → List ε}
    (h : ∀ a k, FillsFrom (·.Next t k) log (f a) (·.Next t (k + 1)) (Each R (g (a, k)))) :
    FillsFrom (·.Next t 1) log (l.forM f) (fun _ => True) (Each R ((l.zipIdx 1).flatMap g)) where
  run faithful next run := by
    obtain ⟨faithful', under, _, filled⟩ :=
      (FillsFrom.forM (P := fun k s => s.Next t k) h).run faithful next run
    exact ⟨faithful', under, trivial, filled⟩

end Emit

/-- Tables that have no rows yet. -/
def Session.Fresh (ts : List Table) (s : Session) : Prop := ∀ t ∈ ts, s.Next t 1

/-- All parts but the rows of some tables. -/
@[simp]
def Part.Beside (ts : List Table) (part : Part) : Prop := ∀ t ∈ ts, part ≠ .rows t

theorem Permits.beside {ts : List Table}
    (own : ∀ t ∈ ts, t.isReference = false := by simp [Table.isReference]) :
    Permits (Part.Beside ts) fun _ => True where
  table {u} reference t ht same := by
    cases same
    rw [own u ht] at reference
    cases reference
  error _ := trivial

namespace Emit

variable {α β : Type} {ts : List Table}

theorem Confined.fresh {c : Emit β} (hc : c.Confined (Part.Beside ts) fun _ => True) :
    Leads (·.Fresh ts) c (·.Fresh ts) :=
  fun faithful fresh run t ht => hc.next (fun beside => beside t ht rfl) faithful (fresh t ht) run

theorem FillsFrom.fresh {t : Table} {log : Log α} {Q : Session → Prop} {R : Session → List α → Prop}
    {c : Emit β} (h : FillsFrom (·.Next t 1) log c Q R) (hc : c.Confined (Part.Beside ts) fun _ =>
    True) :
    FillsFrom (·.Fresh (t :: ts)) log c (·.Fresh ts) R where
  run faithful fresh run := by
    obtain ⟨first, rest⟩ := forall_mem_cons.1 fresh
    obtain ⟨faithful', under, _, filled⟩ := h.run faithful first run
    exact ⟨faithful', under, hc.fresh faithful rest run, filled⟩

end Emit
end Cil
