import Cil.Proofs.MemberTables
import Cil.Proofs.ResolvedImages

/-!
Tables read back by their list columns. A row owns the rows from the one that its list column names up
to the one that the next row's column names. Read in this way, an assembled image gives each defined
type its own members, in the order in which they are declared and in the rows that they were given.
-/

namespace Cil

open List Cil.Numbering.Counters

/-- The rows that a list column gives to each of its owners, with their numbers. The last run goes to
the end. -/
def runs {α : Type} : List Nat → List (α × Nat) → List (List (α × Nat))
  | [], _ => []
  | start :: rest, rows =>
    rows.filter (fun x => decide (start ≤ x.2) && rest.head?.all (x.2 < ·)) :: runs rest rows

open Cil.Numbering (starts length_starts)

section

variable {α β γ δ : Type} {R : γ → α → Prop} {rows : List α} {l : List γ} {ds : List δ}
  {first : δ → Nat} {others : List β} {g : δ → List γ}

/-- Rows that are numbered from `first` on and stand for the entries of a list, one by one. -/
abbrev Run (R : γ → α → Prop) (first : Nat) (l : List γ) : List (α × Nat) → Prop :=
  List.Forall₂ (fun x y => y.2 = first + x.2 ∧ R x.1 y.1) l.zipIdx

theorem map_eq_of_forall₂ {f : γ → β} {g : α → β} (h : List.Forall₂ R l rows)
    (same : ∀ a b, R a b → g b = f a) : rows.map g = l.map f := by
  rw [← List.forall₂_eq_eq_eq, forall₂_map_left_iff, forall₂_map_right_iff]
  exact (h.imp same).flip

theorem forall₂_append_inv {l' : List γ} (h : List.Forall₂ R (l ++ l') rows) :
    ∃ front back, rows = front ++ back ∧ List.Forall₂ R l front ∧ List.Forall₂ R l' back :=
  ⟨_, _, (take_append_drop l.length rows).symm, (forall₂_take_append _ _ _ h.flip).flip,
    (forall₂_drop_append _ _ _ h.flip).flip⟩

theorem forall₂_zipIdx (h : List.Forall₂ R l rows) (n k : Nat) :
    List.Forall₂ (fun x y => y.2 = n + x.2 ∧ R x.1 y.1) (l.zipIdx k) (rows.zipIdx (n + k)) := by
  induction h generalizing k with
  | nil => exact .nil
  | cons holds _ ih => exact .cons ⟨rfl, holds⟩ (ih (k + 1))

theorem filter_between {before after : List (α × Nat)} {front : List α} {n : Nat} {next : Option Nat}
    (earlier : ∀ x ∈ before, x.2 < n) (bound : ∀ k ∈ next, n + front.length ≤ k)
    (later : ∀ x ∈ after, ∃ k ∈ next, k ≤ x.2) :
    (before ++ (front.zipIdx n ++ after)).filter
      (fun x => decide (n ≤ x.2) && next.all (x.2 < ·)) = front.zipIdx n := by
  rw [filter_append, filter_append, filter_eq_nil_iff.2 fun x hx => ?_, filter_eq_self.2 fun x hx => ?_,
    filter_eq_nil_iff.2 fun x hx => ?_, nil_append, append_nil]
  · obtain ⟨k, hk, behind⟩ := later x hx
    rw [Bool.and_eq_true, Option.all_eq_true]
    rintro ⟨_, within⟩
    have := within k hk
    simp only [decide_eq_true_eq] at this
    omega
  · have low := le_snd_of_mem_zipIdx hx
    have high := snd_lt_add_of_mem_zipIdx hx
    rw [Bool.and_eq_true, Option.all_eq_true]
    exact ⟨by simpa using low, fun k hk => by have := bound k hk; simp; omega⟩
  · have := earlier x hx
    simp only [Bool.and_eq_true, decide_eq_true_eq]
    omega

theorem length_runs (ks : List Nat) (rows : List (α × Nat)) : (runs ks rows).length = ks.length := by
  induction ks with
  | nil => rfl
  | cons k ks ih => simp [runs, ih]

theorem forall₂_zip {S : γ → β → Prop} (h : List.Forall₂ R l rows) (h' : List.Forall₂ S l others) :
    List.Forall₂ (fun a x => R a x.1 ∧ S a x.2) l (rows.zip others) := by
  rw [forall₂_iff_get] at h h' ⊢
  refine ⟨by simp [← h.1, ← h'.1], fun i hi hj => ?_⟩
  simpa using And.intro (h.2 i hi (h.1 ▸ hi)) (h'.2 i hi (h'.1 ▸ hi))

theorem forall₂_comp {S : α → β → Prop} (h : List.Forall₂ R l rows)
    (h' : List.Forall₂ S rows others) :
    List.Forall₂ (fun a b => ∃ row ∈ rows, R a row ∧ S row b) l others := by
  rw [forall₂_iff_get] at h h' ⊢
  exact ⟨h.1.trans h'.1, fun i hi hj => ⟨_, get_mem .., h.2 i hi (h.1 ▸ hi), h'.2 i (h.1 ▸ hi) hj⟩⟩

theorem getElem?_of_forall₂ {P : γ × Nat → α → Prop} (h : List.Forall₂ P l.zipIdx rows) {i : Nat}
    {row : α} (known : rows[i]? = some row) : ∃ a, l[i]? = some a ∧ P (a, i) row := by
  obtain ⟨inside, rfl⟩ := List.getElem?_eq_some_iff.1 known
  obtain ⟨size, each⟩ := forall₂_iff_get.1 h
  have here : i < l.length := by simpa [← size] using inside
  exact ⟨l[i], by simp, by simpa using each i (by simpa using here) inside⟩

theorem forall₂_zip_left {P : (γ × β) × Nat → α → Prop} (length : l.length = others.length)
    (h : List.Forall₂ P (l.zip others).zipIdx rows) :
    List.Forall₂ (fun x row => ∃ b, others[x.2]? = some b ∧ P ((x.1, b), x.2) row) l.zipIdx rows := by
  rw [forall₂_iff_get] at h ⊢
  obtain ⟨size, each⟩ := h
  refine ⟨by simpa [length] using size, fun i hi hrow => ?_⟩
  have inside : i < others.length := by simpa [length] using hi
  refine ⟨others[i], by simp, ?_⟩
  simpa using each i (by simpa [length] using inside) hrow

/-- Where the runs of owners follow each other, each owner gets its own; what comes before them does not
matter. -/
theorem runs_placed {n : Nat} (placed : ds.map first = starts n (ds.map fun d => (g d).length))
    (each : List.Forall₂ R (ds.flatMap g) rows) (before : List (α × Nat) := [])
    (earlier : ∀ x ∈ before, x.2 < n := by simp) :
    List.Forall₂ (fun d => Run R (first d) (g d)) ds
        (runs (ds.map first) (before ++ rows.zipIdx n)) ∧
      (runs (ds.map first) (before ++ rows.zipIdx n)).flatten = rows.zipIdx n := by
  induction ds generalizing rows n before with
  | nil =>
    obtain rfl := forall₂_nil_left_iff.1 each
    exact ⟨.nil, rfl⟩
  | cons d ds ih =>
    obtain ⟨front, back, rfl, own, others⟩ := forall₂_append_inv each
    obtain ⟨here, next⟩ := List.cons.inj placed
    have length : (g d).length = front.length := own.length_eq
    replace next : ds.map first = starts (n + front.length) (ds.map fun d => (g d).length) := by
      rw [← length]
      exact next
    have earlier' : ∀ x ∈ before ++ front.zipIdx n, x.2 < n + front.length := by
      intro x hx
      rcases mem_append.1 hx with old | new
      · exact Nat.lt_of_lt_of_le (earlier x old) (Nat.le_add_right ..)
      · exact snd_lt_add_of_mem_zipIdx new
    have run : (before ++ (front.zipIdx n ++ back.zipIdx (n + front.length))).filter (fun x =>
        decide (n ≤ x.2) && (ds.map first).head?.all (x.2 < ·)) = front.zipIdx n := by
      cases ds with
      | nil =>
        obtain rfl := forall₂_nil_left_iff.1 others
        exact filter_between earlier (by simp) (by simp)
      | cons d' ds =>
        have start : (first d' : Nat) = n + front.length := (List.cons.inj next).1
        refine filter_between earlier (by simp [start]) fun x hx => ?_
        exact ⟨first d', by simp, start ▸ le_snd_of_mem_zipIdx hx⟩
    obtain ⟨rest, flat⟩ := ih next others _ earlier'
    rw [append_assoc] at rest flat
    rw [map_cons, runs, zipIdx_append, here, run]
    exact ⟨.cons (here ▸ forall₂_zipIdx own n 0) rest, by rw [flatten_cons, flat]⟩

theorem placed_filter {n : Nat} (placed : ds.map first = starts n (ds.map fun d => (g d).length)) :
    (ds.filter fun d => !(g d).isEmpty).map first =
      starts n ((ds.filter fun d => !(g d).isEmpty).map fun d => (g d).length) := by
  induction ds generalizing n with
  | nil => rfl
  | cons d ds ih =>
    obtain ⟨here, next⟩ := List.cons.inj placed
    have rest := ih next
    cases owned : g d <;> simpa [owned, starts, here] using rest

theorem flatMap_filter (ds : List δ) (g : δ → List γ) :
    (ds.filter fun d => !(g d).isEmpty).flatMap g = ds.flatMap g := by
  induction ds with
  | nil => rfl
  | cons d ds ih => cases owned : g d <;> simp [owned, ih]

def pick (l : List (Nat × List α)) (number : Nat) : List α :=
  (l.filter (·.1 = number)).flatMap (·.2)

theorem pick_append (l l' : List (Nat × List α)) (number : Nat) :
    pick (l ++ l') number = pick l number ++ pick l' number := by
  simp [pick]

theorem pick_eq_nil {l : List (Nat × List α)} {number : Nat} (h : number ∉ l.map (·.1)) :
    pick l number = [] := by
  rw [pick, filter_eq_nil_iff.2, flatMap_nil]
  intro x hx same
  exact h (mem_map.2 ⟨x, hx, by simpa using same⟩)

/-- Of owners with distinct numbers, some of which have a run beside their number, each finds its
own. -/
theorem pick_own {number : δ → Nat} {p : δ → Bool} {Q : δ → List α → Prop} {bs : List (List α)}
    (others : List (Nat × List α)) (distinct : (ds.map number).Nodup)
    (foreign : ∀ d ∈ ds, number d ∉ others.map (·.1)) (each : List.Forall₂ Q (ds.filter p) bs)
    (empty : ∀ d, p d = false → Q d []) :
    List.Forall₂ Q ds (ds.map fun d =>
        pick (others ++ ((ds.filter p).map number).zip bs) (number d)) ∧
      (ds.map fun d => pick (others ++ ((ds.filter p).map number).zip bs) (number d)).flatten =
        bs.flatten := by
  induction ds generalizing bs others with
  | nil =>
    obtain rfl := forall₂_nil_left_iff.1 each
    exact ⟨.nil, rfl⟩
  | cons d ds ih =>
    obtain ⟨fresh, distinct⟩ := nodup_cons.1 distinct
    obtain ⟨here, foreign⟩ := forall_mem_cons.1 foreign
    have apart (bs : List (List α)) : number d ∉ (((ds.filter p).map number).zip bs).map (·.1) := by
      intro h
      obtain ⟨⟨k, b⟩, hx, rfl⟩ := mem_map.1 h
      obtain ⟨d', hd', same⟩ := mem_map.1 (of_mem_zip hx).1
      exact fresh (mem_map.2 ⟨d', mem_of_mem_filter hd', same⟩)
    rw [filter_cons] at each ⊢
    split at each
    case isTrue owner =>
      obtain ⟨b, bs, holds, tail, rfl⟩ := forall₂_cons_left_iff.1 each
      have own : pick (others ++ (number d :: (ds.filter p).map number).zip (b :: bs))
          (number d) = b := by
        rw [zip_cons_cons, pick_append, pick_eq_nil here, ← singleton_append, pick_append,
          pick_eq_nil (apart bs)]
        simp [pick]
      have foreign' : ∀ d' ∈ ds, number d' ∉ (others ++ [(number d, b)]).map (·.1) := by
        intro d' hd' h
        rw [map_append, mem_append] at h
        rcases h with old | new
        · exact foreign d' hd' old
        · obtain same : number d' = number d := by simpa using new
          exact fresh (mem_map.2 ⟨d', hd', same⟩)
      obtain ⟨rest, flat⟩ := ih _ distinct foreign' tail
      rw [append_assoc, singleton_append] at rest flat
      rw [if_pos owner, map_cons, map_cons, own]
      exact ⟨.cons holds rest, by rw [flatten_cons, flatten_cons]; exact congrArg _ flat⟩
    case isFalse none =>
      have own : pick (others ++ ((ds.filter p).map number).zip bs) (number d) = [] := by
        rw [pick_append, pick_eq_nil here, pick_eq_nil (apart bs), nil_append]
      obtain ⟨rest, flat⟩ := ih others distinct foreign each
      rw [if_neg none, map_cons, own]
      exact ⟨.cons (empty d (by simpa using none)) rest, by rw [flatten_cons]; exact flat⟩

theorem pick_placed {μ : Type} (parent list : μ → Nat) (f : δ → μ) {maps : List μ}
    (distinct : (ds.map fun d => parent (f d)).Nodup)
    (placed : (ds.map fun d => list (f d)) = starts 1 (ds.map fun d => (g d).length))
    (each : List.Forall₂ R (ds.flatMap g) rows)
    (mapped : maps = ds.flatMap fun d => if (g d).isEmpty then [] else [f d]) :
    List.Forall₂ (fun d => Run R (list (f d)) (g d)) ds
        (ds.map fun d => pick ((maps.map parent).zip (runs (maps.map list) (rows.zipIdx 1)))
          (parent (f d))) ∧
      (ds.map fun d => pick ((maps.map parent).zip (runs (maps.map list) (rows.zipIdx 1)))
        (parent (f d))).flatten = rows.zipIdx 1 := by
  have owners : maps = (ds.filter fun d => !(g d).isEmpty).map f := by
    rw [mapped]
    clear distinct placed each mapped
    induction ds with
    | nil => rfl
    | cons d ds ih =>
      rw [flatMap_cons, filter_cons, ih]
      cases g d <;> simp
  rw [← flatMap_filter] at each
  obtain ⟨held, flat⟩ := runs_placed (placed_filter placed) each
  have own := pick_own [] distinct (by simp) held fun d none => by
    have empty : g d = [] := by simpa using none
    rw [empty]
    exact .nil
  rw [owners, map_map, map_map]
  exact ⟨own.1, own.2.trans flat⟩

end

/-- A type and its members as the tables have them, each row with its number. -/
structure Listing where
  row : Row.TypeDef × Nat
  fields : List (Row.Field × Nat)
  /-- Each method with its parameters. -/
  methods : List ((Row.MethodDef × List (Row.Param × Nat)) × Nat)
  properties : List (Row.Property × Nat)
  events : List (Row.Event × Nat)

namespace Tables

variable (tables : Tables)

def numbered (t : Table) : List (t.Row × Nat) := (tables.rows t).toList.zipIdx 1

def paramRuns : List (List (Row.Param × Nat)) :=
  runs ((tables.rows .methodDef).toList.map (·.paramList.number)) (tables.numbered .param)

def fieldRuns : List (List (Row.Field × Nat)) :=
  runs ((tables.rows .typeDef).toList.map (·.fieldList.number)) (tables.numbered .field)

def methodRuns : List (List ((Row.MethodDef × List (Row.Param × Nat)) × Nat)) :=
  runs ((tables.rows .typeDef).toList.map (·.methodList.number))
    (((tables.rows .methodDef).toList.zip tables.paramRuns).zipIdx 1)

def propertiesOf : Nat → List (Row.Property × Nat) :=
  let maps := (tables.rows .propertyMap).toList
  pick ((maps.map (·.parent.number)).zip
    (runs (maps.map (·.propertyList.number)) (tables.numbered .property)))

def eventsOf : Nat → List (Row.Event × Nat) :=
  let maps := (tables.rows .eventMap).toList
  pick ((maps.map (·.parent.number)).zip
    (runs (maps.map (·.eventList.number)) (tables.numbered .event)))

def listing : List Listing :=
  ((tables.numbered .typeDef).zip (tables.fieldRuns.zip tables.methodRuns)).map fun x =>
    { row := x.1
      fields := x.2.1
      methods := x.2.2
      properties := tables.propertiesOf x.1.2
      events := tables.eventsOf x.1.2 }

@[simp]
theorem length_fieldRuns : tables.fieldRuns.length = (tables.rows .typeDef).size := by
  simp [fieldRuns, length_runs]

@[simp]
theorem length_methodRuns : tables.methodRuns.length = (tables.rows .typeDef).size := by
  simp [methodRuns, length_runs]

theorem length_paramRuns : tables.paramRuns.length = (tables.rows .methodDef).toList.length := by
  simp [paramRuns, length_runs]

theorem rows_listing : tables.listing.map (·.row) = tables.numbered .typeDef :=
  ext_getElem (by simp [listing, numbered]) (by simp [listing])

theorem fields_listing : tables.listing.map (·.fields) = tables.fieldRuns :=
  ext_getElem (by simp [listing, numbered]) (by simp [listing])

theorem methods_listing : tables.listing.map (·.methods) = tables.methodRuns :=
  ext_getElem (by simp [listing, numbered]) (by simp [listing])

theorem properties_listing : tables.listing.map (·.properties) =
    (tables.numbered .typeDef).map (tables.propertiesOf ·.2) :=
  ext_getElem (by simp [listing, numbered]) (by simp [listing])

theorem events_listing : tables.listing.map (·.events) =
    (tables.numbered .typeDef).map (tables.eventsOf ·.2) :=
  ext_getElem (by simp [listing, numbered]) (by simp [listing])

end Tables

theorem Method.length_described (m : Method) : m.described.length = Numbering.paramCount m := by
  simp [described, Numbering.paramCount]

namespace Numbering.Counters

variable {c : Counters} {ts : List TypeInfo}

theorem map_place (next : Counters → Nat) (first : TypeRows → Nat) {size : TypeInfo → Nat}
    (step : ∀ c t, next (c.add t) = next c + size t := by intros; rfl)
    (here : ∀ c t, first (c.rows t) = next c := by intros; rfl) :
    (c.place ts).map (fun d => first d.rows) =
      starts (next c) ((c.place ts).map fun d => size d.info) := by
  induction ts generalizing c with
  | nil => rfl
  | cons t ts ih => simp only [place, map_cons, starts, here, ← step, ih]

theorem row_place : (c.place ts).map (·.rows.row) = List.range' c.type ts.length := by
  induction ts generalizing c with
  | nil => rfl
  | cons t ts ih =>
    rw [place, map_cons, ih]
    rfl

theorem length_place : (c.place ts).length = ts.length := by
  induction ts generalizing c with
  | nil => rfl
  | cons t ts ih => rw [place, length_cons, length_cons, ih]

theorem params_rows (c : Counters) (t : TypeInfo) :
    (t.methods.toList.zip (c.rows t).firstParams.toList).map (·.1) = t.methods.toList ∧
      (t.methods.toList.zip (c.rows t).firstParams.toList).map (·.2) =
        starts c.param (t.methods.toList.map paramCount) :=
  ⟨map_fst_zip (by simp [rows, length_starts]), map_snd_zip (by simp [rows, length_starts])⟩

theorem params_place :
    ((c.place ts).flatMap fun d => d.info.methods.toList.zip d.rows.firstParams.toList).map (·.2) =
      starts c.param (((c.place ts).flatMap fun d =>
        d.info.methods.toList.zip d.rows.firstParams.toList).map (·.1.described.length)) := by
  simp only [Method.length_described]
  induction ts generalizing c with
  | nil => rfl
  | cons t ts ih =>
    obtain ⟨methods, firsts⟩ := params_rows c t
    have counts : (t.methods.toList.zip (c.rows t).firstParams.toList).map (paramCount ·.1) =
        t.methods.toList.map paramCount := by
      conv_rhs => rw [← methods, map_map]
      rfl
    rw [place, flatMap_cons, map_append, map_append, ih, starts_append, firsts, counts]
    rfl

theorem methods_place : ∀ d ∈ c.place ts,
    (d.info.methods.toList.zip d.rows.firstParams.toList).map (·.1) = d.info.methods.toList ∧
      d.info.methods.toList.length = d.rows.firstParams.toList.length := by
  induction ts generalizing c with
  | nil => simp [place]
  | cons t ts ih =>
    refine forall_mem_cons.2 ⟨⟨(params_rows c t).1, ?_⟩, ih⟩
    simp [rows, length_starts]

theorem counts_place : ∀ d ∈ c.place ts,
    d.rows.fieldCount = d.info.fields.size ∧ d.rows.methodCount = d.info.methods.size := by
  induction ts generalizing c with
  | nil => simp [place]
  | cons t ts ih => exact forall_mem_cons.2 ⟨⟨rfl, rfl⟩, ih⟩

end Numbering.Counters

/-- The listing of a type has the rows that describe it and its members, in their order, and the
numbers that they were given. -/
structure Listing.Describes (src : Source) (strings : StringHeap) (blobs : BlobHeap)
    (d : Definition) (l : Listing) : Prop where
  row : l.row.2 = d.rows.row
  type : d.info.DescribedBy src strings l.row.1
  fields : List.Forall₂ (fun x y => y.2 = d.rows.firstField + x.2 ∧
    x.1.DescribedBy src strings blobs y.1) d.info.fields.toList.zipIdx l.fields
  methods : List.Forall₂ (fun x y => y.2 = d.rows.firstMethod + x.2 ∧
    x.1.DescribedBy src strings blobs y.1.1 ∧ ∃ first, d.rows.firstParams[x.2]? = some first ∧
      List.Forall₂ (fun x y => y.2 = first + x.2 ∧ x.1.1.DescribedBy strings x.1.2 y.1)
        x.1.described.zipIdx y.1.2) d.info.methods.toList.zipIdx l.methods
  properties : List.Forall₂ (fun x y => y.2 = d.rows.firstProperty + x.2 ∧
    x.1.DescribedBy src strings blobs y.1) d.info.properties.toList.zipIdx l.properties
  events : List.Forall₂ (fun x y => y.2 = d.rows.firstEvent + x.2 ∧
    x.1.DescribedBy src strings y.1) d.info.events.toList.zipIdx l.events

/-- The rows that are looked up for a type and for its members are those in the listing. -/
structure Listing.Found (n : Numbering) (id : TypeId) (l : Listing) : Prop where
  type : n.typeRow id = .ok l.row.2
  fields {i : Nat} {y : Row.Field × Nat} : l.fields[i]? = some y → n.fieldRow ⟨id, i⟩ = .ok y.2
  methods {i : Nat} {y : (Row.MethodDef × List (Row.Param × Nat)) × Nat} :
    l.methods[i]? = some y → n.methodRow ⟨id, i⟩ = .ok y.2

theorem Listing.Describes.found {src : Source} {strings : StringHeap} {blobs : BlobHeap}
    {d : Definition} {l : Listing} (h : l.Describes src strings blobs d) {n : Numbering} {id : TypeId}
    (known : n.rows? id = some d.rows) (fieldCount : d.rows.fieldCount = d.info.fields.size)
    (methodCount : d.rows.methodCount = d.info.methods.size) : l.Found n id where
  type := by rw [Numbering.typeRow, known, h.row]
  fields {i y} hy := by
    obtain ⟨f, here, number, _⟩ := getElem?_of_forall₂ h.fields hy
    have inside : i < d.rows.fieldCount := by
      rw [fieldCount]
      exact (Array.getElem?_eq_some_iff.1 (by simpa using here)).1
    simp [Numbering.fieldRow, Numbering.fieldRow?, known, inside, number]
  methods {i y} hy := by
    obtain ⟨m, here, number, _⟩ := getElem?_of_forall₂ h.methods hy
    have inside : i < d.rows.methodCount := by
      rw [methodCount]
      exact (Array.getElem?_eq_some_iff.1 (by simpa using here)).1
    simp [Numbering.methodRow, Numbering.methodRow?, known, inside, number]

/-- Every row of the tables of definitions is listed, once and in its place. -/
structure Tables.Listed (tables : Tables) : Prop where
  types : tables.listing.map (·.row) = tables.numbered .typeDef
  fields : tables.listing.flatMap (·.fields) = tables.numbered .field
  methods : (tables.listing.flatMap (·.methods)).map (fun x => (x.1.1, x.2)) =
    tables.numbered .methodDef
  params : (tables.listing.flatMap (·.methods)).flatMap (·.1.2) = tables.numbered .param
  properties : tables.listing.flatMap (·.properties) = tables.numbered .property
  events : tables.listing.flatMap (·.events) = tables.numbered .event

namespace Session.Lists

variable {src : Source} {s : Session} (lists : s.Lists src) {ts : List TypeInfo}
  (placed : src.definitions = ({} : Numbering.Counters).place ts)

include lists placed

theorem fieldRuns :
    List.Forall₂ (fun d => Run (·.DescribedBy src s.strings s.blobs ·) d.rows.firstField
        d.info.fields.toList) src.definitions s.tables.fieldRuns ∧
      s.tables.fieldRuns.flatten = s.tables.numbered .field := by
  rw [Tables.fieldRuns, map_eq_of_forall₂ lists.types fun _ _ h => h.2.1]
  refine runs_placed ?_ lists.fields
  rw [placed]
  exact map_place (·.field) (·.firstField)

theorem paramRuns :
    List.Forall₂ (fun m => Run (fun x y => x.1.DescribedBy s.strings x.2 y) m.2 m.1.described)
        (src.definitions.flatMap fun d => d.info.methods.toList.zip d.rows.firstParams.toList)
        s.tables.paramRuns ∧
      s.tables.paramRuns.flatten = s.tables.numbered .param := by
  have same : (src.definitions.flatMap fun d =>
      d.info.methods.toList.zip d.rows.firstParams.toList).flatMap (·.1.described) =
        src.definitions.flatMap fun d => d.info.methods.toList.flatMap (·.described) := by
    rw [flatMap_assoc]
    refine flatMap_congr fun d hd => ?_
    have methods := (methods_place d (placed ▸ hd)).1
    conv_rhs => rw [← methods, flatMap_map]
  have each := lists.params
  rw [← same] at each
  rw [Tables.paramRuns, map_eq_of_forall₂ lists.methods fun _ _ h => h.2]
  refine runs_placed ?_ each
  rw [placed]
  exact params_place

theorem methodRuns :
    List.Forall₂ (fun d run => List.Forall₂ (fun x y => y.2 = d.rows.firstMethod + x.2 ∧
        x.1.DescribedBy src s.strings s.blobs y.1.1 ∧ ∃ first, d.rows.firstParams[x.2]? = some first ∧
          Run (fun x y => x.1.DescribedBy s.strings x.2 y) first x.1.described y.1.2)
            d.info.methods.toList.zipIdx run) src.definitions s.tables.methodRuns ∧
      s.tables.methodRuns.flatten =
        ((s.tables.rows .methodDef).toList.zip s.tables.paramRuns).zipIdx 1 := by
  have each := forall₂_zip lists.methods (lists.paramRuns placed).1
  rw [Tables.methodRuns, map_eq_of_forall₂ lists.types fun _ _ h => h.2.2]
  have sizes : ∀ d ∈ src.definitions,
      d.info.methods.toList.length = d.rows.firstParams.toList.length := fun d hd =>
    (methods_place d (placed ▸ hd)).2
  have lengths : (src.definitions.map fun d =>
      (d.info.methods.toList.zip d.rows.firstParams.toList).length) =
        src.definitions.map fun d => d.info.methods.size :=
    map_congr_left fun d hd => by simp [← sizes d hd]
  have starts : src.definitions.map (·.rows.firstMethod) = starts 1 (src.definitions.map fun d =>
      (d.info.methods.toList.zip d.rows.firstParams.toList).length) := by
    rw [lengths, placed]
    exact map_place (·.method) (·.firstMethod)
  obtain ⟨owned, flat⟩ := runs_placed starts each
  refine ⟨?_, flat⟩
  refine ((forall₂_and_left _ _).2 ⟨sizes, owned⟩).imp fun d run h => ?_
  refine (forall₂_zip_left h.1 h.2).imp fun x y h => ?_
  obtain ⟨first, known, number, ⟨described, _⟩, params⟩ := h
  exact ⟨number, described, first, by simpa using known, params⟩

theorem numbered_typeDef :
    List.Forall₂ (fun d y => d.info.DescribedBy src s.strings y.1 ∧ y.2 = d.rows.row ∧
      y.1.methodList.number = d.rows.firstMethod) src.definitions (s.tables.numbered .typeDef) := by
  have length : ts.length = (s.tables.rows .typeDef).toList.length := by
    rw [← lists.types.length_eq, placed, length_place]
  have numbers : List.Forall₂ (fun d k => k = d.rows.row) src.definitions
      (List.range' 1 (s.tables.rows .typeDef).toList.length) := by
    have rows := @Numbering.Counters.row_place {} ts
    rw [← placed, length] at rows
    rw [← rows, forall₂_map_right_iff, forall₂_same]
    exact fun _ _ => rfl
  rw [Tables.numbered, zipIdx_eq_zip_range']
  exact (forall₂_zip lists.types numbers).imp fun _ _ h => ⟨h.1.1, h.2, h.1.2.2⟩

omit lists in
theorem distinct_rows : (src.definitions.map (·.rows.row)).Nodup := by
  rw [placed, row_place]
  exact nodup_range'

theorem propertyRuns :
    List.Forall₂ (fun d => Run (·.DescribedBy src s.strings s.blobs ·) d.rows.firstProperty
        d.info.properties.toList)
        src.definitions (src.definitions.map (s.tables.propertiesOf ·.rows.row)) ∧
      (src.definitions.map (s.tables.propertiesOf ·.rows.row)).flatten =
        s.tables.numbered .property := by
  refine pick_placed (μ := Row.PropertyMap) (·.parent.number) (·.propertyList.number)
    (fun d => ⟨⟨d.rows.row⟩, ⟨d.rows.firstProperty⟩⟩) (distinct_rows placed) ?_ lists.properties ?_
  · rw [placed]
    exact map_place (·.property) (·.firstProperty)
  · simp [lists.propertyMaps, Definition.propertyMap]

theorem eventRuns :
    List.Forall₂ (fun d => Run (·.DescribedBy src s.strings ·) d.rows.firstEvent
        d.info.events.toList) src.definitions (src.definitions.map (s.tables.eventsOf ·.rows.row)) ∧
      (src.definitions.map (s.tables.eventsOf ·.rows.row)).flatten = s.tables.numbered .event := by
  refine pick_placed (μ := Row.EventMap) (·.parent.number) (·.eventList.number)
    (fun d => ⟨⟨d.rows.row⟩, ⟨d.rows.firstEvent⟩⟩) (distinct_rows placed) ?_ lists.events ?_
  · rw [placed]
    exact map_place (·.event) (·.firstEvent)
  · simp [lists.eventMaps, Definition.eventMap]

theorem describes_listing :
    List.Forall₂ (Listing.Describes src s.strings s.blobs) src.definitions s.tables.listing := by
  have properties := (lists.propertyRuns placed).1
  have events := (lists.eventRuns placed).1
  rw [forall₂_map_right_iff, forall₂_same] at properties events
  have rows := forall₂_zip (lists.numbered_typeDef placed)
    (forall₂_zip (lists.fieldRuns placed).1 (lists.methodRuns placed).1)
  rw [Tables.listing, forall₂_map_right_iff]
  refine ((forall₂_and_left _ _).2 ⟨fun d hd => And.intro (properties d hd) (events d hd),
    rows⟩).imp fun d x h => ?_
  obtain ⟨⟨ownProperties, ownEvents⟩, ⟨type, row, _⟩, fields, methods⟩ := h
  rw [← row] at ownProperties ownEvents
  exact ⟨row, type, fields, methods, ownProperties, ownEvents⟩

theorem listed : s.tables.Listed := by
  have types := lists.numbered_typeDef placed
  have length := s.tables.length_paramRuns
  have methods : s.tables.listing.flatMap (·.methods) =
      ((s.tables.rows .methodDef).toList.zip s.tables.paramRuns).zipIdx 1 := by
    rw [List.flatMap, Tables.methods_listing, (lists.methodRuns placed).2]
  refine ⟨s.tables.rows_listing, ?_, ?_, ?_, ?_, ?_⟩
  · rw [List.flatMap, Tables.fields_listing, (lists.fieldRuns placed).2]
  · have rows : ((s.tables.rows .methodDef).toList.zip s.tables.paramRuns).map (·.1) =
        (s.tables.rows .methodDef).toList := map_fst_zip (Nat.le_of_eq length.symm)
    rw [methods, Tables.numbered]
    conv_rhs => rw [← rows, zipIdx_map]
    rfl
  · have runs : ((s.tables.rows .methodDef).toList.zip s.tables.paramRuns).map (·.2) =
        s.tables.paramRuns := map_snd_zip (Nat.le_of_eq length)
    rw [methods, ← (lists.paramRuns placed).2, List.flatMap]
    conv_rhs => rw [← runs, ← zipIdx_map_fst 1 (List.zip _ _), map_map]
    rfl
  · rw [List.flatMap, Tables.properties_listing, ← (lists.propertyRuns placed).2,
      map_eq_of_forall₂ types fun d y h => by rw [h.2.1]]
  · rw [List.flatMap, Tables.events_listing, ← (lists.eventRuns placed).2,
      map_eq_of_forall₂ types fun d y h => by rw [h.2.1]]

end Session.Lists

namespace Module

open Cil.Numbering

theorem member_runs_faithful {σ : Type} {m : Module} {options : Options}
    {writer : Option (SymbolWriter σ)} {image : Image} {state state' : σ}
    (h : (m.assemble options writer).run state = (.ok image, state')) :
    ∃ n, Numbering.ofModule m = .ok n ∧
      n.order.Nodup ∧ (∀ id, id ∈ n.order ↔ ∃ t, m.type? id = some t ∧ t.isDefined = true) ∧
      List.Forall₂ (fun id l => l.Found n id ∧ ∃ d, m.type? id = some d.info ∧
        n.rows? id = some d.rows ∧ l.Describes ⟨m, n⟩ image.strings image.blobs d)
        n.order image.tables.listing ∧
      image.tables.Listed := by
  obtain ⟨symbols, made⟩ := image_of_assemble h
  obtain ⟨n, key, area, s, entryPoint, numbering, ran, _, rfl⟩ := image_eq_ok made
  obtain ⟨order, ts, placed, assigned⟩ := Source.definitions_eq_place numbering
  have lists := Session.lists_of_emit ⟨m, n⟩ key ran
  refine ⟨n, numbering, order.nodup, fun id => order.mem_iff, ?_, lists.listed placed⟩
  refine (forall₂_comp assigned (lists.describes_listing placed)).imp fun id l h => ?_
  obtain ⟨d, hd, ⟨info, rows⟩, describes⟩ := h
  obtain ⟨fieldCount, methodCount⟩ := Counters.counts_place d (placed ▸ hd)
  exact ⟨describes.found rows fieldCount methodCount, d, info, rows, describes⟩

/-- A type with members of all kinds, behind a type that is nested in it, one of another assembly that
has members too, and one without members. -/
def gallery : Module where
  name := "Gallery"
  types := #[
    .globals,
    { name := "Corner"
      declaringType := some ⟨3⟩
      fields := #[{ name := "angle" }]
      properties := #[{ name := "Angle" }] },
    { name := "Handler", scope := .assembly ⟨0⟩, methods := #[{ name := "Invoke" }] },
    { name := "Shape"
      fields := #[{ name := "width" }, { name := "height" }]
      methods := #[
        { name := "Area"
          signature := { isInstance := true, returnType := Primitive.int32 }
          isAbstract := true
          returnInfo := some {} },
        { name := "Scale"
          signature := { isInstance := true, parameters := [Primitive.int32, Primitive.int32] }
          isAbstract := true
          parameters := [{ name := some "x" }, { name := some "y" }] }]
      properties := #[{ name := "Width" }, { name := "Height" }]
      events := #[{ name := "Changed", delegateType := .named ⟨2⟩ }] },
    { name := "Marker" }]
  assemblyReferences := #[{ name := "mscorlib" }]

/-- The listing gives the rows of fields, methods, parameters, properties and events. -/
theorem member_runs_faithful_gallery :
    ∃ image, (gallery.assemble {} none : Service Unit Image).run () = (.ok image, ()) ∧
      (image.tables.listing.map fun l => [l.fields.map (·.2), l.methods.map (·.2),
        l.methods.flatMap (·.1.2.map (·.2)), l.properties.map (·.2), l.events.map (·.2)]) = [
        [[], [], [], [], []],
        [[1, 2], [1, 2], [1, 2, 3], [1, 2], [1]],
        [[3], [], [], [3], []],
        [[], [], [], [], []]] ∧
      ∃ n, Numbering.ofModule gallery = .ok n ∧
        n.order.Nodup ∧ (∀ id, id ∈ n.order ↔ ∃ t, gallery.type? id = some t ∧ t.isDefined = true) ∧
        List.Forall₂ (fun id l => l.Found n id ∧ ∃ d, gallery.type? id = some d.info ∧
          n.rows? id = some d.rows ∧ l.Describes ⟨gallery, n⟩ image.strings image.blobs d)
          n.order image.tables.listing ∧
        image.tables.Listed := by
  refine (exists_assembled ?_).imp fun _ h => ⟨h.1, h.2, member_runs_faithful h.1⟩
  decide +kernel

end Module
end Cil
