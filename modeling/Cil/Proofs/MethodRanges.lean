import Cil.Proofs.MemberRuns

/-!
Where the encoded methods stand. The methods of a module have consecutive rows in the order in which
their bodies are compiled; each body is appended at a multiple of four bytes and its range is noted at
the row of its method, so that in the end each method with a body has the range of its own encoding.
-/

namespace Cil

open List Source

/-- A method in its final form. -/
structure EncodedMethod where
  body : MethodBody
  symbols : Option MethodSymbols
  encoding : Bytes

namespace CodeArea

def add (area : CodeArea) (row : Nat) : Option EncodedMethod → CodeArea
  | none => area
  | some e => area.append row e.encoding e.symbols

def next (area : CodeArea) : Nat := area.bytes.size + Bytes.padding 4 area.bytes.size

theorem next_mod (area : CodeArea) : area.next % 4 = 0 := by
  rw [next, Bytes.padding]
  omega

theorem bytes_append (area : CodeArea) (row : Nat) (encoding : Bytes) (symbols : Option MethodSymbols) :
    (area.append row encoding symbols).bytes.toList =
      (area.bytes.toList ++ Bytes.zeros (Bytes.padding 4 area.bytes.size)) ++ encoding := by
  simp [append]

theorem ranges_append (area : CodeArea) (row : Nat) (encoding : Bytes)
    (symbols : Option MethodSymbols) :
    (area.append row encoding symbols).ranges.toList =
      area.ranges.toList.set (row - 1) (some (area.next, area.next + encoding.length)) := by
  have start : (area.bytes ++ Bytes.zeros (Bytes.padding 4 area.bytes.size)).size = area.next := by
    rw [← Array.length_toList, Array.toList_appendList]
    simp [next, Bytes.zeros]
  have stop : (area.append row encoding symbols).bytes.size = area.next + encoding.length := by
    rw [← Array.length_toList, bytes_append]
    simp [next, Bytes.zeros, Nat.add_assoc]
  simp only [append] at stop ⊢
  rw [stop, start, Array.toList_setIfInBounds]

end CodeArea

theorem Image.methodBody?_of_range {image : Image} {i start : Nat} {encoding : Bytes}
    (ranged : image.bodyRanges.toList[i]? = some (some (start, start + encoding.length)))
    (there : encoding <+: image.bodies.toList.drop start) :
    image.methodBody? (i + 1) = some encoding := by
  rw [Array.getElem?_toList] at ranged
  rw [methodBody?, ranged, Option.join_some, Option.map_some]
  dsimp only
  rw [Array.toList_extract, extract_eq_take_drop, Nat.add_sub_cancel_left,
    ← prefix_iff_eq_take.1 there]

namespace Compile

variable (src : Source) (keepsSymbols : Bool)

variable {n : Numbering} {m : Module} {s s' : Session}

variable {done : List (Option EncodedMethod)} {o : Option EncodedMethod} {range : Option (Nat × Nat)}

/-- The bytes are what the body of a method is encoded as. -/
def Encodes (x : Method × Nat) (b : Body) (encoding : Bytes) : Prop :=
  ∃ encoded symbols s s', (encodeBody src keepsSymbols x.2 x.1 b).Runs s (encoded, symbols) s' ∧
    encoded.encode = .ok encoding

/-- The encoding of a method stands in its range, which starts at a multiple of four bytes; a method
without a body has none. -/
def StandsIn (bytes : Bytes) (x : Method × Nat) : Option (Nat × Nat) → Prop
  | none => x.1.body = none
  | some (start, stop) => ∃ b encoding, x.1.body = some b ∧ Encodes src keepsSymbols x b encoding ∧
      start % 4 = 0 ∧ stop = start + encoding.length ∧ encoding <+: bytes.drop start

variable (final : Session)

/-- What a method is encoded as, on the way to the final session; one without a body is not. -/
def Becomes (x : Method × Nat) : Option EncodedMethod → Prop
  | none => x.1.body = none
  | some e => ∃ b s s', x.1.body = some b ∧
      (encodeBody src keepsSymbols x.2 x.1 b).Runs s (e.body, e.symbols) s' ∧
      e.body.encode = .ok e.encoding ∧ s.Catalogued src ∧ s'.Before final

/-- Methods that are encoded one after another, from one area to the next. -/
inductive Compiled : CodeArea → List (Method × Nat) → List (Option EncodedMethod) → CodeArea → Prop
  | nil (area : CodeArea) : Compiled area [] [] area
  | cons {area area' : CodeArea} {x : Method × Nat} {o : Option EncodedMethod}
      {xs : List (Method × Nat)} {os : List (Option EncodedMethod)}
        (first : Becomes src keepsSymbols final x o)
      (others : Compiled (area.add x.2 o) xs os area') : Compiled area (x :: xs) (o :: os) area'

variable {src keepsSymbols final} {area area' : CodeArea} {row : Nat} {bytes : Bytes} {rest : Nat}
  {xs : List (Method × Nat)} {os : List (Option EncodedMethod)} {key : Option Bytes}

namespace Compiled

variable {area area' area'' : CodeArea} {xs ys : List (Method × Nat)}
  {os os' : List (Option EncodedMethod)}

theorem append (h : Compiled src keepsSymbols final area xs os area')
    (h' : Compiled src keepsSymbols final area' ys os' area'') :
    Compiled src keepsSymbols final area (xs ++ ys) (os ++ os') area'' := by
  induction h with
  | nil => exact h'
  | cons first _ ih => exact .cons first (ih h')

theorem becomes (h : Compiled src keepsSymbols final area xs os area') :
    List.Forall₂ (Becomes src keepsSymbols final) xs os := by
  induction h with
  | nil => exact .nil
  | cons first _ ih => exact .cons first ih

theorem symbols (h : Compiled src keepsSymbols final area xs os area') :
    area'.symbols.toList = area.symbols.toList ++ os.filterMap (·.bind (·.symbols)) := by
  induction h with
  | nil => simp
  | @cons _ _ _ o _ _ _ _ ih =>
    rw [ih]
    rcases o with _ | ⟨_, _ | _, _⟩ <;> simp [CodeArea.add, CodeArea.append]

end Compiled

theorem compiled_method {id : MethodId} {m : Method}
    (numbered : src.numbering.methodRow id = .ok row) (cat : s.Catalogued src)
    (run : (method src keepsSymbols area id m).Runs s area' s') (before : s'.Before final) :
    ∃ o, Becomes src keepsSymbols final (m, row) o ∧ area' = area.add row o := by
  unfold Compile.method at run
  split at run
  case h_1 empty =>
    obtain ⟨rfl, rfl⟩ := Emit.runs_pure.1 run
    exact ⟨none, empty, rfl⟩
  case h_2 b held =>
    split at run
    · simp at run
    · simp only [numbered, Emit.runs_bind, Emit.runs_ofExcept, Emit.runs_ofEncoding,
        Emit.runs_pure] at run
      obtain ⟨_, _, ⟨same, rfl⟩, ⟨encoded, symbols⟩, s₁, compiled, encoding, _, ⟨encodes, rfl⟩,
        rfl, rfl⟩ := run
      obtain rfl := Except.ok.inj same
      exact ⟨some ⟨encoded, symbols, encoding⟩, ⟨b, s, s₁, held, compiled, encodes, cat, before⟩, rfl⟩

theorem permits_all : Permits (fun _ => True) fun _ => True := .of_references fun _ => trivial

theorem compiled_methods {parent : TypeId} {index : Nat} {ms : List Method}
    (rows : ∀ i < ms.length, src.numbering.methodRow ⟨parent, index + i⟩ = .ok (row + i))
    (cat : s.Catalogued src) (run : (methods src keepsSymbols parent index area ms).Runs s area' s')
    (before : s'.Before final) :
    ∃ os, Compiled src keepsSymbols final area (ms.zipIdx row) os area' := by
  induction ms generalizing index row area s with
  | nil =>
    obtain ⟨rfl, rfl⟩ := Emit.runs_pure.1 run
    exact ⟨[], .nil area⟩
  | cons m ms ih =>
    obtain ⟨area₁, s₁, first, others⟩ := Emit.runs_bind.1 run
    obtain ⟨cat₁, _⟩ := (Emit.Writes.method permits_all ..).keeps cat first
    obtain ⟨_, before₁⟩ := (Emit.Writes.methodsFrom permits_all ..).keeps cat₁ others
    obtain ⟨o, becomes, rfl⟩ := compiled_method (rows 0 (by simp)) cat first (before₁.trans before)
    have later : ∀ i < ms.length,
        src.numbering.methodRow ⟨parent, index + 1 + i⟩ = .ok (row + 1 + i) := by
      intro i hi
      rw [Nat.add_assoc index, Nat.add_assoc row, Nat.add_comm 1 i]
      exact rows (i + 1) (Nat.succ_lt_succ hi)
    obtain ⟨os, rest⟩ := ih later cat₁ others
    exact ⟨o :: os, .cons becomes rest⟩

open Cil.Numbering

theorem rows_methods (c : Counters) (ts : List TypeInfo) :
    ((c.place ts).flatMap (·.methods)).map (·.2) =
      List.range' c.method ((c.place ts).flatMap (·.methods)).length := by
  induction ts generalizing c with
  | nil => rfl
  | cons t ts ih =>
    have own : ((⟨t, c.rows t⟩ : Definition).methods).map (·.2) =
        List.range' c.method (⟨t, c.rows t⟩ : Definition).methods.length := by
      rw [Definition.methods, zipIdx_map_snd, length_zipIdx]
      rfl
    have next : (c.add t).method = c.method + (⟨t, c.rows t⟩ : Definition).methods.length := by
      simp [Definition.methods, Counters.add]
    rw [Counters.place, flatMap_cons, map_append, own, ih, next, length_append,
      List.range'_append_1]

theorem compiled_typesMethods {c : Counters} {ts : List TypeInfo} {order : List TypeId}
    (assigned : List.Forall₂ (Assigned src.module src.numbering.rows) order (c.place ts))
    (cat : s.Catalogued src) (run : (typesMethods src keepsSymbols area order).Runs s area' s')
    (before : s'.Before final) :
    ∃ os, Compiled src keepsSymbols final area ((c.place ts).flatMap (·.methods)) os area' := by
  induction ts generalizing c order area s with
  | nil =>
    obtain rfl := forall₂_nil_right_iff.1 assigned
    obtain ⟨rfl, rfl⟩ := Emit.runs_pure.1 run
    exact ⟨[], .nil area⟩
  | cons t ts ih =>
    rw [Counters.place] at assigned ⊢
    obtain ⟨id, order, ⟨info, rows⟩, others, rfl⟩ := forall₂_cons_right_iff.1 assigned
    have known : src.module.typeInfo id = .ok t := by
      rw [Module.typeInfo, info]
    simp only [typesMethods, known, Emit.runs_bind, Emit.runs_ofExcept] at run
    obtain ⟨_, _, ⟨same, rfl⟩, area₁, s₁, first, later⟩ := run
    obtain rfl := Except.ok.inj same
    have numbered : ∀ i < t.methods.toList.length,
        src.numbering.methodRow ⟨id, 0 + i⟩ = .ok ((c.rows t).firstMethod + i) := by
      intro i hi
      have found : src.numbering.rows? id = some (c.rows t) := rows
      have inside : i < (c.rows t).methodCount := by simpa [Counters.rows] using hi
      simp [Numbering.methodRow, Numbering.methodRow?, found, inside]
    obtain ⟨cat₁, _⟩ := (Emit.Writes.methodsFrom permits_all ..).keeps cat first
    obtain ⟨_, before₁⟩ := (Emit.Writes.typesMethods permits_all ..).keeps cat₁ later
    obtain ⟨os, own⟩ := compiled_methods numbered cat first (before₁.trans before)
    obtain ⟨os', rest⟩ := ih others cat₁ later
    exact ⟨os ++ os', own.append rest⟩

theorem methodCount_eq (numbering : Numbering.ofModule m = .ok n) :
    n.methodCount = ((definitions ⟨m, n⟩).map (·.info.methods.size)).sum := by
  obtain ⟨ts, placed⟩ := placed_of_ofModule numbering
  have infos := Counters.infos_place {} ts
  rw [← placed.definitions] at infos
  rw [placed.count, ← infos, map_map]
  rfl

/-- The encoding of a method stands in its range. -/
inductive Stands (bytes : Bytes) : Option EncodedMethod → Option (Nat × Nat) → Prop
  | nowhere : Stands bytes none none
  | somewhere {e : EncodedMethod} {start : Nat} (aligned : start % 4 = 0)
      (stands : e.encoding <+: bytes.drop start) :
      Stands bytes (some e) (some (start, start + e.encoding.length))

theorem Stands.mono {bytes' : Bytes} (under : bytes <+: bytes') (h : Stands bytes o range) :
    Stands bytes' o range := by
  cases h with
  | nowhere => exact .nowhere
  | somewhere aligned stands =>
    obtain ⟨more, rfl⟩ := under
    refine .somewhere aligned (stands.trans ?_)
    rw [drop_append]
    exact prefix_append ..

theorem StandsIn.of_stands {x : Method × Nat} (becomes : Becomes src keepsSymbols final x o)
    (h : Stands bytes o range) : StandsIn src keepsSymbols bytes x range := by
  cases h with
  | nowhere => exact becomes
  | somewhere aligned stands =>
    obtain ⟨b, s, s', held, run, encodes, _⟩ := becomes
    exact ⟨b, _, held, ⟨_, _, s, s', run, encodes⟩, aligned, rfl, stands⟩

/-- The methods so far have been placed, and `rest` are to come. -/
def Progress (area : CodeArea) (done : List (Option EncodedMethod)) (rest : Nat) : Prop :=
  ∃ placed, area.ranges.toList = placed ++ List.replicate rest none ∧
    List.Forall₂ (Stands area.bytes.toList) done placed

theorem Progress.add (progress : Progress area done (rest + 1)) (o : Option EncodedMethod) :
    Progress (area.add (done.length + 1) o) (done ++ [o]) rest := by
  obtain ⟨placed, ranges, stands⟩ := progress
  cases o with
  | none =>
    refine ⟨placed ++ [none], ?_, rel_append stands (.cons .nowhere .nil)⟩
    rw [CodeArea.add, ranges, replicate_succ, append_assoc]
    rfl
  | some e =>
    have under : area.bytes.toList <+:
        (area.append (done.length + 1) e.encoding e.symbols).bytes.toList := by
      rw [CodeArea.bytes_append, append_assoc]
      exact prefix_append ..
    have start : area.next = (area.bytes.toList ++
        Bytes.zeros (Bytes.padding 4 area.bytes.size)).length := by
      simp [CodeArea.next, Bytes.zeros]
    have dropped : (area.append (done.length + 1) e.encoding e.symbols).bytes.toList.drop area.next =
        e.encoding := by
      rw [CodeArea.bytes_append, start, drop_left]
    refine ⟨placed ++ [some (area.next, area.next + e.encoding.length)], ?_,
      rel_append (stands.imp fun _ _ h => h.mono under)
        (.cons (.somewhere area.next_mod ⟨[], (append_nil _).trans dropped.symm⟩) .nil)⟩
    rw [CodeArea.add, CodeArea.ranges_append, ranges, Nat.add_sub_cancel, stands.length_eq]
    simp [replicate_succ]

theorem Compiled.progress (h : Compiled src keepsSymbols final area xs os area')
    (progress : Progress area done (xs.length + rest))
    (rows : xs.map (·.2) = List.range' (done.length + 1) xs.length) :
    Progress area' (done ++ os) rest := by
  induction h generalizing done with
  | nil => simpa using progress
  | @cons area _ x o xs os first _ ih =>
    obtain ⟨here, later⟩ := List.cons.inj (by simpa [List.range'_succ] using rows)
    rw [length_cons, Nat.add_right_comm] at progress
    have next : Progress (area.add x.2 o) (done ++ [o]) (xs.length + rest) := by
      rw [here]
      exact progress.add o
    simpa using ih next (by simpa using later)

/-- The bodies of a module are compiled in the order of their rows, before most of what a session holds. -/
theorem compiled_of_emit (numbering : Numbering.ofModule m = .ok n)
    (run : (Module.emit ⟨m, n⟩ key keepsSymbols).Runs (.ofModule m) area final) :
    ∃ os, Compiled ⟨m, n⟩ keepsSymbols final (.ofSize n.methodCount)
      ((definitions ⟨m, n⟩).flatMap (·.methods)) os area := by
  obtain ⟨s₀, started, filled⟩ := Populate.stages_of_emit _ key run
  obtain ⟨_, s₁, named, compiled⟩ := Emit.runs_bind.1 started
  obtain ⟨cat₁, _⟩ := (Emit.Writes.moduleRow ⟨m, n⟩ (A := fun _ => True) trivial m).keeps
    (Session.catalogued_ofModule ⟨m, n⟩ _) named
  obtain ⟨cat₀, _⟩ := (Emit.Writes.bodies permits_all keepsSymbols).keeps cat₁ compiled
  obtain ⟨_, before⟩ :=
    (Populate.writes_passes _ (Populate.pass_of_mem ⟨m, n⟩ key)).keeps cat₀ filled
  obtain ⟨_, ts, placed, assigned⟩ := definitions_eq_place numbering
  rw [placed] at assigned ⊢
  exact compiled_typesMethods assigned cat₁ compiled before

theorem rows_definitions (numbering : Numbering.ofModule m = .ok n) :
    ((definitions ⟨m, n⟩).flatMap (·.methods)).map (·.2) =
      List.range' 1 ((definitions ⟨m, n⟩).flatMap (·.methods)).length := by
  obtain ⟨_, ts, placed, _⟩ := definitions_eq_place numbering
  rw [placed]
  exact rows_methods _ ts

theorem Compiled.ranges (numbering : Numbering.ofModule m = .ok n)
    (h : Compiled ⟨m, n⟩ keepsSymbols final (.ofSize n.methodCount)
      ((definitions ⟨m, n⟩).flatMap (·.methods)) os area) :
    List.Forall₂ (Stands area.bytes.toList) os area.ranges.toList := by
  have count : ((definitions ⟨m, n⟩).flatMap (·.methods)).length = n.methodCount := by
    rw [methodCount_eq numbering, length_flatMap]
    simp [Definition.methods]
  have start : Progress (.ofSize n.methodCount) []
      (((definitions ⟨m, n⟩).flatMap (·.methods)).length + 0) :=
    ⟨[], by simp [CodeArea.ofSize, count], .nil⟩
  obtain ⟨placed, ranges, stands⟩ := h.progress start (rows_definitions numbering)
  rw [ranges]
  simpa using stands

theorem row_of_index (numbers : xs.map (·.2) = List.range' 1 xs.length) {i : Nat}
    (inside : i < xs.length) : (xs.get ⟨i, inside⟩).2 = i + 1 := by
  have number : (xs.map (·.2))[i]? = (List.range' 1 xs.length)[i]? := by rw [numbers]
  simpa [inside, Nat.add_comm] using number

theorem Compiled.stored (numbering : Numbering.ofModule m = .ok n)
    (h : Compiled ⟨m, n⟩ keepsSymbols final (.ofSize n.methodCount)
      ((definitions ⟨m, n⟩).flatMap (·.methods)) os area)
    (image : Image) (bodies : image.bodies = area.bytes) (ranges : image.bodyRanges = area.ranges) :
    List.Forall₂ (fun x o => Becomes ⟨m, n⟩ keepsSymbols final x o ∧
      ∀ e, o = some e → image.methodBody? x.2 = some e.encoding)
      ((definitions ⟨m, n⟩).flatMap (·.methods)) os := by
  obtain ⟨methods, becomes⟩ := forall₂_iff_get.1 h.becomes
  obtain ⟨ranged, stands⟩ := forall₂_iff_get.1 (h.ranges numbering)
  refine forall₂_iff_get.2 ⟨methods, fun i hx ho => ⟨becomes i hx ho, fun e same => ?_⟩⟩
  have here := stands i ho (ranged ▸ ho)
  rw [same] at here
  generalize at? : area.ranges.toList.get ⟨i, ranged ▸ ho⟩ = range at here
  cases here with
  | somewhere aligned there =>
    rw [row_of_index (rows_definitions numbering) hx]
    refine Image.methodBody?_of_range ?_ (bodies ▸ there)
    rw [ranges, ← at?]
    exact List.getElem?_eq_getElem _

/-- A list of methods that are numbered from 1 on has the ranges at their numbers. -/
theorem range_of_row {R : Method × Nat → Option (Nat × Nat) → Prop}
    {ranges : List (Option (Nat × Nat))} (numbers : xs.map (·.2) = List.range' 1 xs.length)
    (h : List.Forall₂ R xs ranges) :
    List.Forall₂ (fun x range => (∃ i, x.2 = i + 1 ∧ ranges[i]? = some range) ∧
    R x range) xs ranges := by
  rw [forall₂_iff_get] at h ⊢
  exact ⟨h.1, fun i inside inside' => ⟨⟨i, row_of_index numbers inside, by simp⟩, h.2 i inside inside'⟩⟩

theorem ranges_of_emit (numbering : Numbering.ofModule m = .ok n)
    (run : (Module.emit ⟨m, n⟩ key keepsSymbols).Runs (.ofModule m) area s) :
    List.Forall₂ (fun x range => (∃ i, x.2 = i + 1 ∧ area.ranges.toList[i]? = some range) ∧
        StandsIn ⟨m, n⟩ keepsSymbols area.bytes.toList x range)
      ((definitions ⟨m, n⟩).flatMap (·.methods)) area.ranges.toList := by
  obtain ⟨os, compiled⟩ := compiled_of_emit numbering run
  refine range_of_row (rows_definitions numbering)
    ((forall₂_comp compiled.becomes (compiled.ranges numbering)).imp fun x range h => ?_)
  obtain ⟨o, _, becomes, stands⟩ := h
  exact .of_stands becomes stands

end Compile
end Cil
