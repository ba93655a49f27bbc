import Cil.Proofs.BodyTokens
import Cil.Proofs.Completion

/-!
Everything in an assembled image resolves: the rows of its tables, its entry point, and the tokens in
its methods.
-/

namespace Cil

open List

variable {m : Module}

/-- Every method of the area is the encoding of a body that resolves. -/
def CodeArea.Resolves (e : Extent) (area : CodeArea) : Prop :=
  ∀ (i start stop : Nat), area.ranges[i]? = some (some (start, stop)) → stop ≤ area.bytes.size ∧
    ∃ body : MethodBody, body.encode = .ok (area.bytes.extract start stop).toList ∧ body.Resolves e

theorem CodeArea.Resolves.mono {e e' : Extent} (h : e.Within e') {area : CodeArea}
    (resolves : area.Resolves e) : area.Resolves e' := by
  intro i start stop range
  obtain ⟨within, body, encoded, held⟩ := resolves i start stop range
  exact ⟨within, body, encoded, held.mono h⟩

theorem CodeArea.Resolves.append {e : Extent} {area : CodeArea} (resolves : area.Resolves e)
    {body : MethodBody} {encoding : Bytes} (encoded : body.encode = .ok encoding)
    (held : body.Resolves e) (row : Nat) (symbols : Option MethodSymbols) :
    (area.append row encoding symbols).Resolves e := by
  intro i start stop range
  simp only [CodeArea.append] at range ⊢
  rw [Array.getElem?_setIfInBounds] at range
  split at range
  · split at range
    · obtain ⟨rfl, rfl⟩ := Prod.mk.inj (Option.some.inj (Option.some.inj range))
      refine ⟨Nat.le_refl _, body, ?_, held⟩
      simp [encoded, extract_eq_take_drop, ← Array.length_toList, ← Nat.add_assoc]
    · cases range
  · obtain ⟨within, body, encoded, held⟩ := resolves i start stop range
    refine ⟨?_, body, ?_, held⟩
    · rw [← Array.length_toList]
      simp
      omega
    · simp only [encoded, Array.toList_extract, extract_eq_take_drop, Array.toList_appendList,
        append_assoc]
      rw [drop_append, take_append_of_le_length (by simp; omega)]

def Fact.area (src : Source) {late : Bool} (area : CodeArea) : Fact late where
  holds s := area.Resolves (s.reach src)
  keeps h held := held.mono (h.reach src)

namespace Gives

variable {src : Source} {late : Bool} {N : List (Fact late)}

theorem method (keepsSymbols : Bool) (area : CodeArea) (id : MethodId) (m : Method)
    (known : .area src area ∈ N) :
    Gives src N (Compile.method src keepsSymbols area id m) fun area => [.area src area] := by
  unfold Compile.method
  split
  case h_1 => exact .pure_of_mem (by simp [known])
  case h_2 b _ =>
    refine .ite (fun _ => .bind_throw) fun _ => .bind_ofExcept fun row _ =>
      .bind (.encodeBody keepsSymbols row m b) fun r =>
      .bind_ofEncoding fun encoding encoded => .pure ?_
    refine forall_mem_singleton.2 fun s facts => ?_
    have body : (Fact.body src r.1 : Fact late).holds s := facts _ (by simp)
    have before : (Fact.area src area : Fact late).holds s := facts _ (by simp [known])
    exact before.append encoded (body encoding encoded) row r.2

theorem methodsOf (keepsSymbols : Bool) (parent : TypeId) (index : Nat) (area : CodeArea)
    (ms : List Method) (known : .area src area ∈ N) :
    Gives src N (Compile.methods src keepsSymbols parent index area ms)
      fun area => [.area src area] := by
  induction ms generalizing N index area with
  | nil => exact .pure_of_mem (by simp [known])
  | cons m ms ih =>
    exact .bind (.method keepsSymbols area ⟨parent, index⟩ m known) fun area =>
      ih (index + 1) area (by simp)

theorem typesMethods (keepsSymbols : Bool) (area : CodeArea) (types : List TypeId)
    (known : .area src area ∈ N) :
    Gives src N (Compile.typesMethods src keepsSymbols area types) fun area => [.area src area] := by
  induction types generalizing N area with
  | nil => exact .pure_of_mem (by simp [known])
  | cons id types ih =>
    exact .bind_ofExcept fun t _ => .bind (.methodsOf keepsSymbols id 0 area _ known) fun area =>
      ih area (by simp)

theorem bodies (keepsSymbols : Bool) :
    Gives src N (Compile.bodies src keepsSymbols) fun area => [.area src area] := by
  refine .assume [.area src (.ofSize src.numbering.methodCount)] (fun _ => ?_)
    (.typesMethods keepsSymbols _ _ (by simp))
  refine forall_mem_singleton.2 fun s i start stop range => ?_
  simp only [CodeArea.ofSize, Array.getElem?_replicate] at range
  split at range <;> cases range

end Gives

theorem Session.sound_ofModule {n : Numbering} (numbered : Source.Numbered ⟨m, n⟩) :
    (Session.ofModule m).Sound ⟨m, n⟩ false := by
  have unmapped {size i row : Nat} : (RowMap.ofSize size).row? i ≠ some row := by
    rw [RowMap.row?, RowMap.ofSize, Array.getElem?_replicate]
    split <;> simp
  refine ⟨numbered, fun {t row} h => ?_, ?_, ?_, ?_, fun h => absurd h unmapped,
    fun h => absurd h unmapped, fun h => absurd h unmapped, fun h => ?_, fun h => ?_⟩
  · cases t <;> simp [Session.ofModule, Tables.rows] at h
  all_goals simp_all [Heap.Kept, Session.ofModule, Session.blobs, Session.userStrings, HeapWriter.heap]

theorem GuidHeap.inside_of_read? {h : GuidHeap} {index : Nat} (known : (h.read? index).isSome) :
    0 < index ∧ 16 * index ≤ h.bytes.toArray.size := by
  cases index with
  | zero => cases known
  | succ i =>
    have inside : i < h.entries.size := by simpa [read?] using known
    have size : h.bytes.length = 16 * h.entries.size := by
      simp [bytes, List.length_flatMap, Nat.mul_comm]
    rw [List.size_toArray, size]
    omega

namespace Module

variable {symbols : List MethodSymbols} {options : Options} {image : Image}

def imageOf (options : Options) (key : Option Bytes) (area : CodeArea) (s : Session)
    (entryPoint : Nat) : Image where
  tables := s.tables
  strings := s.strings
  blobs := s.blobs
  guids := s.guids.bytes.toArray
  userStrings := s.userStrings
  bodies := area.bytes
  bodyRanges := area.ranges
  staticData := s.staticData
  fieldData := s.fieldData
  resources := s.resources
  entryPoint
  metadataVersion := options.metadataVersion
  strongName := key.isSome

theorem image_parts {made : Image × List MethodSymbols} (h : m.image options = .ok made) :
    ∃ n key area s entryPoint, m.publicKey options.keyFile = .ok key ∧ Numbering.ofModule m = .ok n ∧
      (emit ⟨m, n⟩ key options.debugSymbols).Runs (.ofModule m) area s ∧
      Populate.entryPoint ⟨m, n⟩ = .ok entryPoint ∧
      made = (imageOf options key area s entryPoint, area.symbols.toList) := by
  simp only [Module.image, Except.bind_eq_ok] at h
  obtain ⟨key, keyed, n, numbered, rest⟩ := h
  rcases ran : (emit ⟨m, n⟩ key options.debugSymbols).run (.ofModule m) with ⟨result, s⟩
  rw [ran] at rest
  simp only [Except.bind_eq_ok] at rest
  obtain ⟨area, rfl, entryPoint, entry, made⟩ := rest
  exact ⟨n, key, area, s, entryPoint, keyed, numbered, ran, entry, (Except.ok.inj made).symm⟩

theorem image_eq_ok (h : m.image options = .ok (image, symbols)) :
    ∃ n key area s entryPoint, Numbering.ofModule m = .ok n ∧
      (emit ⟨m, n⟩ key options.debugSymbols).Runs (.ofModule (Source.mk m n).module) area s ∧
      Populate.entryPoint ⟨m, n⟩ = .ok entryPoint ∧ image = imageOf options key area s entryPoint := by
  obtain ⟨n, key, area, s, entryPoint, _, numbered, ran, entry, made⟩ := image_parts h
  exact ⟨n, key, area, s, entryPoint, numbered, ran, entry, (Prod.mk.inj made).1⟩

theorem entryPoint_eq_ok {src : Source} (numbered : src.Numbered) {entryPoint : Nat}
    (h : Populate.entryPoint src = .ok entryPoint) : entryPoint = 0 ∨
      ∃ t n, Token.decode entryPoint = .ok (.row t n) ∧ t ∈ [.methodDef, .file] ∧ src.Defines t n := by
  have encoded {token : Token} {value : Nat}
      (h : token.encode.mapError Error.encoding = .ok value) : Token.decode value = .ok token := by
    cases code : token.encode with
    | error e =>
      rw [code] at h
      cases h
    | ok value' =>
      rw [code] at h
      cases h
      exact Token.decode_encode code
  rw [Populate.entryPoint] at h
  split at h
  case h_1 => exact .inl (Except.ok.inj h).symm
  case h_2 method _ =>
    split at h
    case h_1 row known =>
      exact .inr ⟨.methodDef, row, encoded h, by decide, numbered.methodRow? known⟩
    case h_2 => cases h
  case h_3 file _ =>
    obtain ⟨row, known, token⟩ := Except.bind_eq_ok.1 h
    exact .inr ⟨.file, row, encoded token, by decide, Gives.fileRow known⟩

theorem settles_emit (src : Source) (key : Option Bytes) (keepsSymbols : Bool) :
    Settles src [] (emit src key keepsSymbols) fun area => .area src area :: Fact.filled src :=
  .bind_early (.moduleRow _) fun _ => .bind_early (.bodies keepsSymbols) fun area =>
    .bind_late (.all key (by simp)) fun _ => .pure_of_mem fun f hf => by
      rcases mem_cons.1 hf with rfl | filled
      · exact mem_append_right _ (mem_map.2 ⟨.area src area, by simp, rfl⟩)
      · exact mem_append_left _ filled

theorem resolves_of_image (h : m.image options = .ok (image, symbols)) : image.Resolves := by
  obtain ⟨n, key, area, s, entryPoint, numbering, ran, entry, rfl⟩ := image_eq_ok h
  have numbered := Source.numbered_of_ofModule numbering
  obtain ⟨sound, _, facts⟩ := (settles_emit ⟨m, n⟩ key options.debugSymbols).run
    (Session.sound_ofModule numbered) (by simp) ran
  obtain ⟨resolves, filled⟩ := forall_mem_cons.1 facts
  have complete := Source.total_le_count filled
  -- Nothing is left that has a number and no row.
  have within : (s.reach ⟨m, n⟩).Within (imageOf options key area s entryPoint).extent := by
    refine ⟨fun t => Nat.max_le.2 ⟨complete t, Nat.le_refl _⟩, fun {kind offset} held => ?_, id⟩
    cases kind with
    | guids => exact GuidHeap.inside_of_read? held
    | strings | blobs => exact held
  refine ⟨fun hrow => (sound.rows hrow).mono within, ?_, fun {row bytes} hbody => ?_⟩
  · refine (entryPoint_eq_ok numbered entry).imp_right ?_
    rintro ⟨t, row, decoded, member, defines⟩
    exact ⟨t, row, decoded, member, defines.1, Nat.le_trans (Nat.le_of_lt_succ defines.2) (complete t)⟩
  · cases row with
    | zero => cases hbody
    | succ i =>
      obtain ⟨⟨start, stop⟩, range, rfl⟩ := Option.map_eq_some_iff.1 hbody
      obtain ⟨_, body, encoded, held⟩ := resolves i start stop (Option.join_eq_some_iff.1 range)
      exact ⟨body, encoded, held.mono within⟩

theorem image_of_assemble {σ : Type} {writer : Option (SymbolWriter σ)} {state state' : σ}
    (h : (m.assemble options writer).run state = (.ok image, state')) :
    ∃ symbols, m.image options = .ok (image, symbols) := by
  have first : (ExceptT.mk (pure (m.image options)) : Service σ _).run state =
      (m.image options, state) := rfl
  rw [assemble, Service.run_bind, first] at h
  cases made : m.image options with
  | error e =>
    rw [made] at h
    cases h
  | ok result =>
    obtain ⟨image', symbols⟩ := result
    rw [made] at h
    dsimp only at h
    have same {c : Service σ Unit}
        (h : (c >>= fun _ => pure image').run state = (.ok image, state')) : image' = image := by
      rw [Service.run_bind] at h
      rcases told : c.run state with ⟨_ | _, s₁⟩ <;> rw [told] at h
      · cases h
      · exact Except.ok.inj (Prod.mk.inj h).1
    split at h
    · split at h
      · exact ⟨symbols, by rw [same h]⟩
      · cases h
    · exact ⟨symbols, by rw [Except.ok.inj (Prod.mk.inj h).1]⟩

theorem assemble_of_toOption (h : (m.image {}).toOption = some (image, symbols)) :
    (m.assemble {} none : Service Unit Image).run () = (.ok image, ()) := by
  cases made : m.image {} with
  | error e =>
    rw [made] at h
    cases h
  | ok result =>
    rw [made] at h
    obtain rfl := Option.some.inj h
    rw [assemble, made]
    rfl

theorem exists_assembled {β : Type} {f : Image → β} {b : β}
    (h : (m.image {}).toOption.map (fun made => f made.1) = some b) :
    ∃ image, (m.assemble {} none : Service Unit Image).run () = (.ok image, ()) ∧ f image = b := by
  obtain ⟨⟨image, symbols⟩, made, values⟩ := Option.map_eq_some_iff.1 h
  exact ⟨image, assemble_of_toOption made, values⟩

theorem assembled_image_resolves {σ : Type} {m : Module} {options : Options}
    {writer : Option (SymbolWriter σ)} {image : Image} {state state' : σ}
    (h : (m.assemble options writer).run state = (.ok image, state')) : image.Resolves := by
  obtain ⟨symbols, made⟩ := image_of_assemble h
  exact resolves_of_image made

theorem image_courier : ∃ image symbols, (Compile.courier.image {}).toOption = some (image, symbols) := by
  have evaluated : (Compile.courier.image {}).toOption.isSome = true := by decide +kernel
  obtain ⟨⟨image, symbols⟩, made⟩ := Option.isSome_iff_exists.1 evaluated
  exact ⟨image, symbols, made⟩

theorem assembled_image_resolves_courier :
    ∃ image, (Compile.courier.assemble {} none : Service Unit Image).run () = (.ok image, ()) ∧
      image.Resolves := by
  obtain ⟨image, symbols, made⟩ := image_courier
  exact ⟨image, assemble_of_toOption made, assembled_image_resolves (assemble_of_toOption made)⟩

end Module
end Cil
