import Cil.Proofs.MethodRanges
import Cil.Proofs.RecordedSymbols
import Mathlib.Data.List.ReduceOption

/-!
What a symbol writer is told. After the image is complete the methods that have symbols are told in the
order of their tokens: each opens its method and a scope for it, then come its own scopes, then its
points, those of one document at once, and last the scope and the method are closed.
-/

namespace Cil

open List

variable {m : Module}

def SymbolWriter.noting {σ : Type} (writer : SymbolWriter σ) : SymbolWriter (σ × List SymbolCall) :=
  fun image call => ExceptT.mk fun x =>
    let told := (writer image call).run x.1
    (told.1, (told.2, x.2 ++ [call]))

theorem SymbolWriter.run_noting {σ : Type} (writer : SymbolWriter σ) (image : Image) (call : SymbolCall)
    (s : σ) (calls : List SymbolCall) :
    (writer.noting image call).run (s, calls) =
      (((writer image call).run s).1, (((writer image call).run s).2, calls ++ [call])) :=
  rfl

namespace Service

variable {σ α : Type}

/-- Whenever the action succeeds, the other one does so too, and notes calls as described. -/
def Notes (c : Service σ Unit) (c' : Service (σ × List SymbolCall) Unit) (P : List SymbolCall → Prop) :
    Prop :=
  ∀ s s', c.run s = (.ok (), s') →
    ∃ calls, P calls ∧ ∀ log, c'.run (s, log) = (.ok (), (s', log ++ calls))

theorem Notes.forM {l : List α} {f : α → Service σ Unit} {f' : α → Service (σ × List SymbolCall) Unit}
    {P : α → List SymbolCall → Prop} (h : ∀ a, Notes (f a) (f' a) (P a)) :
    Notes (l.forM f) (l.forM f') fun calls => ∃ parts, List.Forall₂ P l parts ∧
      calls = parts.flatten := by
  induction l with
  | nil =>
    intro s s' run
    cases run
    exact ⟨[], ⟨[], .nil, rfl⟩, fun log => by rw [append_nil]; rfl⟩
  | cons a l ih =>
    intro s s' run
    rw [forM_eq_forM, forM_cons, run_bind] at run
    rcases first : (f a).run s with ⟨_ | _, s₁⟩ <;> rw [first] at run
    · cases run
    · obtain ⟨calls, here, noted⟩ := h a s s₁ first
      obtain ⟨_, ⟨parts, each, rfl⟩, later⟩ := ih s₁ s' run
      refine ⟨calls ++ parts.flatten, ⟨calls :: parts, .cons here each, rfl⟩, fun log => ?_⟩
      rw [forM_eq_forM, forM_cons, run_bind, noted log]
      dsimp only
      rw [← append_assoc]
      exact later (log ++ calls)

end Service

namespace MethodSymbols

variable {σ : Type}

theorem notes_replay (writer : SymbolWriter σ) (image : Image) (m : Module)
    (methods : List MethodSymbols) :
    Service.Notes (replay (writer image) m methods)
    (replay (writer.noting image) m methods) fun calls =>
      ∃ parts : List (List SymbolCall),
        List.Forall₂ (fun ms part => ms.calls m = part.map .ok) methods parts ∧
          calls = parts.flatten := by
  have one (c : Except Error SymbolCall) : Service.Notes
      (ExceptT.mk (pure c) >>= writer image) (ExceptT.mk (pure c) >>= writer.noting image)
      fun calls => calls.map .ok = [c] := by
    intro s s' run
    cases c with
    | error e => cases run
    | ok call =>
      have run : (writer image call).run s = (.ok (), s') := run
      refine ⟨[call], rfl, fun log => ?_⟩
      change (writer.noting image call).run (s, log) = _
      rw [SymbolWriter.run_noting, run]
  refine Service.Notes.forM fun ms s s' run => ?_
  obtain ⟨_, ⟨parts, each, rfl⟩, noted⟩ := Service.Notes.forM one s s' run
  refine ⟨_, ?_, noted⟩
  clear run noted
  generalize ms.calls m = calls at each
  induction each with
  | nil => rfl
  | cons here _ ih =>
    rw [ih, flatten_cons, map_append, here]
    rfl

/-- What is told of the points of a method: the documents in the order of their first use, and with each
of them all its points, in their order. -/
structure Grouped (m : Module) (points : List (DocumentId × SequencePoint))
    (groups : List (Document × List SequencePoint)) : Prop where
  documents : ∃ ids : List DocumentId, (∀ id, id ∈ ids ↔ id ∈ points.map (·.1)) ∧
    ids.Pairwise (fun a b => (points.map (·.1)).idxOf a < (points.map (·.1)).idxOf b) ∧
    List.Forall₂ (fun id group => m.documents[id.index]? = some group.1 ∧
      group.2 = (points.filter (·.1 = id)).map (·.2)) ids groups
  partition : (groups.flatMap (·.2)).Perm (points.map (·.2))

theorem pairwise_eraseDups {α : Type} [DecidableEq α] (as : List α) :
    as.eraseDups.Pairwise fun a b => as.idxOf a < as.idxOf b := by
  induction as using List.reverseRecOn with
  | nil => exact .nil
  | append_singleton as x ih =>
    have old {a : α} (ha : a ∈ as.eraseDups) : (as ++ [x]).idxOf a = as.idxOf a :=
      idxOf_append_of_mem (mem_eraseDups.1 ha)
    have before : as.eraseDups.Pairwise fun a b => (as ++ [x]).idxOf a < (as ++ [x]).idxOf b :=
      ih.imp_of_mem fun ha hb less => by rwa [old ha, old hb]
    rw [eraseDups_append]
    by_cases known : x ∈ as
    · simpa [List.removeAll, known] using before
    · have new : ([x].removeAll as).eraseDups = [x] := by
        simp [List.removeAll, known, eraseDups_cons]
      rw [new]
      refine pairwise_append.2 ⟨before, pairwise_singleton .., fun a ha b hb => ?_⟩
      obtain rfl := mem_singleton.1 hb
      rw [old ha, idxOf_append_of_notMem known]
      have := idxOf_lt_length_iff.2 (mem_eraseDups.1 ha)
      omega

theorem perm_flatMap_filter {α β : Type} [DecidableEq β] {key : α → β} {ids : List β}
    (once : ids.Nodup) {l : List α} (known : ∀ a ∈ l, key a ∈ ids) :
    (ids.flatMap fun id => l.filter (key · = id)).Perm l := by
  induction ids generalizing l with
  | nil =>
    obtain rfl : l = [] := eq_nil_iff_forall_not_mem.2 fun a ha => by simpa using known a ha
    exact .nil
  | cons id ids ih =>
    obtain ⟨new, once⟩ := nodup_cons.1 once
    have others : (ids.flatMap fun id' => l.filter (key · = id')) =
        ids.flatMap fun id' => (l.filter fun a => !decide (key a = id)).filter (key · = id') := by
      refine flatMap_congr fun id' hid' => ?_
      rw [filter_filter]
      refine filter_congr fun a _ => ?_
      by_cases here : key a = id' <;> simp [here]
      rintro rfl
      exact new hid'
    rw [flatMap_cons, others]
    refine (List.Perm.append_left _ (ih once fun a ha => ?_)).trans (filter_append_perm _ l)
    obtain ⟨inside, other⟩ := mem_filter.1 ha
    exact (mem_cons.1 (known a inside)).resolve_left (by simpa using other)

end MethodSymbols

/-- What a writer is told of a method. -/
structure Account where
  symbols : MethodSymbols
  groups : List (Document × List SequencePoint)

def Account.calls (a : Account) : List SymbolCall :=
  [.openMethod a.symbols.token, .openScope 0] ++ a.symbols.scopes.map (·.call) ++
    a.groups.map (fun group => .definePoints group.1 group.2) ++
    [.closeScope a.symbols.codeSize, .closeMethod]

namespace MethodSymbols

theorem groups_of_calls (m : Module) (ms : MethodSymbols) {call : DocumentId → Except Error SymbolCall}
    (known : ∀ id document, m.documents[id.index]? = some document →
      call id = .ok (.definePoints document (ms.pointsIn id)))
    (unknown : ∀ id, m.documents[id.index]? = none → ∃ e, call id = .error e)
    {ids : List DocumentId} {calls : List SymbolCall} (told : ids.map call = calls.map .ok) :
    ∃ groups : List (Document × List SequencePoint), List.Forall₂ (fun id group =>
        m.documents[id.index]? = some group.1 ∧
          group.2 = (ms.points.filter (·.1 = id)).map (·.2)) ids groups ∧
      calls = groups.map fun group => .definePoints group.1 group.2 := by
  induction ids generalizing calls with
  | nil =>
    obtain rfl : calls = [] := by simpa using told.symm
    exact ⟨[], .nil, rfl⟩
  | cons id ids ih =>
    obtain ⟨c, rest, rfl, here, others⟩ := map_eq_cons_iff.1 told.symm
    obtain ⟨groups, each, rfl⟩ := ih others.symm
    cases found : m.documents[id.index]? with
    | none =>
      obtain ⟨e, fails⟩ := unknown id found
      cases here.trans fails
    | some document =>
      obtain rfl := Except.ok.inj (here.trans (known id document found))
      refine ⟨(document, ms.pointsIn id) :: groups, .cons ⟨found, ?_⟩ each, rfl⟩
      rw [pointsIn, ← filterMap_eq_map, filterMap_filter]
      simp

theorem account_of_calls {ms : MethodSymbols} {calls : List SymbolCall}
    (told : ms.calls m = calls.map .ok) :
    ∃ groups, Grouped m ms.points groups ∧ calls = (Account.mk ms groups).calls := by
  have inj : Function.Injective (Except.ok : SymbolCall → Except Error SymbolCall) :=
    fun _ _ => Except.ok.inj
  obtain ⟨_, last, rfl, front, lastTold⟩ := map_eq_append_iff.1 told.symm
  obtain ⟨_, points, rfl, front, pointsTold⟩ := map_eq_append_iff.1 front
  obtain ⟨first, scopes, rfl, firstTold, scopesTold⟩ := map_eq_append_iff.1 front
  obtain ⟨groups, each, rfl⟩ := groups_of_calls m ms (fun id document found => by simp [found])
    (fun id missing => ⟨.unresolved (.document id), by simp [missing]⟩) pointsTold.symm
  obtain rfl : last = [.closeScope ms.codeSize, .closeMethod] := map_injective_iff.2 inj lastTold
  obtain rfl : first = [.openMethod ms.token, .openScope 0] := map_injective_iff.2 inj firstTold
  obtain rfl : scopes = ms.scopes.map (·.call) := by
    refine map_injective_iff.2 inj (scopesTold.trans ?_)
    rw [map_map]
    rfl
  have used (id : DocumentId) : id ∈ ms.documents ↔ id ∈ ms.points.map (·.1) := mem_eraseDups
  have ordered := pairwise_eraseDups (ms.points.map (·.1))
  refine ⟨groups, ⟨⟨ms.documents, used, ordered, each⟩, ?_⟩, rfl⟩
  have once : ms.documents.Nodup := ordered.imp fun less same => by simp [same] at less
  have together : ((ms.documents.flatMap fun id => ms.points.filter (·.1 = id)).map (·.2)).Perm
      (ms.points.map (·.2)) :=
    (perm_flatMap_filter once fun x hx => (used x.1).2 (mem_map_of_mem hx)).map _
  have parts : (ms.documents.flatMap fun id => ms.points.filter (·.1 = id)).map (·.2) =
      groups.flatMap (·.2) := by
    rw [map_flatMap, flatMap_def, flatMap_def, map_eq_of_forall₂ each fun _ _ h => h.2]
  rwa [parts] at together

theorem exists_accounts {α : Type} {symbols : α → Option MethodSymbols} {os : List α}
    {parts : List (List SymbolCall)}
    (h : List.Forall₂ (fun ms part => ms.calls m = part.map .ok) (os.filterMap symbols) parts) :
    ∃ accounts : List (Option Account), List.Forall₂ (fun o a => symbols o = a.map (·.symbols) ∧
        ∀ account, a = some account → Grouped m account.symbols.points account.groups) os accounts ∧
      parts.flatten = accounts.reduceOption.flatMap Account.calls := by
  induction os generalizing parts with
  | nil =>
    obtain rfl := forall₂_nil_left_iff.1 h
    exact ⟨[], .nil, rfl⟩
  | cons o os ih =>
    cases known : symbols o with
    | none =>
      rw [filterMap_cons_none known] at h
      obtain ⟨accounts, each, all⟩ := ih h
      exact ⟨none :: accounts, .cons ⟨known, by simp⟩ each, all⟩
    | some ms =>
      rw [filterMap_cons_some known] at h
      obtain ⟨part, rest, told, others, rfl⟩ := forall₂_cons_left_iff.1 h
      obtain ⟨accounts, each, all⟩ := ih others
      obtain ⟨groups, grouped, rfl⟩ := account_of_calls told
      refine ⟨some ⟨ms, groups⟩ :: accounts, .cons ⟨known, ?_⟩ each, ?_⟩
      · intro account same
        obtain rfl := Option.some.inj same
        exact grouped
      · rw [flatten_cons, all, reduceOption_cons_of_some, flatMap_cons]

end MethodSymbols

namespace Module

variable {image : Image} {final : Session} {accounts : List (Option Account)}

/-- A writer is told of the method of a row what its body gives. -/
structure Tells (m : Module) (image : Image) (row : Nat) (b : Body) (a : Account) : Prop where
  token : (Token.row .methodDef row).encode = .ok a.symbols.token
  size : ∃ body encoding, image.methodBody? row = some encoding ∧
    MethodBody.encode body = .ok encoding ∧
    body.code.length = a.symbols.codeSize
  describes : a.symbols.Describes b
  balanced : ScopeMark.Balanced (a.symbols.scopes.map ScopeEvent.mark)
  increasing : (a.symbols.points.map (·.2.offset)).Pairwise (· < ·)
  grouped : MethodSymbols.Grouped m a.symbols.points a.groups

/-- A method is told of if its body has scopes or gives points. -/
structure TellsOf (m : Module) (image : Image) (x : Method × Nat) (a : Option Account) : Prop where
  silent : a = none ↔ ∀ b, x.1.body = some b → b.scopeMarks = [] ∧ b.spans = []
  told : ∀ account, a = some account → ∃ b, x.1.body = some b ∧ m.Tells image x.2 b account

theorem Token.lt_of_encode {t : Table} {row row' token token' : Nat}
    (h : (Token.row t row).encode = .ok token) (h' : (Token.row t row').encode = .ok token')
    (less : row < row') : token < token' := by
  rw [Token.encode] at h h'
  split at h <;> split at h'
  · obtain rfl := Except.ok.inj h
    obtain rfl := Except.ok.inj h'
    exact Nat.add_lt_add_left less _
  all_goals simp_all

theorem tellsOf_of_becomes {src : Source} {x : Method × Nat} {o : Option EncodedMethod}
    (becomes : Compile.Becomes src true final x o)
    (stored : ∀ e, o = some e → image.methodBody? x.2 = some e.encoding) {a : Option Account}
    (symbols : o.bind (·.symbols) = a.map (·.symbols))
    (grouped : ∀ account, a = some account →
      MethodSymbols.Grouped m account.symbols.points account.groups) : m.TellsOf image x a := by
  cases o with
  | none =>
    obtain rfl : a = none := by simpa using symbols.symm
    have bodiless : x.1.body = none := becomes
    exact ⟨by simp [bodiless], by simp⟩
  | some e =>
    obtain ⟨b, s, s', held, run, encodes, _⟩ := becomes
    obtain ⟨silent, told⟩ := Compile.describes_of_encodeBody run
    have symbols : e.symbols = a.map (·.symbols) := symbols
    refine ⟨?_, fun account same => ?_⟩
    · rw [symbols, Option.map_eq_none_iff] at silent
      simpa [held] using silent
    · subst same
      obtain ⟨token, size, describes⟩ := told account.symbols symbols
      obtain ⟨given, _, rising, kept⟩ := describes.points
      refine ⟨b, held, token, ⟨e.body, e.encoding, stored e rfl, encodes, size.symm⟩, describes, ?_, ?_,
        grouped account rfl⟩
      · rw [describes.scopes]
        exact b.balanced_scopeMarks
      · rw [kept]
        exact latest_increasing (pairwise_append.1 rising).1

theorem pairwise_tokens {xs : List (Method × Nat)} (h : List.Forall₂ (m.TellsOf image) xs accounts)
    (rows : (xs.map (·.2)).Pairwise (· < ·)) :
    (accounts.reduceOption.map (·.symbols.token)).Pairwise (· < ·) := by
  induction h with
  | nil => exact .nil
  | @cons x a xs accounts here others ih =>
    obtain ⟨below, rows⟩ := pairwise_cons.1 rows
    cases a with
    | none => exact ih rows
    | some account =>
      refine .cons (fun token ht => ?_) (ih rows)
      obtain ⟨account', later, rfl⟩ := mem_map.1 ht
      obtain ⟨y, hy, tells⟩ := exists_of_forall₂ others (reduceOption_mem_iff.1 later)
      obtain ⟨_, _, first⟩ := here.told account rfl
      obtain ⟨_, _, second⟩ := tells.told account' rfl
      exact Token.lt_of_encode first.token second.token (below _ (mem_map_of_mem hy))

theorem run_assemble_iff {σ : Type} {options : Options} {writer : SymbolWriter σ} {s s' : σ}
    (debug : options.debugSymbols = true) :
    (m.assemble options (some writer)).run s = (.ok image, s') ↔
      ∃ symbols, m.image options = .ok (image, symbols) ∧
        (MethodSymbols.replay (writer image) m symbols).run s = (.ok (), s') := by
  have first : (ExceptT.mk (pure (m.image options)) : Service σ _).run s = (m.image options, s) := rfl
  rw [assemble, Service.run_bind, first]
  cases m.image options with
  | error e =>
    constructor
    · intro h
      cases h
    · rintro ⟨_, made, _⟩
      cases made
  | ok made =>
    obtain ⟨image', symbols⟩ := made
    simp only [debug, if_true, Service.run_bind]
    constructor
    · intro h
      rcases told : (MethodSymbols.replay (writer image') m symbols).run s with ⟨_ | _, s₁⟩ <;>
        rw [told] at h <;> cases h
      exact ⟨symbols, rfl, told⟩
    · rintro ⟨_, made, told⟩
      cases made
      rw [told]
      rfl

theorem tells_of_compiled {n : Numbering} (numbered : Numbering.ofModule m = .ok n)
    {area : CodeArea} (bodies : image.bodies = area.bytes) (ranges : image.bodyRanges = area.ranges)
    {os : List (Option EncodedMethod)}
    (compiled : Compile.Compiled ⟨m, n⟩ true final (.ofSize n.methodCount)
      ((Source.definitions ⟨m, n⟩).flatMap (·.methods)) os area)
    (described : List.Forall₂ (fun o a => o.bind (·.symbols) = a.map (·.symbols) ∧
      ∀ account, a = some account → MethodSymbols.Grouped m account.symbols.points account.groups)
      os accounts) :
    List.Forall₂ (m.TellsOf image) ((Source.definitions ⟨m, n⟩).flatMap (·.methods)) accounts := by
  refine (forall₂_comp (compiled.stored numbered image bodies ranges) described).imp fun x a h => ?_
  obtain ⟨o, _, ⟨becomes, stored⟩, symbols, grouped⟩ := h
  exact tellsOf_of_becomes becomes stored symbols grouped

/-- A writer that symbols are told to gets these calls: of each method with scopes or points, in the
order of the tokens, the method is opened and a scope at 0; then come the scopes of the body, which are
balanced and at offsets that go neither back nor beyond the code; then the points, document by document;
then the scope is closed at the end of the code, and the method. Of the points that fall on one offset
the last remains. -/
theorem replay_wellFormed {σ : Type} {m : Module} {options : Options} {writer : SymbolWriter σ}
    {image : Image} {s s' : σ} (debug : options.debugSymbols = true)
    (run : (m.assemble options (some writer)).run s = (.ok image, s')) :
    ∃ n, Numbering.ofModule m = .ok n ∧ ∃ accounts : List (Option Account),
      List.Forall₂ (m.TellsOf image) ((Source.definitions ⟨m, n⟩).flatMap (·.methods)) accounts ∧
      (accounts.reduceOption.map (·.symbols.token)).Pairwise (· < ·) ∧
      (m.assemble options (some writer.noting)).run (s, []) =
        (.ok image, (s', accounts.reduceOption.flatMap Account.calls)) := by
  obtain ⟨symbols, made, told⟩ := (run_assemble_iff debug).1 run
  obtain ⟨_, ⟨parts, each, rfl⟩, noted⟩ := MethodSymbols.notes_replay writer image m symbols s s' told
  obtain ⟨n, key, area, s₁, entryPoint, _, numbered, ran, _, same⟩ := image_parts made
  obtain ⟨rfl, rfl⟩ := Prod.mk.inj same
  rw [debug] at ran
  obtain ⟨os, compiled⟩ := Compile.compiled_of_emit numbered ran
  rw [compiled.symbols] at each
  obtain ⟨accounts, described, all⟩ := MethodSymbols.exists_accounts each
  have tells : List.Forall₂ (m.TellsOf (imageOf options key area s₁ entryPoint)) _ accounts :=
    tells_of_compiled numbered rfl rfl compiled described
  refine ⟨n, numbered, accounts, tells, pairwise_tokens tells ?_, ?_⟩
  · rw [Compile.rows_definitions numbered]
    exact List.pairwise_lt_range'
  · rw [← all]
    exact (run_assemble_iff debug).2 ⟨_, made, noted []⟩

section Diary

open Compile

/-- Two points that fall on one offset, and another one behind; a scope with a local. -/
def diaryEntry : Body where
  locals := #[{ variableType := .primitive .int32, name := some "count" }]
  root := .mk ⟨0⟩ [.sequencePoint ⟨⟨1⟩, 2, 1, 2, 9⟩, .nop, .sequencePoint ⟨⟨0⟩, 3, 1, 3, 2⟩] [0]
    (some ⟨⟨0⟩, 1, 1, 1, 5⟩)

def diaryMain : Method := { name := "Main", body := some diaryEntry }

def diary : Module where
  name := "Diary"
  types := #[{ TypeInfo.globals with methods := #[diaryMain] }]
  documents := #[{ url := "today" }, { url := "yesterday" }]

def diarySource : Source where
  module := diary
  numbering := (Numbering.ofModule diary).toOption.getD ⟨[], #[], 0⟩

def diarySymbols : MethodSymbols where
  token := 0x06000001
  codeSize := 2
  scopes := [.opened 0, .named "count" 0 [8], .closed 1]
  points := [(⟨1⟩, ⟨0, 2, 1, 2, 9⟩), (⟨0⟩, ⟨1, 3, 1, 3, 2⟩)]

theorem image_diary : ∃ image, diary.image { debugSymbols := true } = .ok (image, [diarySymbols]) := by
  have evaluated : (diary.image { debugSymbols := true }).toOption.map (·.2) = some [diarySymbols] := by
    decide +kernel
  obtain ⟨⟨image, symbols⟩, made, rfl⟩ := Option.map_eq_some_iff.1 evaluated
  exact ⟨image, eq_ok_of_toOption made⟩

def diaryWriter : SymbolWriter Unit := fun _ _ => pure ()

/-- The writer hears of the one method. -/
theorem replay_wellFormed_diary : ∃ image account,
    (diary.assemble { debugSymbols := true } (some diaryWriter)).run () = (.ok image, ()) ∧
      diary.Tells image 1 diaryEntry account ∧
      (diary.assemble { debugSymbols := true } (some diaryWriter.noting)).run ((), []) =
        (.ok image, ((), account.calls)) := by
  obtain ⟨image, made⟩ := image_diary
  have run : (diary.assemble { debugSymbols := true } (some diaryWriter)).run () = (.ok image, ()) :=
    (run_assemble_iff rfl).2 ⟨_, made, rfl⟩
  obtain ⟨n, numbered, accounts, tells, _, noted⟩ := replay_wellFormed rfl run
  obtain rfl : diarySource.numbering = n := Except.ok.inj numbered
  have methods : (Source.definitions ⟨diary, diarySource.numbering⟩).flatMap
      (·.methods) = [(diaryMain, 1)] :=
    rfl
  rw [methods] at tells
  obtain ⟨a, rest, here, none, rfl⟩ := List.forall₂_cons_left_iff.1 tells
  obtain rfl := List.forall₂_nil_left_iff.1 none
  cases a with
  | none =>
      obtain ⟨_, spans⟩ := here.silent.1 rfl diaryEntry rfl
      cases spans
  | some account =>
      obtain ⟨b, held, told⟩ := here.told account rfl
      obtain rfl : diaryEntry = b := Option.some.inj held
      exact ⟨image, account, run, told, by simpa using noted⟩

end Diary
end Module
end Cil
