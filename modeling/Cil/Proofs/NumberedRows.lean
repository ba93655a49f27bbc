import Cil.Proofs.TypeOrder

/-!
The numbers that definitions are given are those of rows that come to be: a type and its members lie
within what all types together need.
-/

namespace Cil

open List
variable {m : Module}

namespace Numbering

/-- The rows of a type and its members come behind some counters and before others. -/
structure Fits (c c' : Counters) (t : TypeInfo) (r : TypeRows) : Prop where
  row : c.type ≤ r.row ∧ r.row < c'.type
  fields : c.field ≤ r.firstField ∧ r.firstField + t.fields.size ≤ c'.field
  fieldCount : r.fieldCount = t.fields.size
  methods : c.method ≤ r.firstMethod ∧ r.firstMethod + t.methods.size ≤ c'.method
  methodCount : r.methodCount = t.methods.size
  properties : c.property ≤ r.firstProperty ∧ r.firstProperty + t.properties.size ≤ c'.property
  events : c.event ≤ r.firstEvent ∧ r.firstEvent + t.events.size ≤ c'.event
  paramsSize : r.firstParams.size = t.methods.size
  params : ∀ p ∈ r.firstParams, c.param ≤ p ∧ p ≤ c'.param

theorem Counters.fits_place {c : Counters} {ts : List TypeInfo} :
    ∀ d ∈ c.place ts, Fits c (c.after ts) d.info d.rows := by
  induction ts generalizing c with
  | nil => simp [place]
  | cons t ts ih =>
    refine forall_mem_cons.2 ⟨?_, fun d later => ?_⟩
    · rw [after_eq]
      constructor <;> simp [rows, length_starts]
      intro p hp
      have := mem_starts hp
      omega
    · have fits := ih d later
      change Fits c ((c.add t).after ts) _ _
      generalize (c.add t).after ts = c' at fits
      obtain ⟨_, _, _, _, _, _, _, _, params⟩ := fits
      simp only [add] at *
      refine ⟨?_, ?_, ?_, ?_, ?_, ?_, ?_, ?_, fun p hp => ?_⟩
      case refine_9 =>
        have := params p hp
        omega
      all_goals omega

end Numbering

open Cil.Numbering

def Source.counters (src : Source) : Counters where
  type := src.total .typeDef + 1
  field := src.total .field + 1
  method := src.total .methodDef + 1
  param := src.total .param + 1
  property := src.total .property + 1
  event := src.total .event + 1

theorem Source.counters_eq (src : Source) :
    src.counters = ({} : Counters).after (src.definitions.map (·.info)) := by
  rw [Counters.after_eq]
  simp only [counters, total, length_map, map_map, Function.comp_def, Nat.add_comm]

/-- The rows of definitions are rows that the tables have in the end. -/
structure Source.Numbered (src : Source) : Prop where
  fits {id : TypeId} {r : TypeRows} : src.numbering.rows? id = some r →
    ∃ t, src.module.type? id = some t ∧ Fits {} src.counters t r

theorem Source.numbered_of_ofModule {n : Numbering} (h : Numbering.ofModule m = .ok n) :
    Source.Numbered ⟨m, n⟩ := by
  obtain ⟨ts, placed⟩ := placed_of_ofModule h
  refine ⟨fun {id r} known => ?_⟩
  obtain ⟨i, hi, rfl⟩ := mem_iff_getElem.1 (placed.only known)
  obtain ⟨length, each⟩ := forall₂_iff_get.1 placed.each
  obtain ⟨info, rows⟩ := each i hi (length ▸ hi)
  obtain rfl := Option.some.inj (known.symm.trans rows)
  refine ⟨_, info, ?_⟩
  rw [Source.counters_eq, placed.definitions, Counters.infos_place]
  exact Counters.fits_place _ (get_mem ..)

namespace Source

/-- The table has a row of that number in the end. -/
def Defines (src : Source) (t : Table) (n : Nat) : Prop := 1 ≤ n ∧ n < src.total t + 1

theorem Defines.of_mem {α : Type} {src : Source} {t : Table} {xs : Array α} {a : α} {first row : Nat}
    (h : (a, row) ∈ xs.toList.zipIdx first)
    (within : 1 ≤ first ∧ first + xs.size ≤ src.total t + 1) : src.Defines t row := by
  have inside := mem_zipIdx h
  rw [Array.length_toList] at inside
  exact ⟨Nat.le_trans within.1 inside.1, Nat.lt_of_lt_of_le inside.2.1 within.2⟩

namespace Numbered

variable {src : Source} (numbered : src.Numbered)

include numbered

variable {row : Nat}

theorem typeRow {id : TypeId} (h : src.numbering.typeRow id = .ok row) :
    src.Defines .typeDef row := by
  rw [Numbering.typeRow] at h
  split at h
  case h_1 r known =>
    obtain rfl := Except.ok.inj h
    obtain ⟨t, _, fits⟩ := numbered.fits known
    exact fits.row
  case h_2 => cases h

theorem fieldRow {id : FieldId} (h : src.numbering.fieldRow id = .ok row) :
    src.Defines .field row := by
  rw [Numbering.fieldRow] at h
  split at h
  case h_1 row' known =>
    obtain rfl := Except.ok.inj h
    obtain ⟨r, rows, inside⟩ := Option.bind_eq_some_iff.1 known
    split at inside
    · obtain rfl := Option.some.inj inside
      obtain ⟨t, _, fits⟩ := numbered.fits rows
      have := fits.fieldCount
      exact ⟨Nat.le_trans fits.fields.1 (Nat.le_add_right ..),
        Nat.lt_of_lt_of_le (by omega) fits.fields.2⟩
    · cases inside
  case h_2 => cases h

theorem methodRow? {id : MethodId} (h : src.numbering.methodRow? id = some row) :
    src.Defines .methodDef row := by
  obtain ⟨r, rows, inside⟩ := Option.bind_eq_some_iff.1 h
  split at inside
  · obtain rfl := Option.some.inj inside
    obtain ⟨t, _, fits⟩ := numbered.fits rows
    have := fits.methodCount
    exact ⟨Nat.le_trans fits.methods.1 (Nat.le_add_right ..),
      Nat.lt_of_lt_of_le (by omega) fits.methods.2⟩
  · cases inside

theorem methodRow {id : MethodId} (h : src.numbering.methodRow id = .ok row) :
    src.Defines .methodDef row := by
  rw [Numbering.methodRow] at h
  split at h
  case h_1 row' known =>
    obtain rfl := Except.ok.inj h
    exact numbered.methodRow? known
  case h_2 => cases h

variable {d : Definition} (hd : d ∈ src.definitions)

include hd

theorem definition : Fits {} src.counters d.info d.rows := by
  obtain ⟨id, _, made⟩ := mem_filterMap.1 hd
  obtain ⟨t, info, rest⟩ := Option.bind_eq_some_iff.1 made
  obtain ⟨r, rows, same⟩ := Option.bind_eq_some_iff.1 rest
  obtain rfl := Option.some.inj same
  obtain ⟨t', info', fits⟩ := numbered.fits rows
  obtain rfl := Option.some.inj (info.symm.trans info')
  exact fits

theorem field {f : FieldDef} (h : (f, row) ∈ d.fields) : src.Defines .field row :=
  .of_mem h (numbered.definition hd).fields

theorem method {m : Method} (h : (m, row) ∈ d.methods) : src.Defines .methodDef row :=
  .of_mem h (numbered.definition hd).methods

theorem property {p : Property} (h : (p, row) ∈ d.properties) : src.Defines .property row :=
  .of_mem h (numbered.definition hd).properties

theorem event {e : Event} (h : (e, row) ∈ d.events) : src.Defines .event row :=
  .of_mem h (numbered.definition hd).events

end Numbered
end Source
end Cil
