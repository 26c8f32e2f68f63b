import Mathlib.Logic.Relation
import RubyLanguageServer.Proofs.Revalidation
/-!
# Spellings of a record

An object can spell a record in many ways: its keys come in any order, keys that belong to no field
may be there, and a field may stand under its wire name or under its own name. Validation has the
same outcome for all of them, and its faults differ in the spelling of the keys on their paths only.
-/
namespace RubyLanguageServer

def Field.keys (f : Field) : List Text := if f.name = f.wire then [f.wire] else [f.wire, f.name]

private theorem Field.mem_keys {f : Field} {key : Text} :
    key ∈ f.keys ↔ key = f.wire ∨ key = f.name := by
  by_cases h : f.name = f.wire <;> simp [keys, h]

namespace Shape

open Schema

/-- The same value but for one change of spelling, at any depth where a record is expected: its keys
in another order, a key more that belongs to no field, a field's own name beside its wire name, or
the own name in the place of the wire name. -/
inductive Respells : Shape → Json → Json → Prop
  | optional {shape : Shape} {j j' : Json} : Respells shape j j' → Respells (.optional shape) j j'
  | item {shape : Shape} {j j' : Json} (before behind : List Json) : Respells shape j j' →
      Respells (.list shape) (.array (before ++ j :: behind)) (.array (before ++ j' :: behind))
  | field {name key : Text} {fields : List (Field × Shape)} {f : Field} {shape : Shape}
      {j j' : Json} (before behind : List (Text × Json)) : (f, shape) ∈ fields → key ∈ f.keys →
      Respells shape j j' → Respells (.record name fields)
        (.object (before ++ (key, j) :: behind)) (.object (before ++ (key, j') :: behind))
  | order {name : Text} {fields : List (Field × Shape)} {members members' : List (Text × Json)} :
      (members.map Prod.fst).Nodup → members.Perm members' →
      Respells (.record name fields) (.object members) (.object members')
  | unknown {name key : Text} {fields : List (Field × Shape)} (j : Json)
      (before behind : List (Text × Json)) : (∀ p ∈ fields, key ∉ p.1.keys) →
      Respells (.record name fields)
        (.object (before ++ behind)) (.object (before ++ (key, j) :: behind))
  | beside {name : Text} {fields : List (Field × Shape)} {f : Field} {shape : Shape} (j : Json)
      (before behind : List (Text × Json)) : (f, shape) ∈ fields →
      f.wire ∈ (before ++ behind).map Prod.fst → f.name ∉ (before ++ behind).map Prod.fst →
      Respells (.record name fields)
        (.object (before ++ behind)) (.object (before ++ (f.name, j) :: behind))
  | renamed {name : Text} {fields : List (Field × Shape)} {f : Field} {shape : Shape} (j : Json)
      (before behind : List (Text × Json)) : (f, shape) ∈ fields →
      f.wire ∉ (before ++ behind).map Prod.fst → f.name ∉ (before ++ behind).map Prod.fst →
      Respells (.record name fields)
        (.object (before ++ (f.wire, j) :: behind)) (.object (before ++ (f.name, j) :: behind))

/-- The same value but for any number of changes of spelling, made or taken back. -/
def SpelledAlike (shape : Shape) : Json → Json → Prop := Relation.EqvGen shape.Respells

def present : Shape → Shape
  | .optional shape => present shape
  | shape => shape

/-- A path into a value of the shape with all keys of fields in their wire spelling. -/
def wirePath : List Step → Shape → List Step
  | [], _ => []
  | step :: path, shape =>
    match shape.present, step with
    | .list item, .index i => .index i :: wirePath path item
    | .record _ fields, .key key =>
      match fields.find? (·.1.keys.contains key) with
      | some (f, inner) => .key f.wire :: wirePath path inner
      | none => .key key :: path
    | _, step => step :: path

/-- A fault of a value of the shape, with its path in the wire spelling. -/
def wireFault (shape : Shape) (f : Fault) : Fault := { f with path := wirePath f.path shape }

/-- An outcome with its faults in the wire spelling. -/
def inWireSpelling (shape : Shape) (r : Except (List Fault) α) : Except (List Fault) α :=
  r.mapError (List.map (wireFault shape))

/-- The outcome of a validation, told in the wire spelling whatever spelling the value has. -/
def outcome (shape : Shape) (j : Json) : Except (List Fault) Instance :=
  inWireSpelling shape (validate shape j)

/-! ## Outcomes by the form of the shape -/

private theorem wirePath_optional (path : List Step) (shape : Shape) :
    wirePath path (.optional shape) = wirePath path shape := by
  cases path <;> rfl

section

variable {shape : Shape} {α β : Type}

private theorem inWireSpelling_map (g : α → β) (r : Except (List Fault) α) :
    inWireSpelling shape (r.map g) = (inWireSpelling shape r).map g := by
  cases r <;> rfl

private theorem inWireSpelling_both (x : Except (List Fault) α) (y : Except (List Fault) β) :
    inWireSpelling shape (both x y) = both (inWireSpelling shape x) (inWireSpelling shape y) := by
  cases x <;> cases y <;> simp [inWireSpelling, both, Except.mapError]

private theorem inWireSpelling_all (rs : List (Except (List Fault) α)) :
    inWireSpelling shape (all rs) = all (rs.map (inWireSpelling shape)) := by
  induction rs with
  | nil => rfl
  | cons r rs ih => rw [all, inWireSpelling_map, inWireSpelling_both, ih, List.map_cons, all]

private theorem inWireSpelling_under_index (i : Nat) (r : Except (List Fault) α) :
    inWireSpelling (.list shape) (under (.index i) r) =
      under (.index i) (inWireSpelling shape r) := by
  cases r with
  | ok v => rfl
  | error faults =>
    simp [inWireSpelling, under, Except.mapError, wireFault, Fault.under, wirePath, present]

end

private theorem outcome_optional {shape : Shape} {j : Json} (hj : j ≠ .null) :
    outcome (.optional shape) j = outcome shape j := by
  have hfault : wireFault (.optional shape) = wireFault shape := by
    funext f
    rw [wireFault, wireFault, wirePath_optional]
  rw [outcome, outcome, validate_optional_of_ne hj, inWireSpelling, inWireSpelling, hfault]

private theorem outcome_list (item : Shape) (items : List Json) : outcome (.list item)
    (.array items) =
    (all (items.mapIdx fun i j => under (.index i) (outcome item j))).map .list := by
  have hitems : (items.mapIdx fun i j => under (.index i) (validate item j)).map
      (inWireSpelling (.list item)) =
      items.mapIdx fun i j => under (.index i) (outcome item j) := by
    apply List.ext_getElem?
    simp [Function.comp_def, inWireSpelling_under_index, outcome]
  rw [outcome, validate, inWireSpelling_map, inWireSpelling_all, hitems]

/-! ## Fields -/

mutual

/-- Whether in all records of the shape no two fields share a key. -/
def isDistinct : Shape → Bool
  | .optional shape => isDistinct shape
  | .list item => isDistinct item
  | .record _ fields => (fields.flatMap (·.1.keys)).Nodup && areDistinct fields
  | _ => true

def areDistinct : List (Field × Shape) → Bool
  | [] => true
  | (_, shape) :: fields => isDistinct shape && areDistinct fields

end

theorem areDistinct_iff {fields : List (Field × Shape)} :
    areDistinct fields = true ↔ ∀ p ∈ fields, isDistinct p.2 = true := by
  induction fields with
  | nil => simp [areDistinct]
  | cons p fields ih => simp [areDistinct, ih]

private theorem distinct_record {name : Text} {fields : List (Field × Shape)}
    (h : (Shape.record name fields).isDistinct = true) :
    (fields.flatMap (·.1.keys)).Nodup ∧ ∀ p ∈ fields, isDistinct p.2 = true := by
  rw [isDistinct, Bool.and_eq_true, decide_eq_true_eq, areDistinct_iff] at h
  exact h

/-- The value that an object gives for a field: the one under its wire name comes first. -/
def given (f : Field) (members : List (Text × Json)) : Option Json :=
  (Entries.find? f.wire members).or (Entries.find? f.name members)

private theorem map_supplied? (f : Field) (members : List (Text × Json)) :
    (supplied? f members).map Prod.snd = given f members := by
  rw [supplied?, given]
  cases Entries.find? f.wire members with
  | some j => rfl
  | none => cases Entries.find? f.name members <;> rfl

private theorem key_of_supplied? {f : Field} {members : List (Text × Json)} {found : Text × Json}
    (h : supplied? f members = some found) : found.1 ∈ f.keys := by
  rw [supplied?] at h
  rw [Field.mem_keys]
  split at h
  · cases h
    exact .inl rfl
  · obtain ⟨j, _, rfl⟩ := Option.map_eq_some_iff.mp h
    exact .inr rfl

private theorem validateFields_cons (members : List (Text × Json)) (p : Field × Shape)
    (rest : List (Field × Shape)) : validateFields members (p :: rest) =
      (both (fieldValue members p.1 p.2) (validateFields members rest)).map
        fun value => (p.1.wire, value.1) :: value.2 := rfl

/-- What becomes of a field by the outcome of the value given for it. -/
def fieldOutcome (f : Field) : Option (Except (List Fault) Instance) → Except (List Fault) Instance
  | some r => under (.key f.wire) r
  | none =>
    match f.default with
    | some v => .ok v
    | none => .error [⟨[.key f.wire], .missing, "dict"⟩]

section

variable {name : Text} {fields : List (Field × Shape)}
  (hdistinct : (fields.flatMap (·.1.keys)).Nodup)
include hdistinct

private theorem find?_of_mem_keys {p : Field × Shape} (hp : p ∈ fields) {key : Text}
    (hkey : key ∈ p.1.keys) : fields.find? (·.1.keys.contains key) = some p := by
  induction fields with
  | nil => cases hp
  | cons q fields ih =>
    rw [List.flatMap_cons, List.nodup_append] at hdistinct
    obtain ⟨_, hrest, hapart⟩ := hdistinct
    rcases List.mem_cons.mp hp with rfl | hp
    · simp [hkey]
    · have hq : key ∉ q.1.keys := by
        intro hmem
        exact hapart key hmem key (List.mem_flatMap.mpr ⟨p, hp, hkey⟩) rfl
      simpa [hq] using ih hrest hp

private theorem eq_of_mem_keys {p q : Field × Shape} (hp : p ∈ fields) (hq : q ∈ fields)
    {key : Text} (hkey : key ∈ p.1.keys) (hkey' : key ∈ q.1.keys) : p = q := by
  have hfound := find?_of_mem_keys hdistinct hp hkey
  rw [find?_of_mem_keys hdistinct hq hkey'] at hfound
  exact (Option.some.inj hfound).symm

private theorem inWireSpelling_under_key {p : Field × Shape} (hp : p ∈ fields) {key : Text}
    (hkey : key ∈ p.1.keys) (r : Except (List Fault) Instance) :
    inWireSpelling (.record name fields) (under (.key key) r) =
      under (.key p.1.wire) (inWireSpelling p.2 r) := by
  cases r with
  | ok v => rfl
  | error faults =>
    simp [-List.contains_eq_mem, inWireSpelling, under, Except.mapError, wireFault, Fault.under,
      wirePath, present, find?_of_mem_keys hdistinct hp hkey]

private theorem inWireSpelling_fieldValue {p : Field × Shape} (hp : p ∈ fields)
    (members : List (Text × Json)) :
    inWireSpelling (.record name fields) (fieldValue members p.1 p.2) =
      fieldOutcome p.1 ((given p.1 members).map (outcome p.2)) := by
  rw [fieldValue, ← map_supplied?]
  cases hsupplied : supplied? p.1 members with
  | none =>
    cases hdefault : p.1.default with
    | some v => simp [fieldOutcome, hdefault, inWireSpelling, Except.mapError]
    | none =>
      have hwire : p.1.wire ∈ p.1.keys := Field.mem_keys.mpr (.inl rfl)
      simp only [Option.map_none, fieldOutcome, hdefault]
      exact inWireSpelling_under_key hdistinct hp hwire (.error [⟨[], .missing, "dict"⟩])
  | some found =>
    have hkey : found.1 ∈ p.1.keys := key_of_supplied? hsupplied
    exact inWireSpelling_under_key hdistinct hp hkey _

private theorem outcome_record_congr {members members' : List (Text × Json)}
    (h : ∀ p ∈ fields,
      (given p.1 members).map (outcome p.2) = (given p.1 members').map (outcome p.2)) :
    outcome (.record name fields) (.object members) =
      outcome (.record name fields) (.object members') := by
  have hfields : ∀ part ⊆ fields,
      inWireSpelling (.record name fields) (validateFields members part) =
        inWireSpelling (.record name fields) (validateFields members' part) := by
    intro part hpart
    induction part with
    | nil => rfl
    | cons p part ih =>
      obtain ⟨hp, hpart⟩ := List.cons_subset.mp hpart
      rw [validateFields_cons, validateFields_cons, inWireSpelling_map, inWireSpelling_map,
        inWireSpelling_both, inWireSpelling_both, ih hpart,
        inWireSpelling_fieldValue hdistinct hp, inWireSpelling_fieldValue hdistinct hp, h p hp]
  rw [outcome, outcome, validate, validate, inWireSpelling_map, inWireSpelling_map,
    hfields fields (List.Subset.refl fields)]

end

/-! ## Respelling -/

private theorem given_of_not_mem_keys {f : Field} {key : Text} (h : key ∉ f.keys) (j : Json)
    (before behind : List (Text × Json)) :
    given f (before ++ (key, j) :: behind) = given f (before ++ behind) := by
  rw [Field.mem_keys, not_or] at h
  rw [given, given, Entries.find?_append_cons_of_ne h.1, Entries.find?_append_cons_of_ne h.2]

private theorem map_given_append_cons {β : Type} {g : Json → β} {j j' : Json} (h : g j = g j')
    (f : Field) (key : Text) (before behind : List (Text × Json)) :
    (given f (before ++ (key, j) :: behind)).map g =
      (given f (before ++ (key, j') :: behind)).map g := by
  have hfind (k : Text) : (Entries.find? k (before ++ (key, j) :: behind)).map g =
      (Entries.find? k (before ++ (key, j') :: behind)).map g := by
    rw [Entries.find?_append, Entries.find?_append, Entries.find?, Entries.find?]
    split <;> cases Entries.find? k before <;> simp [h]
  rw [given, given, Option.map_or, Option.map_or, hfind, hfind]

private theorem given_beside {f : Field} {before behind : List (Text × Json)}
    (hwire : f.wire ∈ (before ++ behind).map Prod.fst)
    (hname : f.name ∉ (before ++ behind).map Prod.fst) (j : Json) :
    given f (before ++ (f.name, j) :: behind) = given f (before ++ behind) := by
  have hne : f.name ≠ f.wire := fun h => hname (h ▸ hwire)
  rw [given, given, Entries.find?_append_cons_of_ne hne]
  cases hfind : Entries.find? f.wire (before ++ behind) with
  | none => exact absurd hwire (Entries.find?_eq_none_iff.mp hfind)
  | some v => rfl

private theorem given_renamed {f : Field} {before behind : List (Text × Json)}
    (hwire : f.wire ∉ (before ++ behind).map Prod.fst)
    (hname : f.name ∉ (before ++ behind).map Prod.fst) (j : Json) :
    given f (before ++ (f.name, j) :: behind) = given f (before ++ (f.wire, j) :: behind) := by
  by_cases hsame : f.name = f.wire
  · rw [hsame]
  · have hbefore {key : Text} (h : key ∉ (before ++ behind).map Prod.fst) :
        key ∉ before.map Prod.fst := by
      simp only [List.map_append, List.mem_append, not_or] at h
      exact h.1
    rw [given, given, Entries.find?_append_cons_of_ne hsame, Entries.find?_eq_none_iff.mpr hwire,
      Entries.find?_append_cons_self (hbefore hname),
      Entries.find?_append_cons_self (hbefore hwire)]
    rfl

private theorem Respells.ne_null {shape : Shape} {j j' : Json} (h : shape.Respells j j') :
    j ≠ .null ∧ j' ≠ .null := by
  induction h with
  | optional _ ih => exact ih
  | _ => simp

/-- One change of spelling does not change the outcome. -/
theorem Respells.outcome_eq {shape : Shape} {j j' : Json} (h : shape.Respells j j')
    (hdistinct : shape.isDistinct = true) : outcome shape j = outcome shape j' := by
  induction h with
  | optional hinner ih =>
    rw [outcome_optional hinner.ne_null.1, outcome_optional hinner.ne_null.2, ih hdistinct]
  | item before behind _ ih =>
    rw [outcome_list, outcome_list, List.mapIdx_append, List.mapIdx_append, List.mapIdx_cons,
      List.mapIdx_cons, ih hdistinct]
  | @field _ key fields f shape _ _ before behind hf hkey _ ih =>
    obtain ⟨hkeys, hinner⟩ := distinct_record hdistinct
    apply outcome_record_congr hkeys
    intro p hp
    by_cases hmem : key ∈ p.1.keys
    · obtain rfl := eq_of_mem_keys hkeys hp hf hmem hkey
      exact map_given_append_cons (ih (hinner _ hf)) _ _ _ _
    · rw [given_of_not_mem_keys hmem, given_of_not_mem_keys hmem]
  | order hnodup hperm =>
    apply outcome_record_congr (distinct_record hdistinct).1
    intro p _
    rw [given, given, Entries.find?_perm hperm hnodup, Entries.find?_perm hperm hnodup]
  | unknown j before behind hkey =>
    apply outcome_record_congr (distinct_record hdistinct).1
    intro p hp
    rw [given_of_not_mem_keys (hkey p hp)]
  | @beside _ fields f shape j before behind hf hwire hname =>
    obtain ⟨hkeys, _⟩ := distinct_record hdistinct
    apply outcome_record_congr hkeys
    intro p hp
    by_cases hmem : f.name ∈ p.1.keys
    · obtain rfl := eq_of_mem_keys hkeys hp hf hmem (Field.mem_keys.mpr (.inr rfl))
      rw [given_beside hwire hname]
    · rw [given_of_not_mem_keys hmem]
  | @renamed _ fields f shape j before behind hf hwire hname =>
    obtain ⟨hkeys, _⟩ := distinct_record hdistinct
    apply outcome_record_congr hkeys
    intro p hp
    by_cases hsame : p = (f, shape)
    · rw [hsame, given_renamed hwire hname]
    · have hother {key : Text} (hkey : key ∈ f.keys) : key ∉ p.1.keys :=
        fun hmem => hsame (eq_of_mem_keys hkeys hp hf hmem hkey)
      rw [given_of_not_mem_keys (hother (Field.mem_keys.mpr (.inl rfl))),
        given_of_not_mem_keys (hother (Field.mem_keys.mpr (.inr rfl)))]

private theorem SpelledAlike.outcome_eq {shape : Shape} {j j' : Json} (h : shape.SpelledAlike j j')
    (hdistinct : shape.isDistinct = true) : outcome shape j = outcome shape j' := by
  have hone (j j' : Json) (hj : shape.Respells j j') : outcome shape j = outcome shape j' :=
    hj.outcome_eq hdistinct
  exact (eq_equivalence.comap (outcome shape)).eqvGen_iff.mp (h.mono hone)

end Shape

namespace Catalog

open Schema Shape

private theorem distinct_protocolRecords : ∀ shape ∈ protocolRecords, shape.isDistinct = true := by
  decide +kernel

/-- However a record of the protocol is spelled, validation yields the same value, or it fails with
as many faults, for the same reasons in the same order, which are the same faults but for the
spelling of the keys on their paths. -/
theorem validation_ignores_spelling {shape : Shape} (hshape : shape ∈ protocolRecords)
    {j j' : Json} (h : shape.SpelledAlike j j') :
    (∃ v, shape.check j = .ok v ∧ shape.check j' = .ok v) ∨
    ∃ e e', shape.check j = .error e ∧ shape.check j' = .error e' ∧
      e.faults.length = e'.faults.length ∧
      e.faults.map (·.reason) = e'.faults.map (·.reason) ∧
      e.faults.map shape.wireFault = e'.faults.map shape.wireFault := by
  have houtcome := h.outcome_eq (distinct_protocolRecords shape hshape)
  rw [outcome, outcome] at houtcome
  rw [check, check]
  cases hj : validate shape j with
  | ok v =>
    cases hj' : validate shape j' with
    | ok v' =>
      rw [hj, hj'] at houtcome
      cases houtcome
      exact .inl ⟨v, rfl, rfl⟩
    | error faults' =>
      rw [hj, hj'] at houtcome
      cases houtcome
  | error faults =>
    cases hj' : validate shape j' with
    | ok v' =>
      rw [hj, hj'] at houtcome
      cases houtcome
    | error faults' =>
      rw [hj, hj'] at houtcome
      have hfaults : faults.map shape.wireFault = faults'.map shape.wireFault :=
        Except.error.inj houtcome
      have hreasons := congrArg (List.map Fault.reason) hfaults
      rw [List.map_map, List.map_map] at hreasons
      refine .inr ⟨_, _, rfl, rfl, ?_, hreasons, hfaults⟩
      simpa using congrArg List.length hfaults

/-- A document without its URI, and with a version that is no number. -/
def faultyDocument : Json := .object [("version", .text "two")]

def faultyText : Json := .object [("text", .int 1)]

/-- The same, beside a key that belongs to no field. -/
def faultyPart : Json := .object [("range", .null), ("text", .int 1)]

def faultyChange : Json := .object [
  ("textDocument", faultyDocument), ("contentChanges", .array [faultyText])]

/-- The change with its keys in another order and the document under its own name. -/
def respelledChange : Json := .object [
  ("contentChanges", .array [faultyPart]), ("text_document", faultyDocument)]

private theorem spelledAlike_faultyChange : didChange.SpelledAlike faultyChange respelledChange :=
    by
  have htext : contentChange.Respells faultyText faultyPart :=
    .unknown .null [] [("text", .int 1)] (by decide +kernel)
  have hinner : didChange.Respells faultyChange
      (.object [("textDocument", faultyDocument), ("contentChanges", .array [faultyPart])]) :=
    .field [("textDocument", faultyDocument)] [] (List.mem_cons_of_mem _ List.mem_cons_self)
      (by decide +kernel) (.item [] [] htext)
  have hname : didChange.Respells
      (.object [("textDocument", faultyDocument), ("contentChanges", .array [faultyPart])])
      (.object [("text_document", faultyDocument), ("contentChanges", .array [faultyPart])]) :=
    .renamed _ [] [("contentChanges", .array [faultyPart])] List.mem_cons_self
      (by decide +kernel) (by decide +kernel)
  have horder : didChange.Respells
      (.object [("text_document", faultyDocument), ("contentChanges", .array [faultyPart])])
      respelledChange :=
    .order (by decide +kernel) (.swap _ _ _)
  exact .trans _ _ _ (.rel _ _ hinner) (.trans _ _ _ (.rel _ _ hname) (.rel _ _ horder))

theorem validation_ignores_spelling_change :
    didChange.SpelledAlike faultyChange respelledChange ∧
    ∃ e e', didChange.check faultyChange = .error e ∧ didChange.check respelledChange = .error e' ∧
      e'.faults.map (·.reason) = [.missing, .unreadableInteger, .notText] := by
  refine ⟨spelledAlike_faultyChange, ?_⟩
  have hcheck : didChange.check faultyChange = .error ⟨"DidChangeTextDocumentParams", [
      ⟨[.key "textDocument", .key "uri"], .missing, "dict"⟩,
      ⟨[.key "textDocument", .key "version"], .unreadableInteger, "str"⟩,
      ⟨[.key "contentChanges", .index 0, .key "text"], .notText, "int"⟩]⟩ := rfl
  have hmem : didChange ∈ protocolRecords := by simp [protocolRecords]
  rcases validation_ignores_spelling hmem spelledAlike_faultyChange with
    ⟨v, hv, _⟩ | ⟨e, e', he, he', _, hreasons, _⟩
  · rw [hcheck] at hv
    cases hv
  · refine ⟨e, e', he, he', ?_⟩
    rw [hcheck] at he
    cases he
    exact hreasons.symm

end Catalog

end RubyLanguageServer
