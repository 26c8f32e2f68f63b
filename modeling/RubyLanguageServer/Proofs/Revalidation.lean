import Mathlib.Data.List.Forall2
import RubyLanguageServer.Proofs.Paths
import RubyLanguageServer.Proofs.Portable
import RubyLanguageServer.Proofs.Validation
/-!
# Validation of wire forms

Validation yields values of its shape only, and a value of a shape is found again in its wire form.
This asks something of the shape: the fields of a record have names that cannot be confused, and
a field that may be without a value has none if it is absent.
-/
namespace RubyLanguageServer

def Instance.isNone : Instance → Bool
  | .none => true
  | _ => false

theorem Instance.isNone_iff {v : Instance} : v.isNone = true ↔ v = .none := by
  cases v <;> simp [isNone]

namespace Shape

open Schema

/-- Induction over a shape, with a hypothesis for the shape of each field of a record. -/
@[elab_as_elim]
private theorem nested {motive : Shape → Prop} (any : motive .any) (text : motive .text)
    (integer : motive .integer) (flag : motive .flag) (choice : ∀ values, motive (.choice values))
    (requestId : motive .requestId)
    (directories : ∀ current, motive (.directories current))
    (optional : ∀ shape, motive shape → motive (.optional shape))
    (list : ∀ item, motive item → motive (.list item))
    (record : ∀ name fields, (∀ p ∈ fields, motive p.2) → motive (.record name fields))
    (shape : Shape) : motive shape :=
  @Shape.rec motive (fun fields => ∀ p ∈ fields, motive p.2) (fun p => motive p.2) any text integer
    flag choice requestId directories optional list record (List.forall_mem_nil _)
    (fun _ _ hp hps => List.forall_mem_cons.mpr ⟨hp, hps⟩) (fun _ _ hshape => hshape) shape

def isNormalPath : Instance → Bool
  | .text t => Path.normal t = t
  | _ => false

mutual

/-- Whether a value is one of the shape: loose spellings are resolved, and every field is there. -/
def holds : Shape → Instance → Bool
  | .any, .none => true
  | .any, .data .null => false
  | .any, .data _ => true
  | .text, .text _ => true
  | .integer, .integer _ => true
  | .flag, .flag _ => true
  | .choice values, .integer n => isWord n && values.contains n
  | .requestId, .integer _ => true
  | .requestId, .text _ => true
  | .directories _, .list items => !items.isEmpty && items.all isNormalPath
  | .optional shape, v => v.isNone || holds shape v
  | .list item, .list items => items.all (holds item)
  | .record _ fields, .record values => fieldsHold fields values
  | _, _ => false

def fieldsHold : List (Field × Shape) → List (Text × Instance) → Bool
  | [], [] => true
  | (f, shape) :: fields, (key, v) :: values =>
    key = f.wire && holds shape v && fieldsHold fields values
  | _, _ => false

end

theorem fieldsHold_iff {fields : List (Field × Shape)} {values : List (Text × Instance)} :
    fieldsHold fields values = true ↔
      List.Forall₂ (fun p e => e.1 = p.1.wire ∧ holds p.2 e.2 = true) fields values := by
  induction fields generalizing values with
  | nil => cases values <;> simp [fieldsHold]
  | cons p fields ih =>
    cases values with
    | nil => simp [fieldsHold]
    | cons e values => simp [fieldsHold, ih, and_assoc]

/-- A field that may be without a value has none if it is absent, and a default is of its shape. -/
def suits (f : Field) (shape : Shape) : Bool :=
  match f.default with
  | none => !holds shape .none
  | some v => holds shape v && (v.isNone || !holds shape .none)

/-- No two fields have one wire name, and a field's own name is the wire name of no other. -/
def apart (fields : List (Field × Shape)) : Bool :=
  let wires := fields.map (·.1.wire)
  wires.Nodup && fields.all fun p => p.1.name = p.1.wire || !wires.contains p.1.name

mutual

/-- Whether all records in the shape can be found again in their wire form. -/
def isRegular : Shape → Bool
  | .optional shape => isRegular shape
  | .list item => isRegular item
  | .record _ fields => apart fields && areRegular fields
  | _ => true

def areRegular : List (Field × Shape) → Bool
  | [] => true
  | (f, shape) :: fields => isRegular shape && suits f shape && areRegular fields

end

theorem areRegular_iff {fields : List (Field × Shape)} :
    areRegular fields = true ↔ ∀ p ∈ fields, isRegular p.2 = true ∧ suits p.1 p.2 = true := by
  induction fields with
  | nil => simp [areRegular]
  | cons p fields ih => simp [areRegular, ih, and_assoc]

theorem validateFields_eq_ok_iff {members : List (Text × Json)} {fields : List (Field × Shape)}
    {values : List (Text × Instance)} :
    validateFields members fields = .ok values ↔
      List.Forall₂ (fun p e => e.1 = p.1.wire ∧ fieldValue members p.1 p.2 = .ok e.2)
        fields values := by
  induction fields generalizing values with
  | nil =>
    rw [validateFields, List.forall₂_nil_left_iff]
    constructor
    · intro h
      cases h
      rfl
    · intro h
      rw [h]
  | cons p fields ih =>
    constructor
    · intro h
      obtain ⟨v, values, hv, hvalues, rfl⟩ := validateFields_cons_ok h
      exact .cons ⟨rfl, hv⟩ (ih.mp hvalues)
    · intro h
      cases h with
      | @cons _ e _ values hfirst hrest =>
        have hvalues := ih.mpr hrest
        show (both (fieldValue members p.1 p.2) (validateFields members fields)).map _ = _
        rw [hfirst.2, hvalues]
        show Except.ok ((p.1.wire, e.2) :: values) = _
        rw [← hfirst.1]

/-! ## Validation yields values of the shape -/

private theorem validate_flag_ok {j : Json} {v : Instance} (h : validate .flag j = .ok v) :
    ∃ b, v = .flag b := by
  rw [validate] at h
  cases hb : flagOf j with
  | ok b =>
    rw [hb] at h
    cases h
    exact ⟨b, rfl⟩
  | error reason =>
    rw [hb] at h
    cases h

private theorem validate_choice_ok {values : List Int} {j : Json} {v : Instance}
    (h : validate (.choice values) j = .ok v) :
    ∃ n, v = .integer n ∧ isWord n = true ∧ values.contains n = true := by
  rw [validate, choiceOf] at h
  cases hn : integerOf j with
  | error reason =>
    simp only [hn] at h
    cases h
  | ok n =>
    simp only [hn] at h
    by_cases hword : isWord n = true
    · by_cases hmem : values.contains n = true
      · simp only [hword, hmem] at h
        cases h
        exact ⟨n, rfl, hword, hmem⟩
      · simp only [hword, hmem] at h
        cases h
    · simp only [hword] at h
      cases h

private theorem directoriesOf_ok {current : Text} {items : List Json} {v : Instance}
    (h : directoriesOf current items = .ok v) :
    ∃ ts : List Text, v = .list (ts.map .text) ∧ ts ≠ [] ∧ ∀ t ∈ ts, Path.normal t = t := by
  obtain ⟨ts, _, rfl⟩ := map_eq_ok.mp h
  refine ⟨Path.absoluteRoots current ts, rfl, ?_⟩
  rw [Path.absoluteRoots]
  split
  · refine ⟨List.cons_ne_nil _ _, List.forall_mem_singleton.mpr ?_⟩
    exact Path.normal_absolute current []
  · rename_i hts
    refine ⟨by simpa using hts, List.forall_mem_map.mpr fun t _ => ?_⟩
    exact Path.normal_absolute current t

private theorem holds_directories {current : Text} {ts : List Text} (hne : ts ≠ [])
    (h : ∀ t ∈ ts, Path.normal t = t) :
    holds (.directories current) (.list (ts.map .text)) = true := by
  simpa [holds, hne, isNormalPath] using h

theorem validate_optional_of_ne {shape : Shape} {j : Json} (hj : j ≠ .null) :
    validate (.optional shape) j = validate shape j := by
  cases j with
  | null => exact absurd rfl hj
  | _ => rw [validate]; exact hj

private theorem fieldValue_ok {members : List (Text × Json)} {f : Field} {shape : Shape}
    {v : Instance} (h : fieldValue members f shape = .ok v) :
    (∃ j, validate shape j = .ok v) ∨ f.default = some v := by
  rw [fieldValue] at h
  split at h
  · exact .inl ⟨_, under_eq_ok h⟩
  · split at h
    · rename_i hdefault
      cases h
      exact .inr hdefault
    · cases h

private theorem holds_default {f : Field} {shape : Shape} {v : Instance} (h : suits f shape = true)
    (hdefault : f.default = some v) : holds shape v = true := by
  rw [suits, hdefault, Bool.and_eq_true] at h
  exact h.1

theorem holds_of_validate {shape : Shape} (hregular : shape.isRegular = true) {j : Json}
    {v : Instance} (h : validate shape j = .ok v) : holds shape v = true := by
  induction shape using Shape.nested generalizing j v with
  | any =>
    cases j with
    | null =>
      cases h
      rfl
    | _ =>
      cases h
      rfl
  | text =>
    obtain ⟨t, rfl⟩ := validate_text_ok h
    rfl
  | integer =>
    obtain ⟨n, rfl⟩ := validate_integer_ok h
    rfl
  | flag =>
    obtain ⟨b, rfl⟩ := validate_flag_ok h
    rfl
  | choice values =>
    obtain ⟨n, rfl, hword, hmem⟩ := validate_choice_ok h
    rw [holds, hword, hmem]
    rfl
  | requestId =>
    cases j with
    | int n =>
      cases h
      rfl
    | text t =>
      cases h
      rfl
    | _ => simp [validate] at h
  | directories =>
    cases j with
    | array items =>
      rw [validate] at h
      obtain ⟨ts, rfl, hne, hts⟩ := directoriesOf_ok h
      exact holds_directories hne hts
    | _ => simp [validate] at h
  | optional shape ih =>
    rw [holds, Bool.or_eq_true]
    by_cases hj : j = .null
    · subst hj
      cases h
      exact .inl rfl
    · rw [validate_optional_of_ne hj] at h
      exact .inr (ih hregular h)
  | list item ih =>
    obtain ⟨vs, rfl, hvs⟩ := validate_list_ok h
    rw [holds, List.all_eq_true]
    intro w hw
    obtain ⟨j, hj⟩ := hvs w hw
    exact ih hregular hj
  | record name fields ih =>
    obtain ⟨members, values, rfl, hvalues, rfl⟩ := validate_record_ok h
    rw [isRegular, Bool.and_eq_true, areRegular_iff] at hregular
    rw [validateFields_eq_ok_iff, List.forall₂_iff_zip] at hvalues
    rw [holds, fieldsHold_iff, List.forall₂_iff_zip]
    refine ⟨hvalues.1, ?_⟩
    intro p e hmem
    obtain ⟨hkey, hvalue⟩ := hvalues.2 hmem
    have hp : p ∈ fields := (List.of_mem_zip hmem).1
    obtain ⟨hshape, hsuits⟩ := hregular.2 p hp
    refine ⟨hkey, ?_⟩
    rcases fieldValue_ok hvalue with ⟨j, hj⟩ | hdefault
    · exact ih p hp hshape hj
    · exact holds_default hsuits hdefault

/-! ## A value of a shape comes back from its wire form -/

private theorem holds_data_null (shape : Shape) : holds shape (.data .null) = false := by
  induction shape using Shape.nested with
  | optional shape ih => rw [holds, ih]; rfl
  | _ => rfl

private theorem toWire_ne_null {shape : Shape} {v : Instance} (hv : v.Portable) (hne : v ≠ .none)
    (h : holds shape v = true) : v.toWire ≠ .null := by
  cases hv with
  | none => exact absurd rfl hne
  | @data j hfinite _ =>
    rw [Instance.toWire, (Instance.finiteData_eq_iff j).mpr hfinite]
    intro hj
    rw [hj, holds_data_null] at h
    cases h
  | _ =>
    intro hnull
    cases hnull

private theorem choiceOf_int {values : List Int} {n : Int} (hword : isWord n = true)
    (hmem : values.contains n = true) : choiceOf values (.int n) = .ok n := by
  rw [choiceOf, integerOf]
  simp only [hword, hmem, Bool.not_true, Bool.false_eq_true, if_true, if_false]

theorem all_mapIdx_map {α β : Type} {f : Nat → β → Except (List Fault) α} {g : α → β}
    {vs : List α} (h : ∀ i, ∀ v ∈ vs, f i (g v) = .ok v) :
    all ((vs.map g).mapIdx f) = .ok vs := by
  induction vs generalizing f with
  | nil => rfl
  | cons v vs ih =>
    have hrest : all ((vs.map g).mapIdx fun i => f (i + 1)) = .ok vs :=
      ih fun i w hw => h (i + 1) w (List.mem_cons_of_mem v hw)
    rw [List.map_cons, List.mapIdx_cons, all, h 0 v List.mem_cons_self, hrest]
    rfl

private theorem exists_texts {items : List Instance} (h : ∀ v ∈ items, isNormalPath v = true) :
    ∃ ts : List Text, items = ts.map .text ∧ ∀ t ∈ ts, Path.normal t = t := by
  induction items with
  | nil => exact ⟨[], rfl, List.forall_mem_nil _⟩
  | cons v items ih =>
    obtain ⟨hv, hitems⟩ := List.forall_mem_cons.mp h
    obtain ⟨ts, rfl, hts⟩ := ih hitems
    cases v with
    | text t => exact ⟨t :: ts, rfl, List.forall_mem_cons.mpr ⟨of_decide_eq_true hv, hts⟩⟩
    | _ => cases hv

private theorem directoriesOf_texts {current : Text} {ts : List Text} (hne : ts ≠ [])
    (h : ∀ t ∈ ts, Path.normal t = t) :
    directoriesOf current (ts.map .text) = .ok (.list (ts.map .text)) := by
  have htexts : ts.map (Path.absolute current) = ts :=
    Instance.map_eq_self_iff.mpr fun t ht => Path.absolute_of_normal (h t ht) current
  rw [directoriesOf, all_mapIdx_map]
  · simp only [Except.map, Path.absoluteRoots, if_neg hne, htexts]
  · intro i t _
    rfl

private theorem default_of_holds_none {f : Field} {shape : Shape} (h : suits f shape = true)
    (hnone : holds shape .none = true) : f.default = some .none := by
  rw [suits] at h
  cases hdefault : f.default with
  | none => simp [hdefault, hnone] at h
  | some v =>
    have hv : v.isNone = true := by simp_all
    rw [Instance.isNone_iff.mp hv]

private theorem supplied?_fieldsToWire {f : Field} {v : Instance} {values : List (Text × Instance)}
    (hnodup : (values.map Prod.fst).Nodup) (hmem : (f.wire, v) ∈ values)
    (hname : f.name = f.wire ∨ f.name ∉ values.map Prod.fst) :
    supplied? f (Instance.fieldsToWire values) =
      if v.isNone then none else some (f.wire, v.toWire) := by
  have hwire := Instance.find?_fieldsToWire hnodup hmem
  rw [supplied?]
  by_cases hv : v = .none
  · have hown : Entries.find? f.name (Instance.fieldsToWire values) = none := by
      rcases hname with hname | hname
      · rw [hname]
        exact hwire.1 hv
      · exact Instance.find?_fieldsToWire_of_not_mem hname
    rw [hwire.1 hv, hown, if_pos (Instance.isNone_iff.mpr hv)]
    rfl
  · rw [hwire.2 hv, if_neg fun h => hv (Instance.isNone_iff.mp h)]

theorem fieldValue_fieldsToWire {f : Field} {shape : Shape} {v : Instance}
    {values : List (Text × Instance)} (hnodup : (values.map Prod.fst).Nodup)
    (hmem : (f.wire, v) ∈ values) (hname : f.name = f.wire ∨ f.name ∉ values.map Prod.fst)
    (hsuits : suits f shape = true) (hholds : holds shape v = true)
    (hvalid : validate shape v.toWire = .ok v) :
    fieldValue (Instance.fieldsToWire values) f shape = .ok v := by
  rw [fieldValue, supplied?_fieldsToWire hnodup hmem hname]
  by_cases hv : v = .none
  · subst hv
    have hdefault := default_of_holds_none hsuits hholds
    simp [Instance.isNone, hdefault]
  · have hnone : v.isNone = false := by simpa [← Instance.isNone_iff] using hv
    simp [hnone, hvalid, under]

theorem apart_iff {fields : List (Field × Shape)} :
    apart fields = true ↔ (fields.map (·.1.wire)).Nodup ∧
      ∀ p ∈ fields, p.1.name = p.1.wire ∨ p.1.name ∉ fields.map (·.1.wire) := by
  simp [apart]

private theorem map_fst_of_forall₂ {R : Field × Shape → Text × Instance → Prop}
    {fields : List (Field × Shape)} {values : List (Text × Instance)}
    (h : List.Forall₂ (fun p e => e.1 = p.1.wire ∧ R p e) fields values) :
    values.map Prod.fst = fields.map (·.1.wire) := by
  induction h with
  | nil => rfl
  | cons hfirst _ ih => rw [List.map_cons, List.map_cons, hfirst.1, ih]

/-- A portable value of a shape is what validation makes of its wire form. -/
theorem validate_toWire {shape : Shape} (hregular : shape.isRegular = true) {v : Instance}
    (hv : v.Portable) (h : holds shape v = true) : validate shape v.toWire = .ok v := by
  induction shape using Shape.nested generalizing v with
  | any =>
    cases hv with
    | none => rfl
    | @data j hfinite _ =>
      rw [Instance.toWire, (Instance.finiteData_eq_iff j).mpr hfinite]
      cases j with
      | null => cases h
      | _ => rfl
    | _ => cases h
  | text =>
    cases v with
    | text t => rfl
    | _ => cases h
  | integer =>
    cases v with
    | integer n => rfl
    | _ => cases h
  | flag =>
    cases v with
    | flag b => rfl
    | _ => cases h
  | choice values =>
    cases v with
    | integer n =>
      rw [holds, Bool.and_eq_true] at h
      rw [Instance.toWire, validate, choiceOf_int h.1 h.2]
    | _ => cases h
  | requestId =>
    cases v with
    | integer n => rfl
    | text t => rfl
    | _ => cases h
  | directories =>
    cases v with
    | list items =>
      rw [holds, Bool.and_eq_true, List.all_eq_true] at h
      obtain ⟨ts, rfl, hts⟩ := exists_texts h.2
      rw [Instance.toWire, Instance.itemsToWire_eq_map, List.map_map, validate]
      exact directoriesOf_texts (by simpa using h.1) hts
    | _ => cases h
  | optional shape ih =>
    by_cases hnone : v = .none
    · subst hnone
      rfl
    · have hshape : holds shape v = true := by
        rw [holds, Bool.or_eq_true, Instance.isNone_iff] at h
        exact h.resolve_left hnone
      rw [validate_optional_of_ne (toWire_ne_null hv hnone hshape)]
      exact ih hregular hv hshape
  | list item ih =>
    cases hv with
    | @list items hitems =>
      rw [holds, List.all_eq_true] at h
      rw [Instance.toWire, Instance.itemsToWire_eq_map, validate, all_mapIdx_map]
      · rfl
      · intro i w hw
        rw [ih hregular (hitems w hw) (h w hw)]
        rfl
    | _ => cases h
  | record name fields ih =>
    cases hv with
    | @record values hvalues =>
      rw [isRegular, Bool.and_eq_true, areRegular_iff, apart_iff] at hregular
      obtain ⟨⟨hwires, hnames⟩, hfields⟩ := hregular
      rw [holds, fieldsHold_iff] at h
      have hkeys := map_fst_of_forall₂ h
      rw [List.forall₂_iff_zip] at h
      have hvalidates : validateFields (Instance.fieldsToWire values) fields = .ok values := by
        rw [validateFields_eq_ok_iff, List.forall₂_iff_zip]
        refine ⟨h.1, ?_⟩
        intro p e hmem
        obtain ⟨hkey, hholds⟩ := h.2 hmem
        obtain ⟨hp, he⟩ := List.of_mem_zip hmem
        obtain ⟨hshape, hsuits⟩ := hfields p hp
        have hvalid := ih p hp hshape (hvalues e he) hholds
        rw [← hkeys] at hwires hnames
        refine ⟨hkey, fieldValue_fieldsToWire hwires ?_ (hnames p hp) hsuits hholds hvalid⟩
        rw [← hkey]
        exact he
      rw [Instance.toWire, validate, hvalidates]
      rfl
    | _ => cases h

/-! ## Shapes without data -/

mutual

/-- Whether no part of the shape takes arbitrary data. -/
def isTyped : Shape → Bool
  | .any => false
  | .optional shape => isTyped shape
  | .list item => isTyped item
  | .record _ fields => areTyped fields
  | _ => true

def areTyped : List (Field × Shape) → Bool
  | [] => true
  | (_, shape) :: fields => isTyped shape && areTyped fields

end

theorem areTyped_iff {fields : List (Field × Shape)} :
    areTyped fields = true ↔ ∀ p ∈ fields, isTyped p.2 = true := by
  induction fields with
  | nil => simp [areTyped]
  | cons p fields ih => simp [areTyped, ih]

theorem portable_of_holds {shape : Shape} (htyped : shape.isTyped = true) {v : Instance}
    (h : holds shape v = true) : v.Portable := by
  induction shape using Shape.nested generalizing v with
  | any => cases htyped
  | text =>
    cases v with
    | text t => exact .text t
    | _ => cases h
  | integer =>
    cases v with
    | integer n => exact .integer n
    | _ => cases h
  | flag =>
    cases v with
    | flag b => exact .flag b
    | _ => cases h
  | choice values =>
    cases v with
    | integer n => exact .integer n
    | _ => cases h
  | requestId =>
    cases v with
    | integer n => exact .integer n
    | text t => exact .text t
    | _ => cases h
  | directories =>
    cases v with
    | list items =>
      rw [holds, Bool.and_eq_true, List.all_eq_true] at h
      obtain ⟨ts, rfl, _⟩ := exists_texts h.2
      refine .list fun v hv => ?_
      obtain ⟨t, _, rfl⟩ := List.mem_map.mp hv
      exact .text t
    | _ => cases h
  | optional shape ih =>
    rw [holds, Bool.or_eq_true, Instance.isNone_iff] at h
    rcases h with rfl | h
    · exact .none
    · exact ih htyped h
  | list item ih =>
    cases v with
    | list items =>
      rw [holds, List.all_eq_true] at h
      exact .list fun v hv => ih htyped (h v hv)
    | _ => cases h
  | record name fields ih =>
    cases v with
    | record values =>
      rw [isTyped, areTyped_iff] at htyped
      rw [holds, fieldsHold_iff] at h
      refine .record ?_
      induction h with
      | nil => exact List.forall_mem_nil _
      | cons hfirst _ ihrest =>
        obtain ⟨hshape, hshapes⟩ := List.forall_mem_cons.mp htyped
        obtain ⟨ihfirst, ihlater⟩ := List.forall_mem_cons.mp ih
        exact List.forall_mem_cons.mpr ⟨ihfirst hshape hfirst.2, ihrest ihlater hshapes⟩
    | _ => cases h

theorem check_of_validate {shape : Shape} {j : Json} {v : Instance}
    (h : shape.validate j = .ok v) : shape.check j = .ok v := by
  rw [check, h]
  rfl

/-- The wire form of what validation makes of a value. -/
def rewire? (shape : Shape) (j : Json) : Option Json :=
  match shape.check j with
  | .ok v => v.dump.toOption
  | .error _ => none

theorem rewire?_of_check {shape : Shape} {j : Json} {v : Instance} (h : shape.check j = .ok v) :
    shape.rewire? j = v.dump.toOption := by
  rw [rewire?, h]

end Shape

end RubyLanguageServer
