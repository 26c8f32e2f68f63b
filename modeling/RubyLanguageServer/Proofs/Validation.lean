import RubyLanguageServer.Proofs.Entries
import RubyLanguageServer.Proofs.JsonReader
import RubyLanguageServer.Wire.Message
/-!
# What validation accepts

A record that validates came from an object, and each of its fields from the field's own value in
that object or from its default. For the messages and parameters that the server acts on, this gives
the texts and numbers that they hold.
-/
namespace RubyLanguageServer

namespace Shape

open Schema

private theorem both_eq_ok {α β : Type} {x : Except (List Fault) α} {y : Except (List Fault) β}
    {a : α} {b : β} (h : both x y = .ok (a, b)) : x = .ok a ∧ y = .ok b := by
  cases x with
  | error e => cases y <;> cases h
  | ok a' =>
    cases y with
    | error e => cases h
    | ok b' =>
      cases h
      exact ⟨rfl, rfl⟩

theorem under_eq_ok {α : Type} {step : Step} {x : Except (List Fault) α} {a : α}
    (h : under step x = .ok a) : x = .ok a := by
  cases x with
  | error e => cases h
  | ok a' => exact h

def fieldValue (members : List (Text × Json)) (f : Field) (shape : Shape) :
    Except (List Fault) Instance :=
  match supplied? f members with
  | some (key, j) => under (.key key) (validate shape j)
  | none =>
    match f.default with
    | some v => .ok v
    | none => .error [⟨[.key f.wire], .missing, "dict"⟩]

theorem validateFields_cons_ok {members : List (Text × Json)} {f : Field} {shape : Shape}
    {rest : List (Field × Shape)} {vs : List (Text × Instance)}
    (h : validateFields members ((f, shape) :: rest) = .ok vs) :
    ∃ v vs', fieldValue members f shape = .ok v ∧ validateFields members rest = .ok vs' ∧
      vs = (f.wire, v) :: vs' := by
  rw [validateFields] at h
  obtain ⟨⟨v, vs'⟩, hboth, rfl⟩ := map_eq_ok.mp h
  obtain ⟨hv, hvs⟩ := both_eq_ok hboth
  exact ⟨v, vs', hv, hvs, rfl⟩

theorem validate_record_ok {name : Text} {fields : List (Field × Shape)} {j : Json} {v : Instance}
    (h : validate (.record name fields) j = .ok v) :
    ∃ members vs, j = .object members ∧ validateFields members fields = .ok vs ∧
      v = .record vs := by
  cases j with
  | object members =>
    rw [validate] at h
    obtain ⟨vs, hvs, rfl⟩ := map_eq_ok.mp h
    exact ⟨members, vs, rfl, hvs, rfl⟩
  | _ => simp [validate] at h

theorem fieldValue_required_ok {members : List (Text × Json)} {name wire : Text} {shape : Shape}
    {v : Instance} (h : fieldValue members ⟨name, wire, none⟩ shape = .ok v) :
    ∃ j, validate shape j = .ok v := by
  rw [fieldValue] at h
  split at h
  · exact ⟨_, under_eq_ok h⟩
  · cases h

theorem validate_text_ok {j : Json} {v : Instance} (h : validate .text j = .ok v) :
    ∃ t, v = .text t := by
  cases j with
  | text t =>
    cases h
    exact ⟨t, rfl⟩
  | _ => simp [validate] at h

theorem validate_integer_ok {j : Json} {v : Instance} (h : validate .integer j = .ok v) :
    ∃ n, v = .integer n := by
  rw [validate] at h
  cases hn : integerOf j with
  | ok n =>
    rw [hn] at h
    cases h
    exact ⟨n, rfl⟩
  | error reason =>
    rw [hn] at h
    cases h

private theorem all_eq_ok {α : Type} {xs : List (Except (List Fault) α)} {vs : List α}
    (h : all xs = .ok vs) : ∀ v ∈ vs, .ok v ∈ xs := by
  induction xs generalizing vs with
  | nil =>
    cases h
    exact nofun
  | cons x xs ih =>
    rw [all] at h
    obtain ⟨⟨v, vs'⟩, hboth, rfl⟩ := map_eq_ok.mp h
    obtain ⟨rfl, hvs⟩ := both_eq_ok hboth
    intro w hw
    rcases List.mem_cons.mp hw with rfl | hw
    · exact List.mem_cons_self
    · exact List.mem_cons_of_mem _ (ih hvs w hw)

theorem validate_list_ok {item : Shape} {j : Json} {v : Instance}
    (h : validate (.list item) j = .ok v) :
    ∃ vs, v = .list vs ∧ ∀ w ∈ vs, ∃ j, validate item j = .ok w := by
  cases j with
  | array items =>
    rw [validate] at h
    obtain ⟨vs, hvs, rfl⟩ := map_eq_ok.mp h
    refine ⟨vs, rfl, fun w hw => ?_⟩
    obtain ⟨i, hi, heq⟩ := List.mem_mapIdx.mp (all_eq_ok hvs w hw)
    exact ⟨_, under_eq_ok heq⟩
  | _ => simp [validate] at h

theorem check_eq_ok {shape : Shape} {j : Json} {v : Instance} (h : shape.check j = .ok v) :
    shape.validate j = .ok v := by
  rw [check] at h
  cases hv : shape.validate j with
  | ok w =>
    rw [hv] at h
    cases h
    rfl
  | error e =>
    rw [hv] at h
    cases h

end Shape

namespace Catalog

open Shape

private theorem documentItem_ok {j : Json} {v : Instance} (h : validate documentItem j = .ok v) :
    ∃ uri text, v.field "uri" = .text uri ∧ v.field "text" = .text text := by
  obtain ⟨members, vs, rfl, hfields, rfl⟩ := validate_record_ok h
  obtain ⟨uri, vs, huri, hlater, rfl⟩ := validateFields_cons_ok hfields
  obtain ⟨language, vs, _, hlater₂, rfl⟩ := validateFields_cons_ok hlater
  obtain ⟨version, vs, _, hlater₃, rfl⟩ := validateFields_cons_ok hlater₂
  obtain ⟨text, vs, htext, _, rfl⟩ := validateFields_cons_ok hlater₃
  obtain ⟨_, huri⟩ := fieldValue_required_ok huri
  obtain ⟨_, htext⟩ := fieldValue_required_ok htext
  obtain ⟨uri, rfl⟩ := validate_text_ok huri
  obtain ⟨text, rfl⟩ := validate_text_ok htext
  exact ⟨uri, text, rfl, rfl⟩

theorem uri_ok {name : Text} {fields : List (Field × Shape)} {j : Json} {v : Instance}
    (h : validate (.record name (required "uri" "uri" .text :: fields)) j = .ok v) :
    ∃ uri, v.field "uri" = .text uri := by
  obtain ⟨members, vs, rfl, hfields, rfl⟩ := validate_record_ok h
  obtain ⟨uri, vs, huri, _, rfl⟩ := validateFields_cons_ok hfields
  obtain ⟨_, huri⟩ := fieldValue_required_ok huri
  obtain ⟨uri, rfl⟩ := validate_text_ok huri
  exact ⟨uri, rfl⟩

private theorem contentChange_ok {j : Json} {v : Instance} (h : validate contentChange j = .ok v) :
    ∃ text, v.field "text" = .text text := by
  obtain ⟨members, vs, rfl, hfields, rfl⟩ := validate_record_ok h
  obtain ⟨text, vs, htext, _, rfl⟩ := validateFields_cons_ok hfields
  obtain ⟨_, htext⟩ := fieldValue_required_ok htext
  obtain ⟨text, rfl⟩ := validate_text_ok htext
  exact ⟨text, rfl⟩

theorem didOpen_ok {j : Json} {v : Instance} (h : didOpen.check j = .ok v) :
    ∃ uri text, (v.field "textDocument").field "uri" = .text uri ∧
      (v.field "textDocument").field "text" = .text text := by
  obtain ⟨members, vs, rfl, hfields, rfl⟩ := validate_record_ok (check_eq_ok h)
  obtain ⟨document, vs, hdocument, _, rfl⟩ := validateFields_cons_ok hfields
  obtain ⟨_, hdocument⟩ := fieldValue_required_ok hdocument
  exact documentItem_ok hdocument

theorem didChange_ok {j : Json} {v : Instance} (h : didChange.check j = .ok v) :
    ∃ uri changes, (v.field "textDocument").field "uri" = .text uri ∧
      v.field "contentChanges" = .list changes ∧
      ∀ change ∈ changes, ∃ text, change.field "text" = .text text := by
  obtain ⟨members, vs, rfl, hfields, rfl⟩ := validate_record_ok (check_eq_ok h)
  obtain ⟨document, vs, hdocument, hlater, rfl⟩ := validateFields_cons_ok hfields
  obtain ⟨changes, vs, hchanges, _, rfl⟩ := validateFields_cons_ok hlater
  obtain ⟨_, hdocument⟩ := fieldValue_required_ok hdocument
  obtain ⟨_, hchanges⟩ := fieldValue_required_ok hchanges
  obtain ⟨uri, huri⟩ := uri_ok hdocument
  obtain ⟨changes, rfl, hall⟩ := validate_list_ok hchanges
  refine ⟨uri, changes, huri, rfl, fun change hchange => ?_⟩
  obtain ⟨_, hvalid⟩ := hall change hchange
  exact contentChange_ok hvalid

private theorem position_ok {j : Json} {v : Instance} (h : validate position j = .ok v) :
    ∃ line character, v.field "line" = .integer line ∧
      v.field "character" = .integer character := by
  obtain ⟨members, vs, rfl, hfields, rfl⟩ := validate_record_ok h
  obtain ⟨line, vs, hline, hlater, rfl⟩ := validateFields_cons_ok hfields
  obtain ⟨character, vs, hcharacter, _, rfl⟩ := validateFields_cons_ok hlater
  obtain ⟨_, hline⟩ := fieldValue_required_ok hline
  obtain ⟨_, hcharacter⟩ := fieldValue_required_ok hcharacter
  obtain ⟨line, rfl⟩ := validate_integer_ok hline
  obtain ⟨character, rfl⟩ := validate_integer_ok hcharacter
  exact ⟨line, character, rfl, rfl⟩

theorem completion_ok {j : Json} {v : Instance} (h : completion.check j = .ok v) :
    ∃ uri line character, (v.field "textDocument").field "uri" = .text uri ∧
      (v.field "position").field "line" = .integer line ∧
      (v.field "position").field "character" = .integer character := by
  obtain ⟨members, vs, rfl, hfields, rfl⟩ := validate_record_ok (check_eq_ok h)
  obtain ⟨document, vs, hdocument, hlater, rfl⟩ := validateFields_cons_ok hfields
  obtain ⟨place, vs, hplace, _, rfl⟩ := validateFields_cons_ok hlater
  obtain ⟨_, hdocument⟩ := fieldValue_required_ok hdocument
  obtain ⟨_, hplace⟩ := fieldValue_required_ok hplace
  obtain ⟨uri, huri⟩ := uri_ok hdocument
  obtain ⟨line, character, hline, hcharacter⟩ := position_ok hplace
  exact ⟨uri, line, character, huri, hline, hcharacter⟩

theorem message_id {members : List (Text × Json)} {m : Message} {id : RequestId}
    (h : Message.ofJson (.object members) = .ok m) (hid : m.id = some id) :
    Entries.find? "id" members = some id.toJson := by
  rw [Message.ofJson] at h
  obtain ⟨v, hv, rfl⟩ := map_eq_ok.mp h
  obtain ⟨members', vs, hmembers, hfields, rfl⟩ := validate_record_ok (check_eq_ok hv)
  cases hmembers
  obtain ⟨w, vs, hw, _, rfl⟩ := validateFields_cons_ok hfields
  have hfield : Instance.field "id" (.record (("id", w) :: vs)) = w := rfl
  simp only [Message.ofInstance, hfield] at hid
  rw [fieldValue] at hw
  split at hw
  · rename_i key j hsupplied
    have hfound : Entries.find? "id" members = some j := by
      simp only [supplied?] at hsupplied
      split at hsupplied
      · cases hsupplied
        assumption
      · rename_i hnone
        rw [hnone] at hsupplied
        cases hsupplied
    rw [hfound]
    have hvalid := under_eq_ok hw
    cases j with
    | int n =>
      cases hvalid
      cases hid
      rfl
    | text t =>
      cases hvalid
      cases hid
      rfl
    | null =>
      cases hvalid
      cases hid
    | _ => simp [validate] at hvalid
  · cases hw
    cases hid

theorem message_params {members : List (Text × Json)} {m : Message}
    (h : Message.ofJson (.object members) = .ok m) :
    m.params = (Entries.find? "params" members).getD .null := by
  rw [Message.ofJson] at h
  obtain ⟨v, hv, rfl⟩ := map_eq_ok.mp h
  obtain ⟨members', vs, hmembers, hfields, rfl⟩ := validate_record_ok (check_eq_ok hv)
  cases hmembers
  obtain ⟨id, vs, _, hlater, rfl⟩ := validateFields_cons_ok hfields
  obtain ⟨method, vs, _, hlater₂, rfl⟩ := validateFields_cons_ok hlater
  obtain ⟨w, vs, hw, _, rfl⟩ := validateFields_cons_ok hlater₂
  have hfield : Instance.field "params"
      (.record (("id", id) :: ("method", method) :: ("params", w) :: vs)) = w := rfl
  show (Instance.field "params" _).asData = _
  rw [hfield]
  rw [fieldValue, supplied?] at hw
  cases hfind : Entries.find? "params" members with
  | none =>
    simp only [hfind] at hw
    cases hw
    rfl
  | some j =>
    simp only [hfind] at hw
    have hvalid := under_eq_ok hw
    cases j with
    | null =>
      cases hvalid
      rfl
    | _ =>
      cases hvalid
      rfl

end Catalog

end RubyLanguageServer
