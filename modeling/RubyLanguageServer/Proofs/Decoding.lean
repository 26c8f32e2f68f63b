import RubyLanguageServer.Proofs.JsonLanguage
import RubyLanguageServer.Proofs.Revalidation
import RubyLanguageServer.Proofs.Survival
import RubyLanguageServer.Proofs.Utf8Forms
/-!
# What is decoded as a message

Content is a message exactly if it is the UTF-8 encoding of an object in the language of JSON texts
whose last method is a string and whose last id, if there is one, is a string, an integer or null.
The message is made of the last id, method and parameters. Other content is refused as it stands,
as long as no integer in it has too many digits.
-/
namespace RubyLanguageServer

namespace Catalog

open Shape

private theorem fieldValue_of_some {members : List (Text × Json)} {key : Text} {j : Json}
    (h : Entries.find? key members = some j) (default : Option Instance) (shape : Shape) :
    fieldValue members ⟨key, key, default⟩ shape = under (.key key) (validate shape j) := by
  simp [fieldValue, supplied?, h]

private theorem fieldValue_of_none {members : List (Text × Json)} {key : Text}
    (h : Entries.find? key members = none) (v : Instance) (shape : Shape) :
    fieldValue members ⟨key, key, some v⟩ shape = .ok v := by
  simp [fieldValue, supplied?, h]

/-- The id of a message as the value of its field. -/
def idField : Option RequestId → Instance
  | none => .none
  | some (.int n) => .integer n
  | some (.text t) => .text t

/-- The parameters of a message as the value of their field. -/
def paramsField : Json → Instance
  | .null => .none
  | j => .data j

private theorem ofInstance_fields (id : Option RequestId) (method : Text) (params : Json) :
    Message.ofInstance (.record
      [("id", idField id), ("method", .text method), ("params", paramsField params)]) =
        ⟨id, method, params⟩ := by
  have hid : (Instance.record [("id", idField id), ("method", .text method),
      ("params", paramsField params)]).field "id" = idField id := rfl
  have hparams : (Instance.record [("id", idField id), ("method", .text method),
      ("params", paramsField params)]).field "params" = paramsField params := rfl
  have hmethod : (Instance.record [("id", idField id), ("method", .text method),
      ("params", paramsField params)]).field "method" = .text method := rfl
  rw [Message.ofInstance, hid, hparams, hmethod]
  congr 1
  · rcases id with _ | _ | _ <;> rfl
  · cases params <;> rfl

theorem fieldValue_id_iff {members : List (Text × Json)} {v : Instance} :
    fieldValue members ⟨"id", "id", some .none⟩ (.optional .requestId) = .ok v ↔
      ∃ id : Option RequestId, v = idField id ∧
        (Entries.find? "id" members).getD .null = (id.map RequestId.toJson).getD .null := by
  cases hfind : Entries.find? "id" members with
  | none =>
    rw [fieldValue_of_none hfind]
    constructor
    · intro h
      cases h
      exact ⟨none, rfl, rfl⟩
    · rintro ⟨id, rfl, hid⟩
      rcases id with _ | _ | _
      · rfl
      · cases hid
      · cases hid
  | some j =>
    rw [fieldValue_of_some hfind, Option.getD_some]
    constructor
    · intro h
      have hvalid := under_eq_ok h
      cases j with
      | null =>
        cases hvalid
        exact ⟨none, rfl, rfl⟩
      | int n =>
        cases hvalid
        exact ⟨some (.int n), rfl, rfl⟩
      | text t =>
        cases hvalid
        exact ⟨some (.text t), rfl, rfl⟩
      | _ => simp [validate] at hvalid
    · rintro ⟨id, rfl, hid⟩
      rw [hid]
      rcases id with _ | _ | _ <;> rfl

theorem fieldValue_method_iff {members : List (Text × Json)} {v : Instance} :
    fieldValue members ⟨"method", "method", none⟩ .text = .ok v ↔
      ∃ method : Text, v = .text method ∧ Entries.find? "method" members = some (.text method) := by
  cases hfind : Entries.find? "method" members with
  | none =>
    constructor
    · intro h
      simp [fieldValue, supplied?, hfind] at h
    · rintro ⟨method, -, h⟩
      cases h
  | some j =>
    rw [fieldValue_of_some hfind]
    constructor
    · intro h
      have hvalid := under_eq_ok h
      cases j with
      | text t =>
        cases hvalid
        exact ⟨t, rfl, rfl⟩
      | _ => simp [validate] at hvalid
    · rintro ⟨method, rfl, h⟩
      cases h
      rfl

private theorem fieldValue_params (members : List (Text × Json)) :
    fieldValue members ⟨"params", "params", some .none⟩ .any =
      .ok (paramsField ((Entries.find? "params" members).getD .null)) := by
  cases hfind : Entries.find? "params" members with
  | none => rw [fieldValue_of_none hfind, Option.getD_none, paramsField]
  | some j =>
    rw [fieldValue_of_some hfind, Option.getD_some]
    cases j <;> rfl

end Catalog

namespace Message

open Shape Catalog

/-- An object is a message exactly if its method and its id are of the right kind. -/
theorem ofJson_eq_ok_iff {members : List (Text × Json)} {m : Message} :
    ofJson (.object members) = .ok m ↔
      Entries.find? "method" members = some (.text m.method) ∧
      (Entries.find? "id" members).getD .null = (m.id.map RequestId.toJson).getD .null ∧
      m.params = (Entries.find? "params" members).getD .null := by
  constructor
  · intro h
    obtain ⟨v, hv, hm⟩ := map_eq_ok.mp h
    obtain ⟨_, vs, hmembers, hfields, rfl⟩ := validate_record_ok (check_eq_ok hv)
    cases hmembers
    have hvalues := validateFields_eq_ok_iff.mp hfields
    obtain ⟨⟨_, id⟩, _, ⟨rfl, hid⟩, hlater, rfl⟩ := List.forall₂_cons_left_iff.mp hvalues
    obtain ⟨⟨_, method⟩, _, ⟨rfl, hmethod⟩, hlast, rfl⟩ := List.forall₂_cons_left_iff.mp hlater
    obtain ⟨⟨_, params⟩, _, ⟨rfl, hparams⟩, hnil, rfl⟩ := List.forall₂_cons_left_iff.mp hlast
    obtain rfl := List.forall₂_nil_left_iff.mp hnil
    obtain ⟨id, rfl, hid'⟩ := fieldValue_id_iff.mp hid
    obtain ⟨method, rfl, hmethod'⟩ := fieldValue_method_iff.mp hmethod
    obtain rfl := Except.ok.inj (hparams.symm.trans (fieldValue_params members))
    obtain rfl := (ofInstance_fields id method _).symm.trans hm
    exact ⟨hmethod', hid', rfl⟩
  · rintro ⟨hmethod, hid, hparams⟩
    have hfields : validateFields members
        [optional "id" "id" .requestId, required "method" "method" .text,
          defaulted "params" "params" .any .none] =
        .ok [("id", idField m.id), ("method", .text m.method), ("params", paramsField m.params)] :=
      validateFields_eq_ok_iff.mpr
        (.cons ⟨rfl, fieldValue_id_iff.mpr ⟨m.id, rfl, hid⟩⟩
          (.cons ⟨rfl, fieldValue_method_iff.mpr ⟨m.method, rfl, hmethod⟩⟩
            (.cons ⟨rfl, hparams ▸ fieldValue_params members⟩ .nil)))
    have hcheck : Catalog.message.check (.object members) = .ok (.record
        [("id", idField m.id), ("method", .text m.method), ("params", paramsField m.params)]) := by
      rw [check, message, validate, hfields]
      rfl
    rw [ofJson, hcheck]
    exact congrArg Except.ok (ofInstance_fields m.id m.method m.params)

/-- The content is the UTF-8 encoding of an object with members, and the message is made of those
given last. -/
def Spelled (content : Bytes) (m : Message) : Prop :=
  ∃ (s : String) (w u w' : Text) (pairs : List (Text × Json)),
    content = s.toList.flatMap String.utf8EncodeChar ∧
    Text.ofString s = w ++ CodePoint.ofChar '{' :: (u ++ CodePoint.ofChar '}' :: w') ∧
    Json.Spacing w ∧ Json.Derives u (.members pairs) ∧ Json.Spacing w' ∧
    Entries.last? "method" pairs = some (.text m.method) ∧
    (Entries.last? "id" pairs).getD .null = (m.id.map RequestId.toJson).getD .null ∧
    m.params = (Entries.last? "params" pairs).getD .null

private theorem denotes_object {w u w' : Text} {pairs : List (Text × Json)} (hw : Json.Spacing w)
    (hu : Json.Derives u (.members pairs)) (hw' : Json.Spacing w') :
    Json.Denotes (w ++ CodePoint.ofChar '{' :: (u ++ CodePoint.ofChar '}' :: w'))
      (.object (Entries.ofList pairs)) :=
  ⟨w, _, w', hw, .object hu, hw', by simp⟩

theorem decode_eq_ok_iff_spelled {content : Bytes} (h : ∀ s : String,
    content = s.toList.flatMap String.utf8EncodeChar → ¬Json.HasLongLiteral (.ofString s))
    {m : Message} : decode content = .ok m ↔ Spelled content m := by
  constructor
  · intro hdecode
    obtain ⟨text, members, htext, hread, hm⟩ := exists_members_of_decode hdecode
    obtain ⟨s, rfl, hcontent⟩ := Utf8.decode_eq_ok_iff_string.mp htext
    obtain ⟨w, u, w', hw, hu, hw', ht⟩ := Json.denotes_of_read hread
    obtain ⟨hmethod, hid, hparams⟩ := ofJson_eq_ok_iff.mp hm
    cases hu with
    | emptyObject => cases hmethod
    | @object u pairs hpairs =>
      simp only [Entries.find?_ofList] at hmethod hid hparams
      exact ⟨s, w, u, w', pairs, hcontent, by simpa using ht, hw, hpairs, hw', hmethod, hid,
        hparams⟩
  · rintro ⟨s, w, u, w', pairs, hcontent, hs, hw, hu, hw', hmethod, hid, hparams⟩
    have hread : Json.read (.ofString s) = .ok (.object (Entries.ofList pairs)) :=
      (Json.read_eq_ok_iff_denotes (h s hcontent)).mpr (hs ▸ denotes_object hw hu hw')
    have hm : ofJson (.object (Entries.ofList pairs)) = .ok m := by
      apply ofJson_eq_ok_iff.mpr
      simp only [Entries.find?_ofList]
      exact ⟨hmethod, hid, hparams⟩
    have htext : Utf8.decode content = .ok (.ofString s) :=
      Utf8.decode_eq_ok_iff_string.mpr ⟨s, rfl, hcontent⟩
    simp only [decode, htext, hread, hm]

end Message

namespace Frame

theorem reading_eq_message_iff {content : Bytes} {m : Message} :
    reading content = .message m ↔ Message.decode content = .ok m := by
  rw [reading]
  cases Message.decode content with
  | ok m' => simp
  | error refusal => cases refusal <;> simp

/-- Content without an integer of more than 4300 digits is read as a message exactly if it spells
one, and any other is given back as undecodable. -/
theorem reading_accepts_language {content : Bytes} (h : ∀ s : String,
    content = s.toList.flatMap String.utf8EncodeChar → ¬Json.HasLongLiteral (.ofString s)) :
    (∀ m, reading content = .message m ↔ Message.Spelled content m) ∧
      ((¬∃ m, Message.Spelled content m) → ∃ e, reading content = .undecodable content e) := by
  have hmessage : ∀ m, reading content = .message m ↔ Message.Spelled content m := by
    intro m
    rw [reading_eq_message_iff, Message.decode_eq_ok_iff_spelled h]
  refine ⟨hmessage, fun hnone => ?_⟩
  cases hdecode : Message.decode content with
  | ok m => exact absurd ⟨m, (Message.decode_eq_ok_iff_spelled h).mp hdecode⟩ hnone
  | error refusal =>
    cases refusal with
    | undecodable e => exact ⟨e, by rw [reading, hdecode]⟩
    | excess e =>
      obtain ⟨text, digits, htext, rfl, hoverruns⟩ := Message.decode_eq_excess_iff.mp hdecode
      obtain ⟨s, rfl, hcontent⟩ := Utf8.decode_eq_ok_iff_string.mp htext
      have hread := Json.read_eq_excess_iff.mpr ⟨digits, rfl, hoverruns⟩
      exact absurd (Json.hasLongLiteral_of_read hread) (h s hcontent)

/-- Members given twice, letters beyond ASCII, a pair of escaped surrogates and one alone. -/
def doubled : String :=
  "\t\x7b \"id\": true, \"method\" :\"\\u00e9é\\uD83D\\ude00\", \"params\": [NaN, -0],\r\n" ++
  "\"id\" : \"\\ud800\", \"params\": \x7b\"a\": [], \"\\u0061\": null\x7d \x7d\n"

theorem reading_accepts_language_doubled :
    let content := doubled.toList.flatMap String.utf8EncodeChar
    let m : Message := ⟨some (.text [.ofNat 0xd800]), [.ofNat 0xe9, .ofNat 0xe9, .ofNat 0x1f600],
      .object [("a", .null)]⟩
    (∀ s : String, content = s.toList.flatMap String.utf8EncodeChar →
      ¬Json.HasLongLiteral (.ofString s)) ∧
    reading content = .message m ∧ Message.Spelled content m := by
  intro content m
  have hshort : ∀ s : String, content = s.toList.flatMap String.utf8EncodeChar →
      ¬Json.HasLongLiteral (.ofString s) := by
    intro s hs hlong
    have hlt := hlong.length_lt
    have hle := Utf8.length_ofString_le s
    have hlen : content.length < 4300 := by decide +kernel
    rw [← hs] at hle
    omega
  have hread : reading content = .message m := by
    have htext := Utf8.decode_eq_ok_iff_string.mpr ⟨doubled, rfl, rfl⟩
    rw [reading_eq_message_iff, Message.decode, htext]
    cbv
  exact ⟨hshort, hread, ((reading_accepts_language hshort).1 m).mp hread⟩

end Frame

end RubyLanguageServer
