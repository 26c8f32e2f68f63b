import RubyLanguageServer.Proofs.Revalidation
/-!
# The wire forms of the records

Every record of the catalogue is found again in its wire form. Only messages hold data, and for a
message this depends on its parameters.
-/
namespace RubyLanguageServer

namespace Catalog

open Shape

private theorem regular_settings (current : Text) : (settings current).isRegular = true := by
  have hroots : holds (.directories current) (.list [.text (Path.absolute current [])]) = true := by
    simp [holds, isNormalPath, Path.normal_absolute]
  have hnone : holds (.directories current) .none = false := rfl
  rw [settings, isRegular, Bool.and_eq_true]
  refine ⟨rfl, ?_⟩
  rw [areRegular, Bool.and_eq_true, Bool.and_eq_true]
  exact ⟨⟨rfl, by simp [suits, defaulted, hroots, hnone]⟩, rfl⟩

private theorem regular_records (current : Text) :
    ∀ shape ∈ records current, shape.isRegular = true := by
  have hothers : ∀ shape ∈ protocolRecords, shape.isRegular = true := by decide +kernel
  rw [records, List.forall_mem_cons, List.forall_mem_cons]
  exact ⟨rfl, regular_settings current, hothers⟩

private theorem typed_records (current : Text) :
    ∀ shape ∈ settings current :: protocolRecords, shape.isTyped = true := by
  have hothers : ∀ shape ∈ protocolRecords, shape.isTyped = true := by decide +kernel
  rw [List.forall_mem_cons]
  exact ⟨rfl, hothers⟩

/-- The parameters of a message as they were read. -/
def paramsOf (v : Instance) : Json := (v.field "params").asData

private theorem message_cases {v : Instance} (h : holds message v = true) :
    ∃ id method params, v = .record [("id", id), ("method", method), ("params", params)] ∧
      id.Portable ∧ method.Portable ∧ (params = .none ∨ params = .data (paramsOf v)) := by
  cases v with
  | record values =>
    rw [message, holds, fieldsHold_iff] at h
    obtain ⟨⟨_, id⟩, _, ⟨rfl, hid⟩, hlater, rfl⟩ := List.forall₂_cons_left_iff.mp h
    obtain ⟨⟨_, method⟩, _, ⟨rfl, hmethod⟩, hlast, rfl⟩ := List.forall₂_cons_left_iff.mp hlater
    obtain ⟨⟨_, params⟩, _, ⟨rfl, hparams⟩, hnil, rfl⟩ := List.forall₂_cons_left_iff.mp hlast
    obtain rfl := List.forall₂_nil_left_iff.mp hnil
    refine ⟨id, method, params, rfl, portable_of_holds rfl hid, portable_of_holds rfl hmethod, ?_⟩
    cases params with
    | none => exact .inl rfl
    | data j => exact .inr rfl
    | _ => cases hparams
  | _ => cases h

/-- A message has a wire form only if the keys of its parameters can be encoded. -/
theorem scalarKeys_of_dump {v : Instance} (h : holds message v = true) {wire : Json}
    (hdump : v.dump = .ok wire) : (paramsOf v).ScalarKeys := by
  obtain ⟨id, method, params, rfl, hid, hmethod, hparams⟩ := message_cases h
  rcases hparams with rfl | hparams
  · exact .null
  · have hbroken : Instance.brokenKey? (.record
        [("id", id), ("method", method), ("params", params)]) = none := by
      rw [Instance.dump] at hdump
      split at hdump
      · cases hdump
      · assumption
    simp only [Instance.brokenKey?, Instance.brokenKeyOfFields?, hid.brokenKey?_eq_none,
      hmethod.brokenKey?_eq_none, Option.none_or, Option.or_none] at hbroken
    rw [hparams, Instance.brokenKey?] at hbroken
    exact (Instance.brokenKeyIn?_eq_none_iff _).mp hbroken

theorem finite_of_check {v : Instance} (h : holds message v = true)
    (hcheck : message.check v.toWire = .ok v) : (paramsOf v).Finite := by
  obtain ⟨id, method, params, hv, _, _, hparams⟩ := message_cases h
  rcases hparams with hnone | hparams
  · subst hv hnone
    exact .null
  · let fields : List (Text × Instance) := [("id", id), ("method", method), ("params", params)]
    have hwire : v.toWire = .object (Instance.fieldsToWire fields) := by
      rw [hv]
      rfl
    have hmessage : Message.ofJson v.toWire = .ok (Message.ofInstance v) := by
      rw [Message.ofJson, hcheck]
      rfl
    rw [hwire] at hmessage
    have hread : paramsOf v = _ := message_params hmessage
    -- What stands under the parameters' name on the wire is their finite part.
    have hnodup : (fields.map Prod.fst).Nodup := by
      show [Text.ofString "id", Text.ofString "method", Text.ofString "params"].Nodup
      decide +kernel
    have hmem : (Text.ofString "params", params) ∈ fields := by simp [fields]
    have hne : params ≠ .none := by
      rw [hparams]
      intro hnone
      cases hnone
    rw [(Instance.find?_fieldsToWire hnodup hmem).2 hne, hparams] at hread
    exact (Instance.finiteData_eq_iff _).mp hread.symm

private theorem portable_message {v : Instance} (h : holds message v = true)
    (hfinite : (paramsOf v).Finite) (hkeys : (paramsOf v).ScalarKeys) : v.Portable := by
  obtain ⟨id, method, params, hv, hid, hmethod, hparams⟩ := message_cases h
  have hportable : params.Portable := by
    rcases hparams with rfl | hparams
    · exact .none
    · rw [hparams]
      exact .data hfinite hkeys
  subst hv
  simp [Instance.Portable.record, hid, hmethod, hportable]

/-- Validation is undone by the wire form and the wire form by validation, for every record; for a
message exactly if its parameters are finite and their keys can be encoded. -/
theorem wire_form_validates_back {current : Text} {shape : Shape}
    (hshape : shape ∈ records current) {j : Json} {v : Instance} (h : shape.check j = .ok v) :
    (∃ wire, v.dump = .ok wire ∧ shape.check wire = .ok v ∧
      shape.rewire? j = some wire ∧ shape.rewire? wire = some wire) ↔
    (shape = message → (paramsOf v).Finite ∧ (paramsOf v).ScalarKeys) := by
  have hregular := regular_records current shape hshape
  have hholds := holds_of_validate hregular (check_eq_ok h)
  constructor
  · rintro ⟨wire, hdump, hcheck, _⟩ rfl
    have hwire : wire = v.toWire := by
      rw [Instance.dump] at hdump
      split at hdump
      · cases hdump
      · cases hdump
        rfl
    rw [hwire] at hcheck
    exact ⟨finite_of_check hholds hcheck, scalarKeys_of_dump hholds hdump⟩
  · intro hparams
    have hportable : v.Portable := by
      rcases List.mem_cons.mp hshape with rfl | hother
      · exact portable_message hholds (hparams rfl).1 (hparams rfl).2
      · exact portable_of_holds (typed_records current shape hother) hholds
    have hdump := hportable.dump_eq
    have hback := check_of_validate (validate_toWire hregular hportable hholds)
    refine ⟨v.toWire, hdump, hback, ?_, ?_⟩
    · rw [rewire?_of_check h, hdump]
      rfl
    · rw [rewire?_of_check hback, hdump]
      rfl

/-- A message with a key that is a lone surrogate. -/
def surrogateKey : Json :=
  .object [("method", .text "m"), ("params", .object [([⟨0xd800, by decide⟩], .int 1)])]

/-- A message has no wire form if a key of its parameters is a lone surrogate. -/
theorem surrogateKey_has_no_wire_form :
    ∃ v, message.check surrogateKey = .ok v ∧ (paramsOf v).Finite ∧
      ∀ wire, v.dump ≠ .ok wire := by
  refine ⟨_, rfl, ?_, ?_⟩
  · exact .object trivial (List.forall_mem_singleton.mpr (.int trivial))
  · intro wire h
    cases h

/-- A null, a negative zero and a string with a surrogate. -/
def portableData : Json := .array [.null, .float (.zero true), .text [⟨0xd800, by decide⟩]]

private theorem finite_portableData : portableData.Finite := by
  refine .array (List.forall_mem_cons.mpr ⟨.null, List.forall_mem_cons.mpr ⟨.float rfl, ?_⟩⟩)
  exact List.forall_mem_singleton.mpr (.text trivial)

private theorem scalarKeys_portableData : portableData.ScalarKeys := by
  refine .array (List.forall_mem_cons.mpr ⟨.null, List.forall_mem_cons.mpr ⟨.float trivial, ?_⟩⟩)
  exact List.forall_mem_singleton.mpr (.text trivial)

private theorem check_portableData :
    message.check (.object [("id", .text "7"), ("method", .text "m"), ("params", portableData)]) =
      .ok (.record [("id", .text "7"), ("method", .text "m"), ("params", .data portableData)]) :=
  rfl

/-- Directories that are not in normal form are made so, and a flag may be a word. -/
theorem check_looseSettings :
    (settings "/v").check (.object [("roots", .array [.text "a/./b/../c", .text "//d/"]),
      ("debug", .text "Yes")]) =
      .ok (.record [("roots", .list [.text "/v/a/c", .text "//d"]),
        ("ruby_executable", .text "ruby"), ("rct_complete_command", .text "rct-complete"),
        ("debug", .flag true), ("log_file", .none)]) := rfl

theorem wire_form_validates_back_loose :
    (∃ j v wire, message.check j = .ok v ∧ paramsOf v = portableData ∧ v.dump = .ok wire ∧
      message.check wire = .ok v) ∧
    ∃ j v wire, (settings "/v").check j = .ok v ∧
      v.field "roots" = .list [.text "/v/a/c", .text "//d"] ∧
      v.dump = .ok wire ∧ (settings "/v").check wire = .ok v := by
  constructor
  · obtain ⟨wire, hdump, hcheck, _⟩ :=
      (wire_form_validates_back (List.mem_cons_self : message ∈ records [Path.slash])
        check_portableData).mpr fun _ => ⟨finite_portableData, scalarKeys_portableData⟩
    exact ⟨_, _, wire, check_portableData, rfl, hdump, hcheck⟩
  · have hne : settings "/v" ≠ message := by
      intro hsame
      exact absurd (congrArg Shape.name hsame) (by decide +kernel)
    obtain ⟨wire, hdump, hcheck, _⟩ :=
      (wire_form_validates_back (List.mem_cons_of_mem _ List.mem_cons_self)
        check_looseSettings).mpr fun hsame => absurd hsame hne
    exact ⟨_, _, wire, check_looseSettings, rfl, hdump, hcheck⟩

end Catalog

end RubyLanguageServer
