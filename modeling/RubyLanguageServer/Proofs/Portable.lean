import Mathlib.Data.List.TakeWhile
import RubyLanguageServer.Proofs.JsonStrings
import RubyLanguageServer.Proofs.Parts
import RubyLanguageServer.Schema.Instance
/-!
# Data that stays as it is on the wire

The wire form of a record turns numbers that are not finite into null, and there is none if a key of
the record's data holds a surrogate. Data without either is portable: it stands in the wire form as
it is.
-/
namespace RubyLanguageServer

namespace Json

/-- There is no infinity and nothing that is not a number. -/
abbrev Finite : Json → Prop := Meets { float := fun x => x.isFinite = true }

/-- No key holds a surrogate; a string may. -/
abbrev ScalarKeys : Json → Prop := Meets { names := fun keys => ∀ key ∈ keys, key.Scalar }

end Json

namespace Utf8

theorem loneSurrogates?_eq_none_iff (t : Text) : loneSurrogates? t = none ↔ t.Scalar := by
  rw [loneSurrogates?, Text.Scalar]
  constructor
  · intro h
    split at h
    · rename_i hdrop
      simpa using List.dropWhile_eq_nil_iff.mp hdrop
    · cases h
  · intro h
    have hdrop : t.dropWhile (fun c => !c.isSurrogate) = [] := by
      rw [List.dropWhile_eq_nil_iff]
      intro c hc
      simp [h c hc]
    rw [hdrop]

end Utf8

namespace Instance

private theorem finiteItems_eq_map (vs : List Json) : finiteItems vs = vs.map finiteData := by
  induction vs with
  | nil => rfl
  | cons v vs ih => rw [finiteItems, ih, List.map_cons]

private theorem finiteMembers_eq_map (ms : List (Text × Json)) :
    finiteMembers ms = ms.map fun m => (m.1, finiteData m.2) := by
  induction ms with
  | nil => rfl
  | cons m ms ih => rw [finiteMembers, ih, List.map_cons]

theorem map_eq_self_iff {α : Type} {f : α → α} {l : List α} :
    l.map f = l ↔ ∀ a ∈ l, f a = a := by
  conv_lhs => rhs; rw [← List.map_id l]
  exact List.map_inj_left

theorem finiteData_eq_iff (j : Json) : finiteData j = j ↔ j.Finite := by
  induction j using Json.nested with
  | null => exact iff_of_true rfl .null
  | bool b => exact iff_of_true rfl (.bool b)
  | int n => exact iff_of_true rfl (.int trivial)
  | text t => exact iff_of_true rfl (.text trivial)
  | float x =>
    rw [finiteData]
    apply Iff.trans _ Json.meets_float_iff.symm
    by_cases hx : x.isFinite = true <;> simp [hx]
  | array vs ih =>
    rw [finiteData, finiteItems_eq_map, Json.array.injEq, map_eq_self_iff]
    exact (forall₂_congr ih).trans Json.meets_array_iff.symm
  | object ms ih =>
    have hmembers : ∀ m ∈ ms, (m.1, finiteData m.2) = m ↔ m.2.Finite := by
      intro m hm
      rw [Prod.ext_iff]
      exact (and_iff_right rfl).trans (ih m hm)
    rw [finiteData, finiteMembers_eq_map, Json.object.injEq, map_eq_self_iff]
    apply Iff.trans _ Json.meets_object_iff.symm
    exact (forall₂_congr hmembers).trans (and_iff_right trivial).symm

theorem brokenKeyInItems?_eq_none_iff (vs : List Json) :
    brokenKeyInItems? vs = Option.none ↔ ∀ v ∈ vs, brokenKeyIn? v = Option.none := by
  induction vs with
  | nil => simp [brokenKeyInItems?]
  | cons v vs ih => simp [brokenKeyInItems?, ih]

theorem brokenKeyInMembers?_eq_none_iff (ms : List (Text × Json)) :
    brokenKeyInMembers? ms = Option.none ↔
      ∀ m ∈ ms, m.1.Scalar ∧ brokenKeyIn? m.2 = Option.none := by
  induction ms with
  | nil => simp [brokenKeyInMembers?]
  | cons m ms ih =>
    rw [brokenKeyInMembers?, Option.or_eq_none_iff, Option.or_eq_none_iff, ih,
      Utf8.loneSurrogates?_eq_none_iff, List.forall_mem_cons]

/-- Exactly the data whose keys can be encoded has no broken key. -/
theorem brokenKeyIn?_eq_none_iff (j : Json) : brokenKeyIn? j = Option.none ↔ j.ScalarKeys := by
  induction j using Json.nested with
  | null => exact iff_of_true rfl .null
  | bool b => exact iff_of_true rfl (.bool b)
  | int n => exact iff_of_true rfl (.int trivial)
  | float x => exact iff_of_true rfl (.float trivial)
  | text t => exact iff_of_true rfl (.text trivial)
  | array vs ih =>
    rw [brokenKeyIn?, brokenKeyInItems?_eq_none_iff]
    exact (forall₂_congr ih).trans Json.meets_array_iff.symm
  | object ms ih =>
    rw [brokenKeyIn?, brokenKeyInMembers?_eq_none_iff]
    apply Iff.trans _ Json.meets_object_iff.symm
    dsimp only
    rw [List.forall_mem_map, ← forall₂_and]
    exact forall₂_congr fun m hm => and_congr_right fun _ => ih m hm

/-- All data in the value stands on the wire as it is. -/
inductive Portable : Instance → Prop
  | none : Portable .none
  | flag (b : Bool) : Portable (.flag b)
  | integer (n : Int) : Portable (.integer n)
  | text (t : Text) : Portable (.text t)
  | list {items : List Instance} : (∀ v ∈ items, Portable v) → Portable (.list items)
  | record {fields : List (Text × Instance)} : (∀ f ∈ fields, Portable f.2) →
      Portable (.record fields)
  | data {j : Json} : j.Finite → j.ScalarKeys → Portable (.data j)

private theorem brokenKeyOfItems?_eq_none {vs : List Instance}
    (h : ∀ v ∈ vs, v.brokenKey? = Option.none) : brokenKeyOfItems? vs = Option.none := by
  induction vs with
  | nil => rfl
  | cons v vs ih =>
    obtain ⟨hv, hvs⟩ := List.forall_mem_cons.mp h
    rw [brokenKeyOfItems?, hv, ih hvs, Option.none_or]

private theorem brokenKeyOfFields?_eq_none {fields : List (Text × Instance)}
    (h : ∀ f ∈ fields, f.2.brokenKey? = Option.none) :
    brokenKeyOfFields? fields = Option.none := by
  induction fields with
  | nil => rfl
  | cons f fields ih =>
    obtain ⟨hf, hfields⟩ := List.forall_mem_cons.mp h
    rw [brokenKeyOfFields?, hf, ih hfields, Option.none_or]

theorem Portable.brokenKey?_eq_none {v : Instance} (h : v.Portable) :
    v.brokenKey? = Option.none := by
  induction h with
  | none => rfl
  | flag => rfl
  | integer => rfl
  | text => rfl
  | list _ ih => exact brokenKeyOfItems?_eq_none ih
  | record _ ih => exact brokenKeyOfFields?_eq_none ih
  | data _ hkeys => exact (brokenKeyIn?_eq_none_iff _).mpr hkeys

theorem Portable.dump_eq {v : Instance} (h : v.Portable) : v.dump = .ok v.toWire := by
  rw [dump, h.brokenKey?_eq_none]

theorem itemsToWire_eq_map (vs : List Instance) : itemsToWire vs = vs.map toWire := by
  induction vs with
  | nil => rfl
  | cons v vs ih => rw [itemsToWire, ih, List.map_cons]

private theorem fieldsToWire_cons_of_ne {key : Text} {v : Instance} (hv : v ≠ .none)
    (rest : List (Text × Instance)) :
    fieldsToWire ((key, v) :: rest) = (key, v.toWire) :: fieldsToWire rest := by
  cases v with
  | none => exact absurd rfl hv
  | _ => rfl

theorem find?_fieldsToWire_of_not_mem {key : Text} {fields : List (Text × Instance)}
    (h : key ∉ fields.map Prod.fst) : Entries.find? key (fieldsToWire fields) = Option.none := by
  induction fields with
  | nil => rfl
  | cons f fields ih =>
    obtain ⟨k, v⟩ := f
    rw [List.map_cons, List.mem_cons, not_or] at h
    by_cases hv : v = .none
    · subst hv
      exact ih h.2
    · rw [fieldsToWire_cons_of_ne hv, Entries.find?, if_neg (Ne.symm h.1)]
      exact ih h.2

theorem find?_fieldsToWire {key : Text} {v : Instance} {fields : List (Text × Instance)}
    (hnodup : (fields.map Prod.fst).Nodup) (hmem : (key, v) ∈ fields) :
    (v = .none → Entries.find? key (fieldsToWire fields) = Option.none) ∧
      (v ≠ .none → Entries.find? key (fieldsToWire fields) = some v.toWire) := by
  induction fields with
  | nil => cases hmem
  | cons f fields ih =>
    rw [List.map_cons, List.nodup_cons] at hnodup
    rcases List.mem_cons.mp hmem with rfl | hrest
    · constructor
      · intro hv
        subst hv
        rw [fieldsToWire, find?_fieldsToWire_of_not_mem hnodup.1]
      · intro hv
        rw [fieldsToWire_cons_of_ne hv, Entries.find?, if_pos rfl]
    · obtain ⟨k, w⟩ := f
      have hlater := ih hnodup.2 hrest
      by_cases hw : w = .none
      · subst hw
        exact hlater
      · have hkey : k ≠ key := by
          intro hkey
          exact hnodup.1 (List.mem_map.mpr ⟨(key, v), hrest, hkey.symm⟩)
        rw [fieldsToWire_cons_of_ne hw, Entries.find?, if_neg hkey]
        exact hlater

end Instance

end RubyLanguageServer
