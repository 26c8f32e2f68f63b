import RubyLanguageServer.Text.Entries
/-!
# Laws of entries

Setting a key changes the value under that key and no other, and keeps the order of the keys. Where
each key stands once, what is found does not depend on the order.
-/
namespace RubyLanguageServer

namespace Entries

variable {α : Type}

theorem mem_of_find? {key : Text} {v : α} {es : Entries α} (h : find? key es = some v) :
    (key, v) ∈ es := by
  induction es with
  | nil => cases h
  | cons e es ih =>
    rw [find?] at h
    split at h
    · rename_i hkey
      cases h
      exact hkey ▸ List.mem_cons_self
    · exact List.mem_cons_of_mem _ (ih h)

theorem find?_eq_none_iff {key : Text} {es : Entries α} :
    find? key es = none ↔ key ∉ es.map Prod.fst := by
  induction es with
  | nil => simp [find?]
  | cons e es ih =>
    by_cases hkey : e.1 = key
    · simp [find?, hkey]
    · simp only [find?, if_neg hkey, ih, List.map_cons, List.mem_cons, Ne.symm hkey, false_or]

theorem find?_append (key : Text) (es es' : Entries α) :
    find? key (es ++ es') = (find? key es).or (find? key es') := by
  induction es with
  | nil => rfl
  | cons e es ih =>
    by_cases hkey : e.1 = key
    · simp [find?, hkey]
    · simp only [List.cons_append, find?, if_neg hkey, ih]

theorem find?_append_cons_of_ne {key other : Text} (hne : other ≠ key) (v : α)
    (es es' : Entries α) : find? key (es ++ (other, v) :: es') = find? key (es ++ es') := by
  rw [find?_append, find?_append, find?, if_neg hne]

theorem find?_append_cons_self {key : Text} {es : Entries α} (h : key ∉ es.map Prod.fst) (v : α)
    (es' : Entries α) : find? key (es ++ (key, v) :: es') = some v := by
  rw [find?_append, find?_eq_none_iff.mpr h, find?, if_pos rfl, Option.none_or]

theorem find?_eq_some_iff {key : Text} {v : α} {es : Entries α} (h : (es.map Prod.fst).Nodup) :
    find? key es = some v ↔ (key, v) ∈ es := by
  refine ⟨mem_of_find?, ?_⟩
  intro hmem
  induction es with
  | nil => cases hmem
  | cons e es ih =>
    rw [List.map_cons, List.nodup_cons] at h
    rcases List.mem_cons.mp hmem with rfl | hmem
    · simp [find?]
    · have hkey : e.1 ≠ key := by
        rintro rfl
        exact h.1 (List.mem_map.mpr ⟨_, hmem, rfl⟩)
      rw [find?, if_neg hkey]
      exact ih h.2 hmem

theorem find?_perm {es es' : Entries α} (h : es.Perm es') (hnodup : (es.map Prod.fst).Nodup)
    (key : Text) : find? key es = find? key es' := by
  have hkeys : (es.map Prod.fst).Perm (es'.map Prod.fst) := h.map Prod.fst
  cases hfind : find? key es with
  | none =>
    rw [find?_eq_none_iff, hkeys.mem_iff] at hfind
    exact (find?_eq_none_iff.mpr hfind).symm
  | some v =>
    rw [find?_eq_some_iff hnodup, h.mem_iff] at hfind
    exact ((find?_eq_some_iff (hkeys.nodup hnodup)).mpr hfind).symm

theorem mem_insert {key : Text} {v : α} {es : Entries α} {e : Text × α}
    (h : e ∈ insert key v es) : e.2 = v ∨ e ∈ es := by
  induction es with
  | nil =>
    rw [insert, List.mem_singleton] at h
    exact .inl (h ▸ rfl)
  | cons e' es ih =>
    rw [insert] at h
    split at h
    · rcases List.mem_cons.mp h with rfl | h
      · exact .inl rfl
      · exact .inr (List.mem_cons_of_mem _ h)
    · rcases List.mem_cons.mp h with rfl | h
      · exact .inr List.mem_cons_self
      · exact (ih h).imp_right (List.mem_cons_of_mem _)

theorem insert_ne_nil (key : Text) (v : α) (es : Entries α) : insert key v es ≠ [] := by
  cases es with
  | nil => exact nofun
  | cons e es =>
    rw [insert]
    split <;> exact nofun

theorem find?_insert_self (key : Text) (v : α) (es : Entries α) :
    find? key (insert key v es) = some v := by
  induction es with
  | nil => rw [insert, find?, if_pos rfl]
  | cons e es ih =>
    rw [insert]
    split
    · rename_i hkey
      rw [find?, if_pos hkey]
    · rename_i hkey
      rw [find?, if_neg hkey, ih]

theorem find?_insert_of_ne {key other : Text} (hne : other ≠ key) (v : α) (es : Entries α) :
    find? key (insert other v es) = find? key es := by
  induction es with
  | nil => simp only [insert, find?, if_neg hne]
  | cons e es ih =>
    rw [insert]
    split
    · rename_i hother
      have hkey : e.1 ≠ key := fun h => hne (hother ▸ h)
      rw [find?, find?, if_neg hkey, if_neg hkey]
    · rw [find?, find?, ih]

theorem map_fst_insert (key : Text) (v : α) (es : Entries α) :
    (insert key v es).map Prod.fst =
      if key ∈ es.map Prod.fst then es.map Prod.fst else es.map Prod.fst ++ [key] := by
  induction es with
  | nil => rfl
  | cons e es ih =>
    by_cases hkey : e.1 = key
    · simp [insert, hkey]
    · simp only [insert, if_neg hkey, List.map_cons, ih, List.mem_cons, Ne.symm hkey, false_or]
      split <;> rfl

theorem insert_insert (key : Text) (v w : α) (es : Entries α) :
    insert key w (insert key v es) = insert key w es := by
  induction es with
  | nil => simp only [insert, if_true]
  | cons e es ih =>
    by_cases hkey : e.1 = key
    · simp only [insert, if_pos hkey]
    · simp only [insert, if_neg hkey, ih]

end Entries

end RubyLanguageServer
