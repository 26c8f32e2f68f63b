import RubyLanguageServer.Workspace.Path
/-!
# Normal paths

Splitting a text and joining its parts are inverse as long as no part holds the separator. The
components of a path are such parts, so a normal path is its own normal form, and a name below it
makes a normal path again.
-/
namespace RubyLanguageServer

namespace Text

private theorem splitOn_append (sep : CodePoint) {part : Text} (hpart : sep ∉ part) (t : Text) :
    splitOn sep (part ++ sep :: t) = part :: splitOn sep t := by
  induction part with
  | nil => rw [List.nil_append, splitOn, if_pos rfl]
  | cons c part ih =>
    rw [List.mem_cons, not_or] at hpart
    rw [List.cons_append, splitOn, if_neg (Ne.symm hpart.1), ih hpart.2]

private theorem splitOn_of_not_mem {sep : CodePoint} {part : Text} (hpart : sep ∉ part) :
    splitOn sep part = [part] := by
  induction part with
  | nil => rfl
  | cons c part ih =>
    rw [List.mem_cons, not_or] at hpart
    rw [splitOn, if_neg (Ne.symm hpart.1), ih hpart.2]

theorem not_mem_of_mem_splitOn {sep : CodePoint} {t part : Text} (h : part ∈ splitOn sep t) :
    sep ∉ part := by
  induction t generalizing part with
  | nil =>
    rw [splitOn, List.mem_singleton] at h
    subst h
    exact List.not_mem_nil
  | cons c t ih =>
    rw [splitOn] at h
    by_cases hc : c = sep
    · rw [if_pos hc] at h
      rcases List.mem_cons.mp h with rfl | h
      · exact List.not_mem_nil
      · exact ih h
    · rw [if_neg hc] at h
      -- Only the first part has grown, and not by the separator.
      cases hsplit : splitOn sep t with
      | nil =>
        rw [hsplit] at h
        have hpart : part = [c] := List.mem_singleton.mp h
        subst hpart
        simpa using Ne.symm hc
      | cons p ps =>
        rw [hsplit] at h ih
        rcases List.mem_cons.mp h with rfl | h
        · have hp : sep ∉ p := ih List.mem_cons_self
          simp [Ne.symm hc, hp]
        · exact ih (List.mem_cons_of_mem p h)

private theorem splitOn_joinWith {sep : CodePoint} {parts : List Text} (hne : parts ≠ [])
    (hparts : ∀ part ∈ parts, sep ∉ part) : splitOn sep (joinWith [sep] parts) = parts := by
  induction parts with
  | nil => exact absurd rfl hne
  | cons part parts ih =>
    have hpart : sep ∉ part := hparts part List.mem_cons_self
    cases parts with
    | nil => rw [joinWith, splitOn_of_not_mem hpart]
    | cons next parts =>
      have hrest := ih (List.cons_ne_nil next parts)
        (fun p hp => hparts p (List.mem_cons_of_mem part hp))
      rw [joinWith, List.append_assoc, List.singleton_append, splitOn_append sep hpart, hrest]

private theorem joinWith_concat (sep : Text) {parts : List Text} (hne : parts ≠ []) (part : Text) :
    joinWith sep (parts ++ [part]) = joinWith sep parts ++ sep ++ part := by
  induction parts with
  | nil => exact absurd rfl hne
  | cons first parts ih =>
    cases parts with
    | nil => rfl
    | cons next parts =>
      have hrest := ih (List.cons_ne_nil next parts)
      rw [List.cons_append, List.cons_append, joinWith, joinWith, ← List.cons_append, hrest]
      simp only [List.append_assoc]

end Text

namespace Path

/-- What may stand between the slashes of a normal path. -/
structure Plain (component : Text) : Prop where
  ne_nil : component ≠ []
  ne_dot : component ≠ Text.ofString "."
  ne_dots : component ≠ Text.ofString ".."
  slash_not_mem : slash ∉ component

theorem plain_iff {component : Text} : Plain component ↔ component ≠ [] ∧
    component ≠ Text.ofString "." ∧ component ≠ Text.ofString ".." ∧
      component.contains slash = false := by
  have hslash : component.contains slash = false ↔ slash ∉ component := by simp
  rw [hslash]
  exact ⟨fun h => ⟨h.ne_nil, h.ne_dot, h.ne_dots, h.slash_not_mem⟩,
    fun h => ⟨h.1, h.2.1, h.2.2.1, h.2.2.2⟩⟩

instance (component : Text) : Decidable (Plain component) :=
  decidable_of_decidable_of_iff plain_iff.symm

private theorem push_nil (kept : List Text) : push kept [] = kept := rfl

private theorem push_of_plain {component : Text} (h : Plain component) (kept : List Text) :
    push kept component = component :: kept := by
  simp [push, h.ne_nil, h.ne_dot, h.ne_dots]

private theorem plain_push {kept : List Text} (hkept : ∀ c ∈ kept, Plain c) {component : Text}
    (hslash : slash ∉ component) : ∀ c ∈ push kept component, Plain c := by
  intro c hc
  rw [push] at hc
  by_cases hdot : component = [] ∨ component = Text.ofString "."
  · rw [if_pos (by simpa using hdot)] at hc
    exact hkept c hc
  · rw [if_neg (by simpa using hdot)] at hc
    by_cases hdots : component = Text.ofString ".."
    · rw [if_pos hdots] at hc
      exact hkept c (List.mem_of_mem_tail hc)
    · rw [if_neg hdots] at hc
      rcases List.mem_cons.mp hc with rfl | hc
      · exact ⟨fun h => hdot (.inl h), fun h => hdot (.inr h), hdots, hslash⟩
      · exact hkept c hc

private theorem plain_foldl_push {parts kept : List Text} (hparts : ∀ part ∈ parts, slash ∉ part)
    (hkept : ∀ c ∈ kept, Plain c) : ∀ c ∈ parts.foldl push kept, Plain c := by
  induction parts generalizing kept with
  | nil => exact hkept
  | cons part parts ih =>
    have hpush := plain_push hkept (hparts part List.mem_cons_self)
    exact ih (fun p hp => hparts p (List.mem_cons_of_mem part hp)) hpush

private theorem plain_components (t : Text) : ∀ c ∈ components t, Plain c := by
  intro c hc
  have hparts : ∀ part ∈ t.splitOn slash, slash ∉ part :=
    fun part hpart => Text.not_mem_of_mem_splitOn hpart
  exact plain_foldl_push hparts (List.forall_mem_nil _) c (List.mem_reverse.mp hc)

private theorem foldl_push_of_plain {parts : List Text} (hparts : ∀ part ∈ parts, Plain part)
    (kept : List Text) : parts.foldl push kept = parts.reverse ++ kept := by
  induction parts generalizing kept with
  | nil => rfl
  | cons part parts ih =>
    have hrest := ih fun p hp => hparts p (List.mem_cons_of_mem part hp)
    rw [List.foldl_cons, push_of_plain (hparts part List.mem_cons_self), hrest,
      List.reverse_cons, List.append_assoc, List.singleton_append]

private theorem components_joinWith {parts : List Text} (hparts : ∀ part ∈ parts, Plain part) :
    components (Text.joinWith [slash] parts) = parts := by
  by_cases hnil : parts = []
  · subst hnil
    rfl
  · have hslash : ∀ part ∈ parts, slash ∉ part := fun p hp => (hparts p hp).slash_not_mem
    rw [components, Text.splitOn_joinWith hnil hslash, foldl_push_of_plain hparts,
      List.append_nil, List.reverse_reverse]

private theorem components_slash (t : Text) : components (slash :: t) = components t := by
  rw [components, components, Text.splitOn, if_pos rfl, List.foldl_cons, push_nil]

theorem leading_cases (t : Text) : leading t = [slash] ∨ leading t = [slash, slash] := by
  rw [leading]
  split
  · exact .inr rfl
  · exact .inl rfl

private theorem takeWhile_joinWith {parts : List Text} (hparts : ∀ part ∈ parts, Plain part) :
    (Text.joinWith [slash] parts).takeWhile (· = slash) = [] := by
  cases parts with
  | nil => rfl
  | cons part parts =>
    have hpart : Plain part := hparts part List.mem_cons_self
    cases part with
    | nil => exact absurd rfl hpart.ne_nil
    | cons c part =>
      have hc : c ≠ slash := by
        intro hc
        exact hpart.slash_not_mem (hc ▸ List.mem_cons_self)
      cases parts <;> simp [Text.joinWith, hc]

theorem normal_of_plain {lead : Text} (hlead : lead = [slash] ∨ lead = [slash, slash])
    {parts : List Text} (hparts : ∀ part ∈ parts, Plain part) :
    normal (lead ++ Text.joinWith [slash] parts) = lead ++ Text.joinWith [slash] parts := by
  have hrest := takeWhile_joinWith hparts
  have hleading : leading (lead ++ Text.joinWith [slash] parts) = lead := by
    rcases hlead with rfl | rfl <;> simp [leading, hrest]
  have hcomponents : components (lead ++ Text.joinWith [slash] parts) = parts := by
    rcases hlead with rfl | rfl
    · rw [List.singleton_append, components_slash, components_joinWith hparts]
    · rw [List.cons_append, List.singleton_append, components_slash, components_slash,
        components_joinWith hparts]
  rw [normal, hleading, hcomponents]

theorem normal_normal (t : Text) : normal (normal t) = normal t :=
  normal_of_plain (leading_cases t) (plain_components t)

theorem head?_normal (t : Text) : (normal t).head? = some slash := by
  rw [normal]
  rcases leading_cases t with h | h <;> rw [h] <;> rfl

theorem normal_absolute (current t : Text) :
    normal (absolute current t) = absolute current t := normal_normal _

/-- A normal path does not depend on the working directory. -/
theorem absolute_of_normal {t : Text} (h : normal t = t) (current : Text) :
    absolute current t = t := by
  have hhead : t.head? = some slash := h ▸ head?_normal t
  rw [absolute, if_pos hhead, h]

private theorem getLast?_joinWith {parts : List Text} (hne : parts ≠ [])
    (hparts : ∀ part ∈ parts, Plain part) :
    ∃ c, (Text.joinWith [slash] parts).getLast? = some c ∧ c ≠ slash := by
  induction parts with
  | nil => exact absurd rfl hne
  | cons part parts ih =>
    obtain ⟨hpart, hrest⟩ := List.forall_mem_cons.mp hparts
    cases parts with
    | nil =>
      refine ⟨part.getLast hpart.ne_nil, List.getLast?_eq_some_getLast hpart.ne_nil, ?_⟩
      intro hslash
      exact hpart.slash_not_mem (hslash ▸ List.getLast_mem hpart.ne_nil)
    | cons next parts =>
      obtain ⟨c, hlast, hc⟩ := ih (List.cons_ne_nil next parts) hrest
      refine ⟨c, ?_, hc⟩
      rw [Text.joinWith, List.getLast?_append, hlast]
      rfl

private theorem join_of_plain {lead : Text} (hlead : lead = [slash] ∨ lead = [slash, slash])
    {parts : List Text} (hparts : ∀ part ∈ parts, Plain part) (name : Text) :
    join (lead ++ Text.joinWith [slash] parts) name =
      lead ++ Text.joinWith [slash] (parts ++ [name]) := by
  by_cases hnil : parts = []
  · subst hnil
    rcases hlead with rfl | rfl <;> rfl
  · obtain ⟨c, hlast, hc⟩ := getLast?_joinWith hnil hparts
    rw [join, List.getLast?_append, hlast, if_neg (by simpa using hc),
      Text.joinWith_concat [slash] hnil, List.append_assoc, List.append_assoc,
      List.singleton_append]

theorem normal_join {directory name : Text} (h : normal directory = directory)
    (hname : Plain name) : normal (join directory name) = join directory name := by
  have hplain := plain_components directory
  have hjoin : join directory name =
      leading directory ++ Text.joinWith [slash] (components directory ++ [name]) := by
    rw [← join_of_plain (leading_cases directory) hplain]
    exact congrArg (join · name) h.symm
  rw [hjoin]
  apply normal_of_plain (leading_cases directory)
  intro part hpart
  rcases List.mem_append.mp hpart with hpart | hpart
  · exact hplain part hpart
  · exact List.mem_singleton.mp hpart ▸ hname

end Path

end RubyLanguageServer
