import Mathlib.Data.List.Forall2
import RubyLanguageServer.Json.Printer
import RubyLanguageServer.Proofs.JsonReader
/-!
# Values and their parts

What is done to each item of an array and to each member of an object is a traversal of a list, so
it is stated once for lists. A demand on the numbers, the strings and the names in a value is met if
every part of the value meets it.
-/
namespace RubyLanguageServer

section Traversal

variable {α β γ ε : Type}

/-- A traversal that succeeds is a relation between the elements and what they give. -/
theorem mapM_eq_ok_iff {f : α → Except ε β} {as : List α} {bs : List β} :
    as.mapM f = .ok bs ↔ List.Forall₂ (fun a b => f a = .ok b) as bs := by
  induction as generalizing bs with
  | nil =>
    rw [List.mapM_nil, List.forall₂_nil_left_iff]
    exact ⟨fun h => (Except.ok.inj h).symm, fun h => congrArg Except.ok h.symm⟩
  | cons a as ih =>
    rw [List.mapM_cons, List.forall₂_cons_left_iff]
    constructor
    · intro h
      obtain ⟨b, hb, h⟩ := bind_eq_ok.mp h
      obtain ⟨rest, hrest, h⟩ := bind_eq_ok.mp h
      exact ⟨b, rest, hb, ih.mp hrest, (Except.ok.inj h).symm⟩
    · rintro ⟨b, rest, hb, hrest, rfl⟩
      rw [hb, ok_bind, ih.mpr hrest]
      rfl

theorem exists_of_mapM_eq_error {f : α → Except ε β} {as : List α} {e : ε}
    (h : as.mapM f = .error e) : ∃ a ∈ as, f a = .error e := by
  induction as with
  | nil => cases h
  | cons a as ih =>
    rw [List.mapM_cons] at h
    cases ha : f a with
    | error e' =>
      rw [ha] at h
      cases h
      exact ⟨a, List.mem_cons_self, ha⟩
    | ok b =>
      rw [ha, ok_bind] at h
      cases has : as.mapM f with
      | error e' =>
        rw [has] at h
        cases h
        obtain ⟨a', hmem, ha'⟩ := ih has
        exact ⟨a', List.mem_cons_of_mem a hmem, ha'⟩
      | ok bs =>
        rw [has] at h
        cases h

theorem mapM_eq_some_iff {f : α → Option β} {as : List α} {bs : List β} :
    as.mapM f = some bs ↔ List.Forall₂ (fun a b => f a = some b) as bs := by
  induction as generalizing bs with
  | nil => simp [eq_comm]
  | cons a as ih =>
    simp only [List.mapM_cons, Option.bind_eq_bind, Option.bind_eq_some_iff, ih,
      List.forall₂_cons_left_iff, Option.pure_def, Option.some.injEq]
    constructor
    · rintro ⟨b, hb, rest, hrest, rfl⟩
      exact ⟨b, rest, hb, hrest, rfl⟩
    · rintro ⟨b, rest, hb, hrest, rfl⟩
      exact ⟨b, hb, rest, hrest, rfl⟩

theorem exists_forall₂_iff {R : α → β → Prop} {as : List α} :
    (∃ bs, List.Forall₂ R as bs) ↔ ∀ a ∈ as, ∃ b, R a b := by
  induction as with
  | nil => simp
  | cons a as ih =>
    rw [List.forall_mem_cons, ← ih]
    constructor
    · rintro ⟨_, h⟩
      obtain ⟨b, bs, hb, hbs, rfl⟩ := List.forall₂_cons_left_iff.mp h
      exact ⟨⟨b, hb⟩, bs, hbs⟩
    · rintro ⟨⟨b, hb⟩, bs, hbs⟩
      exact ⟨b :: bs, .cons hb hbs⟩

/-- What is related by two steps for each element is related by two steps as a whole. -/
theorem forall₂_comp_iff {R : α → β → Prop} {S : β → γ → Prop} {as : List α} {cs : List γ} :
    List.Forall₂ (fun a c => ∃ b, R a b ∧ S b c) as cs ↔
      ∃ bs, List.Forall₂ R as bs ∧ List.Forall₂ S bs cs := by
  constructor
  · intro h
    induction h with
    | nil => exact ⟨[], .nil, .nil⟩
    | cons hac _ ih =>
      obtain ⟨b, hab, hbc⟩ := hac
      obtain ⟨bs, hR, hS⟩ := ih
      exact ⟨b :: bs, .cons hab hR, .cons hbc hS⟩
  · rintro ⟨bs, hR, hS⟩
    induction hR generalizing cs with
    | nil =>
      cases hS
      exact .nil
    | cons hab _ ih =>
      cases hS with
      | cons hbc hS => exact .cons ⟨_, hab, hbc⟩ (ih hS)

theorem forall₂_imp_left {R S : α → β → Prop} {as : List α} {bs : List β}
    (h : List.Forall₂ R as bs) (hRS : ∀ a ∈ as, ∀ b, R a b → S a b) : List.Forall₂ S as bs := by
  induction h with
  | nil => exact .nil
  | cons hab _ ih =>
    obtain ⟨ha, has⟩ := List.forall_mem_cons.mp hRS
    exact .cons (ha _ hab) (ih has)

/-- Parts that are got in two steps: first each element gives something, then that gives a part. -/
theorem exists_parts_iff {R : α → β → Prop} {S : β → γ → Prop} {T : α → γ → Prop} {as : List α}
    {P : List γ → Prop} (h : ∀ a ∈ as, ∀ c, T a c ↔ ∃ b, R a b ∧ S b c) :
    (∃ parts, List.Forall₂ T as parts ∧ P parts) ↔
      ∃ bs, List.Forall₂ R as bs ∧ ∃ parts, List.Forall₂ S bs parts ∧ P parts := by
  constructor
  · rintro ⟨parts, hparts, hP⟩
    have hsteps := forall₂_imp_left hparts fun a ha c => (h a ha c).mp
    obtain ⟨bs, hR, hS⟩ := forall₂_comp_iff.mp hsteps
    exact ⟨bs, hR, parts, hS, hP⟩
  · rintro ⟨bs, hR, parts, hS, hP⟩
    have hsteps := forall₂_comp_iff.mpr ⟨bs, hR, hS⟩
    exact ⟨parts, forall₂_imp_left hsteps fun a ha c => (h a ha c).mpr, hP⟩

theorem forall_right_of_forall₂ {R : α → β → Prop} {P : β → Prop} {as : List α} {bs : List β}
    (h : List.Forall₂ R as bs) (hP : ∀ a ∈ as, ∀ b, R a b → P b) : ∀ b ∈ bs, P b := by
  induction h with
  | nil => exact List.forall_mem_nil _
  | cons hab _ ih =>
    obtain ⟨ha, has⟩ := List.forall_mem_cons.mp hP
    exact List.forall_mem_cons.mpr ⟨ha _ hab, ih has⟩

end Traversal

namespace Json

/-- Induction over a value, with a hypothesis for each item of an array and each value of an
object. -/
@[elab_as_elim]
theorem nested {motive : Json → Prop} (null : motive .null) (bool : ∀ b, motive (.bool b))
    (int : ∀ n, motive (.int n)) (float : ∀ x, motive (.float x)) (text : ∀ t, motive (.text t))
    (array : ∀ vs, (∀ v ∈ vs, motive v) → motive (.array vs))
    (object : ∀ ms, (∀ m ∈ ms, motive m.2) → motive (.object ms)) (j : Json) : motive j :=
  @Json.rec motive (fun vs => ∀ v ∈ vs, motive v) (fun ms => ∀ m ∈ ms, motive m.2)
    (fun m => motive m.2) null bool int float text array object (List.forall_mem_nil _)
    (fun _ _ hv hvs => List.forall_mem_cons.mpr ⟨hv, hvs⟩) (List.forall_mem_nil _)
    (fun _ _ hm hms => List.forall_mem_cons.mpr ⟨hm, hms⟩) (fun _ _ hv => hv) j

private theorem printItems_eq_mapM (vs : List Json) : printItems vs = vs.mapM print := by
  induction vs with
  | nil => rfl
  | cons v vs ih => rw [printItems, ih, List.mapM_cons]

private theorem printMembers_eq_mapM (ms : List (Text × Json)) :
    printMembers ms = ms.mapM fun m => m.2.print.map (printMember m.1) := by
  induction ms with
  | nil => rfl
  | cons m ms ih =>
    rw [printMembers, ih, List.mapM_cons]
    cases m.2.print <;> rfl

theorem print_array_iff {vs : List Json} {t : Text} :
    (array vs).print = .ok t ↔
      ∃ parts, List.Forall₂ (fun v part => v.print = .ok part) vs parts ∧
        enclose "[" "]" parts = t := by
  rw [print, printItems_eq_mapM, bind_eq_ok]
  simp only [mapM_eq_ok_iff]
  exact exists_congr fun parts => and_congr_right fun _ => iff_of_eq (Except.ok.injEq _ _)

theorem print_object_iff {ms : List (Text × Json)} {t : Text} :
    (object ms).print = .ok t ↔
      ∃ parts, List.Forall₂ (fun m part => ∃ value, m.2.print = .ok value ∧
        printMember m.1 value = part) ms parts ∧ enclose "\x7b" "\x7d" parts = t := by
  rw [print, printMembers_eq_mapM, bind_eq_ok]
  simp only [mapM_eq_ok_iff, map_eq_ok]
  exact exists_congr fun parts => and_congr_right fun _ => iff_of_eq (Except.ok.injEq _ _)

/-- What is asked of the numbers and the strings in a value, and of the names in each object. -/
structure Demand where
  int : Int → Prop := fun _ => True
  float : Binary64 → Prop := fun _ => True
  text : Text → Prop := fun _ => True
  names : List Text → Prop := fun _ => True

/-- All that is in the value is as demanded. -/
inductive Meets (d : Demand) : Json → Prop
  | null : Meets d .null
  | bool (b : Bool) : Meets d (.bool b)
  | int {n : Int} : d.int n → Meets d (.int n)
  | float {x : Binary64} : d.float x → Meets d (.float x)
  | text {t : Text} : d.text t → Meets d (.text t)
  | array {vs : List Json} : (∀ v ∈ vs, Meets d v) → Meets d (.array vs)
  | object {ms : List (Text × Json)} : d.names (ms.map Prod.fst) → (∀ m ∈ ms, Meets d m.2) →
      Meets d (.object ms)

section Meets

variable {d e : Demand}

theorem meets_int_iff {n : Int} : Meets d (.int n) ↔ d.int n :=
  ⟨fun h => by cases h; assumption, .int⟩

theorem meets_float_iff {x : Binary64} : Meets d (.float x) ↔ d.float x :=
  ⟨fun h => by cases h; assumption, .float⟩

theorem meets_array_iff {vs : List Json} : Meets d (.array vs) ↔ ∀ v ∈ vs, Meets d v :=
  ⟨fun h => by cases h; assumption, .array⟩

theorem meets_object_iff {ms : List (Text × Json)} :
    Meets d (.object ms) ↔ d.names (ms.map Prod.fst) ∧ ∀ m ∈ ms, Meets d m.2 :=
  ⟨fun h => by cases h; constructor <;> assumption, fun h => .object h.1 h.2⟩

theorem Meets.weaken {v : Json} (h : Meets d v) (hint : ∀ n, d.int n → e.int n)
    (hfloat : ∀ x, d.float x → e.float x) (htext : ∀ t, d.text t → e.text t)
    (hnames : ∀ names, d.names names → e.names names) : Meets e v := by
  induction h with
  | null => exact .null
  | bool b => exact .bool b
  | int hn => exact .int (hint _ hn)
  | float hx => exact .float (hfloat _ hx)
  | text ht => exact .text (htext _ ht)
  | array _ ih => exact .array ih
  | object hms _ ih => exact .object (hnames _ hms) ih

end Meets

end Json

end RubyLanguageServer
