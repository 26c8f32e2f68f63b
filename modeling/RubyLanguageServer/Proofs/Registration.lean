import Mathlib.Data.List.Induction
import Mathlib.Data.List.TakeWhile
import RubyLanguageServer.Proofs.Scanning
import RubyLanguageServer.Session.Registry
/-!
# What a registry holds

The entries of a registry are what its history of registrations leaves: each predicate in its turn,
and each name where it was first registered, with the handler of its latest registration. What is
refused, for a lock or for a collaborator that nobody knows, leaves no trace.
-/
namespace RubyLanguageServer

namespace Matcher

/-- A matcher is for a method if it is the method's name or a predicate that accepts it. -/
inductive Takes : Matcher → Text → Prop
  | named (method : Text) : Takes (.named method) method
  | satisfying {p : Text → Bool} {method : Text} : p method = true → Takes (.satisfying p) method

theorem accepts_iff {m : Matcher} {method : Text} : m.accepts method = true ↔ m.Takes method := by
  constructor
  · intro h
    cases m with
    | named name =>
      obtain rfl : name = method := by simpa [accepts] using h
      exact .named name
    | satisfying p => exact .satisfying h
  · intro h
    cases h with
    | named => simp [accepts]
    | satisfying hp => exact hp

/-- The exact name of a matcher; a predicate has none. -/
def name? : Matcher → Option Text
  | .named name => some name
  | .satisfying _ => none

def sameName : Matcher → Matcher → Bool
  | .named name, m => m.isNamed name
  | .satisfying _, _ => false

theorem isNamed_iff {name : Text} {m : Matcher} : m.isNamed name = true ↔ m = .named name := by
  cases m <;> simp [isNamed]

theorem sameName_iff {m m' : Matcher} :
    m.sameName m' = true ↔ ∃ name, m = .named name ∧ m' = .named name := by
  cases m <;> simp [sameName, isNamed_iff]

private theorem sameName_comm (m m' : Matcher) : m.sameName m' = m'.sameName m := by
  rw [Bool.eq_iff_iff, sameName_iff, sameName_iff]
  simp only [and_comm]

end Matcher

/-- All collaborators that a handler asks for are known. -/
def Handler.Known {σ : Type} (h : Handler σ) : Prop :=
  ∀ need ∈ h.needs, ∃ c : Collaborator, c.name = need

namespace Registry

variable {σ : Type}

private theorem mem_unknownNeeds {needs : List Text} {need : Text} :
    need ∈ unknownNeeds needs ↔ need ∈ needs ∧ ¬ ∃ c : Collaborator, c.name = need := by
  have hall : need ∈ Collaborator.all.map Collaborator.name ↔
      ∃ c : Collaborator, c.name = need := by
    rw [List.mem_map]
    refine exists_congr fun c => and_iff_right ?_
    cases c <;> decide
  rw [unknownNeeds, Text.mem_sortDistinct, List.mem_filter, ← hall]
  simp

theorem unknownNeeds_eq_nil_iff {h : Handler σ} : unknownNeeds h.needs = [] ↔ h.Known := by
  rw [List.eq_nil_iff_forall_not_mem]
  simp only [mem_unknownNeeds, not_and, not_not]
  rfl

instance (h : Handler σ) : Decidable h.Known := decidable_of_iff _ unknownNeeds_eq_nil_iff

private theorem register_of_sealed {r : Registry σ} (hr : r.isSealed = true) (m : Matcher)
    (h : Handler σ) : r.register m h = .error .isSealed := if_pos hr

private theorem register_of_unknown {r : Registry σ} (hr : r.isSealed = false) (m : Matcher)
    {h : Handler σ} (hh : ¬h.Known) :
    r.register m h = .error (.unknown (unknownNeeds h.needs)) := by
  rw [register, hr]
  rw [← unknownNeeds_eq_nil_iff] at hh
  cases hneeds : unknownNeeds h.needs with
  | nil => exact absurd hneeds hh
  | cons => rfl

private theorem register_of_known {r : Registry σ} (hr : r.isSealed = false) (m : Matcher)
    {h : Handler σ} (hh : h.Known) :
    r.register m h = .ok { r with entries := place m h r.entries } := by
  rw [register, hr, unknownNeeds_eq_nil_iff.mpr hh]
  rfl

inductive Operation (σ : Type) where
  | register (m : Matcher) (h : Handler σ)
  | registerCallback (m : Matcher) (needs : List Text) (callback : Call → Task σ Payload)
  | lock

def Operation.registration? : Operation σ → Option (Matcher × Handler σ)
  | .register m h => some (m, h)
  | .registerCallback m needs callback => some (m, { needs, run := callback })
  | .lock => none

def Operation.isLock (op : Operation σ) : Bool := op.registration?.isNone

def perform (r : Registry σ) : Operation σ → Except Refusal (Registry σ)
  | .register m h => r.register m h
  | .registerCallback m needs callback => (r.registerCallback m needs callback).map Prod.fst
  | .lock => .ok r.lock

/-- The registry after an operation, and why it was refused if it was. -/
def attempt (r : Registry σ) (op : Operation σ) : Registry σ × Option Refusal :=
  match r.perform op with
  | .ok r => (r, none)
  | .error refusal => (r, some refusal)

/-- The registry after operations on an empty one. -/
def after (ops : List (Operation σ)) : Registry σ := ops.foldl (fun r op => (r.attempt op).1) {}

/-- The registrations that succeed: those before the first lock, if their collaborators are
known. -/
def accepted (ops : List (Operation σ)) : List (Matcher × Handler σ) :=
  ((ops.takeWhile (!·.isLock)).filterMap (·.registration?)).filter (·.2.Known)

/-- The handler of the latest of some registrations: the given one, or a later one of its name. -/
def latest (e : Matcher × Handler σ) (later : List (Matcher × Handler σ)) : Handler σ :=
  ((later.filter (e.1.sameName ·.1)).getLast?.getD e).2

/-- What registrations leave: each predicate, and each name where it was first registered, with the
handler of its latest registration. -/
def settled : List (Matcher × Handler σ) → List (Matcher × Handler σ)
  | [] => []
  | e :: later => (e.1, latest e later) :: (settled later).filter (!e.1.sameName ·.1)

private theorem perform_of_registration {op : Operation σ} {m : Matcher} {h : Handler σ}
    (hop : op.registration? = some (m, h)) (r : Registry σ) : r.perform op = r.register m h := by
  cases op with
  | register =>
    cases hop
    rfl
  | registerCallback m needs callback =>
    cases hop
    simp only [perform, registerCallback]
    cases r.register m { needs, run := callback } <;> rfl
  | lock => cases hop

section Place

variable (e : Matcher × Handler σ) (entries : List (Matcher × Handler σ))

private theorem place_cons (e' : Matcher × Handler σ) : place e.1 e.2 (e' :: entries) =
    if e.1.sameName e'.1 then e :: entries else e' :: place e.1 e.2 entries := by
  obtain ⟨m, h⟩ := e
  cases m with
  | named name => rfl
  | satisfying p => simp [place, Matcher.sameName]

/-- Entries that are chosen by their names are chosen before a placement or after it. -/
theorem filter_place {keeps : Matcher × Handler σ → Bool}
    (hkeeps : ∀ e', e.1.sameName e'.1 = true → keeps e' = keeps e) :
    (place e.1 e.2 entries).filter keeps =
      if keeps e then place e.1 e.2 (entries.filter keeps) else entries.filter keeps := by
  induction entries with
  | nil => simp [place, List.filter_singleton]
  | cons e' entries ih =>
    rw [place_cons]
    by_cases hsame : e.1.sameName e'.1 = true
    · have he' := hkeeps e' hsame
      by_cases hkeep : keeps e = true
      · simp [hsame, hkeep, he', place_cons]
      · simp [hsame, hkeep, he']
    · by_cases hkeep' : keeps e' = true
      · by_cases hkeep : keeps e = true
        · simp [hsame, hkeep, hkeep', ih, place_cons]
        · simp [hsame, hkeep, hkeep', ih]
      · simp [hsame, hkeep', ih]

theorem answer_place {method : Text} (he : e.1.accepts method = false) :
    (place e.1 e.2 entries).findIdx? (·.1.accepts method) =
      entries.findIdx? (·.1.accepts method) ∧
    (place e.1 e.2 entries).find? (·.1.accepts method) =
      entries.find? (·.1.accepts method) := by
  induction entries with
  | nil => simp [place, he]
  | cons e' entries ih =>
    rw [place_cons]
    by_cases hsame : e.1.sameName e'.1 = true
    · obtain ⟨name, hname, hname'⟩ := Matcher.sameName_iff.mp hsame
      have he' : e'.1.accepts method = false := by rw [hname', ← hname, he]
      simp [hsame, he, he', List.findIdx?_cons]
    · by_cases he' : e'.1.accepts method = true
      · simp [hsame, he', List.findIdx?_cons]
      · simp [hsame, he', ih, List.findIdx?_cons]

end Place

/-- One registration more: it takes the place of its name or comes last. -/
theorem settled_concat (registrations : List (Matcher × Handler σ)) (e : Matcher × Handler σ) :
    settled (registrations ++ [e]) = place e.1 e.2 (settled registrations) := by
  induction registrations with
  | nil => simp [settled, latest, place]
  | cons first later ih =>
    have hkeeps : ∀ e' : Matcher × Handler σ, e.1.sameName e'.1 = true →
        (!first.1.sameName e'.1) = !first.1.sameName e.1 := by
      intro e' hsame
      obtain ⟨name, he, he'⟩ := Matcher.sameName_iff.mp hsame
      rw [he, he']
    rw [List.cons_append, settled, settled, ih, filter_place _ _ hkeeps, place_cons,
      Matcher.sameName_comm e.1]
    by_cases hsame : first.1.sameName e.1 = true
    · obtain ⟨name, hfirst, he⟩ := Matcher.sameName_iff.mp hsame
      have hlatest : latest first (later ++ [e]) = e.2 := by simp [latest, hsame]
      simp only [hsame, hlatest, if_true, Bool.not_true, Bool.false_eq_true, if_false]
      rw [hfirst.trans he.symm]
    · have hlatest : latest first (later ++ [e]) = latest first later := by simp [latest, hsame]
      simp [hsame, hlatest]

private theorem nodup_names_settled (registrations : List (Matcher × Handler σ)) :
    ((settled registrations).filterMap (·.1.name?)).Nodup := by
  induction registrations with
  | nil => exact .nil
  | cons e later ih =>
    have hrest : (((settled later).filter (!e.1.sameName ·.1)).filterMap (·.1.name?)).Nodup :=
      ih.sublist (List.filter_sublist.filterMap _)
    rw [settled]
    cases hname : e.1 with
    | satisfying p =>
      rw [hname] at hrest
      exact hrest
    | named name =>
      rw [hname] at hrest
      refine List.nodup_cons.mpr ⟨?_, hrest⟩
      intro hmem
      obtain ⟨e', he', hname'⟩ := List.mem_filterMap.mp hmem
      have hother := (List.mem_filter.mp he').2
      cases hm : e'.1 <;> simp_all [Matcher.sameName, Matcher.isNamed, Matcher.name?]

private theorem after_concat (ops : List (Operation σ)) (op : Operation σ) :
    after (ops ++ [op]) = ((after ops).attempt op).1 := by
  rw [after, List.foldl_append]
  rfl

theorem Operation.isLock_iff {op : Operation σ} : op.isLock = true ↔ op = .lock := by
  cases op <;> simp [isLock, registration?]

private theorem accepted_concat (ops : List (Operation σ)) (op : Operation σ) :
    (.lock ∈ ops → accepted (ops ++ [op]) = accepted ops) ∧
    (.lock ∉ ops →
      accepted (ops ++ [op]) = accepted ops ++ op.registration?.toList.filter (·.2.Known)) := by
  have hopen : ops.takeWhile (!·.isLock) = ops ↔ .lock ∉ ops := by
    simp [List.takeWhile_eq_self_iff, ← Bool.not_eq_true, Operation.isLock_iff, List.forall_mem_ne']
  constructor
  · intro hlock
    have hlength : (ops.takeWhile (!·.isLock)).length ≠ ops.length := by
      intro hlength
      exact hopen.mp ((List.takeWhile_prefix _).eq_of_length hlength) hlock
    rw [accepted, List.takeWhile_append, if_neg hlength, accepted]
  · intro hlock
    rw [accepted, accepted, List.takeWhile_append, hopen.mpr hlock, if_pos rfl,
      List.filterMap_append, List.filter_append]
    cases op <;> rfl

section Step

variable {r : Registry σ} {op : Operation σ} {m : Matcher} {h : Handler σ}

private theorem attempt_of_sealed (hop : op.registration? = some (m, h)) (hr : r.isSealed = true) :
    r.attempt op = (r, some .isSealed) := by
  rw [attempt, perform_of_registration hop, register_of_sealed hr]

private theorem attempt_of_unknown (hop : op.registration? = some (m, h)) (hr : r.isSealed = false)
    (hh : ¬h.Known) : r.attempt op = (r, some (.unknown (unknownNeeds h.needs))) := by
  rw [attempt, perform_of_registration hop, register_of_unknown hr m hh]

private theorem attempt_of_known (hop : op.registration? = some (m, h)) (hr : r.isSealed = false)
    (hh : h.Known) : r.attempt op = ({ r with entries := place m h r.entries }, none) := by
  rw [attempt, perform_of_registration hop, register_of_known hr m hh]

theorem attempt_cases (hop : op.registration? = some (m, h)) (r : Registry σ) :
    (r.attempt op).1 = r ∨ (r.attempt op).1 = { r with entries := place m h r.entries } := by
  by_cases hr : r.isSealed = true
  · exact .inl (congrArg Prod.fst (attempt_of_sealed hop hr))
  · rw [Bool.not_eq_true] at hr
    by_cases hh : h.Known
    · exact .inr (congrArg Prod.fst (attempt_of_known hop hr hh))
    · exact .inl (congrArg Prod.fst (attempt_of_unknown hop hr hh))

end Step

/-- The registry after a history: locked if there is a lock in it, with what the registrations that
succeed leave. -/
theorem after_eq (ops : List (Operation σ)) :
    ((after ops).isSealed = true ↔ .lock ∈ ops) ∧ (after ops).entries = settled (accepted ops) := by
  induction ops using List.reverseRecOn with
  | nil => simp [after, accepted, settled]
  | append_singleton ops op ih =>
    obtain ⟨hsealed, hentries⟩ := ih
    obtain ⟨hbehind, hbefore⟩ := accepted_concat ops op
    rw [after_concat]
    cases hop : op.registration? with
    | none =>
      obtain rfl : op = .lock := Operation.isLock_iff.mp (by rw [Operation.isLock, hop]; rfl)
      have haccepted : accepted (ops ++ [.lock]) = accepted ops := by
        by_cases hlock : .lock ∈ ops
        · exact hbehind hlock
        · simpa [Operation.registration?] using hbefore hlock
      simp [attempt, perform, lock, haccepted, hentries]
    | some registration =>
      obtain ⟨m, h⟩ := registration
      have hne : .lock ≠ op := by
        rintro rfl
        cases hop
      by_cases hlock : .lock ∈ ops
      · rw [attempt_of_sealed hop (hsealed.mpr hlock), hbehind hlock]
        simp [hsealed, hlock, hentries]
      · have hopen : (after ops).isSealed = false := by simpa [hlock] using hsealed
        rw [hbefore hlock, hop]
        by_cases hh : h.Known
        · rw [attempt_of_known hop hopen hh]
          simp [hopen, hlock, hne, hentries, hh, settled_concat]
        · rw [attempt_of_unknown hop hopen hh]
          simp [hopen, hlock, hne, hentries, hh]

theorem find_eq_some_iff {r : Registry σ} {method : Text} {h : Handler σ} :
    r.find method = some h ↔ ∃ before m behind, r.entries = before ++ (m, h) :: behind ∧
      m.Takes method ∧ ∀ e ∈ before, ¬e.1.Takes method := by
  simp only [find, Option.map_eq_some_iff, List.find?_eq_some_iff_append, Matcher.accepts_iff]
  constructor
  · rintro ⟨⟨m, h⟩, ⟨htakes, before, behind, hentries, hbefore⟩, rfl⟩
    refine ⟨before, m, behind, hentries, htakes, fun e he => ?_⟩
    simpa [← Matcher.accepts_iff] using hbefore e he
  · rintro ⟨before, m, behind, hentries, htakes, hbefore⟩
    refine ⟨(m, h), ⟨htakes, before, behind, hentries, fun e he => ?_⟩, rfl⟩
    simpa [← Matcher.accepts_iff] using hbefore e he

theorem find_eq_none_iff {r : Registry σ} {method : Text} :
    r.find method = none ↔ ∀ e ∈ r.entries, ¬e.1.Takes method := by
  simp [find, ← Matcher.accepts_iff]

/-- After any operations on an empty registry no two entries have one name, and the entries are what
the successful registrations leave. A registration fails behind a lock, whatever its collaborators,
and else if one of them is unknown, and then nothing changes. A method goes to the first entry that
is for it. A registration of a name does not change which entry answers another method. -/
theorem registry_is_history (ops : List (Operation σ)) :
    ((after ops).entries.filterMap (·.1.name?)).Nodup ∧
    (after ops).entries = settled (accepted ops) ∧
    (∀ op m h, op.registration? = some (m, h) →
      (.lock ∈ ops → (after ops).attempt op = (after ops, some .isSealed)) ∧
      (.lock ∉ ops → ¬h.Known →
        (after ops).attempt op = (after ops, some (.unknown (unknownNeeds h.needs)))) ∧
      (.lock ∉ ops → h.Known → ((after ops).attempt op).2 = none)) ∧
    (∀ method h, (after ops).find method = some h ↔
      ∃ before m behind, settled (accepted ops) = before ++ (m, h) :: behind ∧ m.Takes method ∧
        ∀ e ∈ before, ¬e.1.Takes method) ∧
    (∀ method, (after ops).find method = none ↔
      ∀ e ∈ settled (accepted ops), ¬e.1.Takes method) ∧
    ∀ op name h, op.registration? = some (.named name, h) → ∀ method, method ≠ name →
      (after (ops ++ [op])).entries.findIdx? (·.1.accepts method) =
        (after ops).entries.findIdx? (·.1.accepts method) ∧
      (after (ops ++ [op])).find method = (after ops).find method := by
  obtain ⟨hsealed, hentries⟩ := after_eq ops
  refine ⟨hentries ▸ nodup_names_settled _, hentries, ?_, ?_, ?_, ?_⟩
  · intro op m h hop
    refine ⟨fun hlock => attempt_of_sealed hop (hsealed.mpr hlock), fun hlock hh => ?_,
      fun hlock hh => ?_⟩
    · exact attempt_of_unknown hop (by simpa [hlock] using hsealed) hh
    · rw [attempt_of_known hop (by simpa [hlock] using hsealed) hh]
  · intro method h
    rw [find_eq_some_iff, hentries]
  · intro method
    rw [find_eq_none_iff, hentries]
  · intro op name h hop method hmethod
    have haccepts : (Matcher.named name).accepts method = false := by
      simpa [Matcher.accepts] using hmethod.symm
    rw [after_concat]
    obtain hsame | hplaced := attempt_cases hop (after ops)
    · rw [hsame]
      exact ⟨rfl, rfl⟩
    · rw [hplaced, find, find]
      obtain ⟨hindex, hfind⟩ := answer_place (.named name, h) (after ops).entries haccepts
      exact ⟨hindex, congrArg (Option.map Prod.snd) hfind⟩

end Registry

end RubyLanguageServer
