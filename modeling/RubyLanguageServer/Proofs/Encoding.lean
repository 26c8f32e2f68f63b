import RubyLanguageServer.Proofs.Rereading
import RubyLanguageServer.Wire.Payload
/-!
# Payloads on the wire

A payload is printed as the JSON value that it stands for. It can be written unless something in it
is foreign, an integer in it has too many digits, a record in it has data with a key that cannot be
encoded, or values are inside one another beyond the room on the stack. An answer to a request fails
to be written for its result alone, and an error can always be told.
-/
namespace RubyLanguageServer

namespace Json

/-- All integers in the value have at most as many digits as can be written. -/
abbrev Short : Json → Prop :=
  Meets { int := fun n => (Numeral.ofNat n.natAbs).length ≤ 4300 }

theorem printable_int_iff {n : Int} :
    (int n).Printable ↔ (Numeral.ofNat n.natAbs).length ≤ 4300 := by
  rw [Printable, print, Numeral.write]
  split
  · rename_i hle
    exact iff_of_true ⟨_, rfl⟩ hle
  · rename_i hle
    refine iff_of_false ?_ hle
    rintro ⟨t, h⟩
    cases h

theorem printable_iff_short (v : Json) : v.Printable ↔ v.Short := by
  induction v using nested with
  | null => exact iff_of_true ⟨_, rfl⟩ .null
  | bool b => exact iff_of_true ⟨_, rfl⟩ (.bool b)
  | int n =>
    apply Iff.trans _ meets_int_iff.symm
    exact printable_int_iff
  | float x => exact iff_of_true ⟨_, rfl⟩ (.float trivial)
  | text t => exact iff_of_true ⟨_, rfl⟩ (.text trivial)
  | array vs ih =>
    exact printable_array_iff.trans ((forall₂_congr ih).trans meets_array_iff.symm)
  | object ms ih =>
    apply Iff.trans _ meets_object_iff.symm
    exact (printable_object_iff.trans (forall₂_congr ih)).trans (and_iff_right trivial).symm

theorem fits_of_pos {room : Nat} (h : 0 < room) {v : Json} (hv : ∀ room, v.fits (room + 1) = true) :
    v.fits room = true := by
  obtain ⟨room, rfl⟩ := Nat.exists_eq_succ_of_ne_zero (Nat.ne_of_gt h)
  exact hv room

end Json

private theorem RequestId.fits {room : Nat} (h : 0 < room) (id : RequestId) :
    id.toJson.fits room = true := by
  cases id with
  | int n => exact Json.fits_of_pos h fun _ => rfl
  | text t => exact Json.fits_of_pos h fun _ => rfl

namespace Payload

/-- Induction over a payload, with a hypothesis for each item of a list and each value of a
table. -/
@[elab_as_elim]
private theorem nested {motive : Payload → Prop} (json : ∀ j, motive (.json j))
    (record : ∀ v, motive (.record v)) (list : ∀ ps, (∀ p ∈ ps, motive p) → motive (.list ps))
    (table : ∀ ps, (∀ p ∈ ps, motive p.2) → motive (.table ps))
    (foreign : ∀ typeName, motive (.foreign typeName)) (cycle : motive .cycle) (p : Payload) :
    motive p :=
  @Payload.rec motive (fun ps => ∀ p ∈ ps, motive p) (fun ps => ∀ p ∈ ps, motive p.2)
    (fun p => motive p.2) json record list table foreign cycle (List.forall_mem_nil _)
    (fun _ _ hp hps => List.forall_mem_cons.mpr ⟨hp, hps⟩) (List.forall_mem_nil _)
    (fun _ _ hp hps => List.forall_mem_cons.mpr ⟨hp, hps⟩) (fun _ _ hp => hp) p

mutual

/-- The JSON value that a payload stands for, if nothing in it is foreign or inside itself. -/
def wire? : Payload → Option Json
  | .json j => some j
  | .record v => some v.toWire
  | .list ps => (wireItems? ps).map Json.array
  | .table ps => (wireMembers? ps).map Json.object
  | .foreign _ => none
  | .cycle => none

def wireItems? : List Payload → Option (List Json)
  | [] => some []
  | p :: ps => (wire? p).bind fun v => (wireItems? ps).map (v :: ·)

def wireMembers? : List (Text × Payload) → Option (List (Text × Json))
  | [] => some []
  | (key, p) :: ps => (wire? p).bind fun v => (wireMembers? ps).map ((key, v) :: ·)

end

theorem wireItems?_eq_some_iff {ps : List Payload} {vs : List Json} :
    wireItems? ps = some vs ↔ List.Forall₂ (fun p v => p.wire? = some v) ps vs := by
  have hmapM : wireItems? ps = ps.mapM wire? := by
    induction ps with
    | nil => rfl
    | cons p ps ih =>
      rw [wireItems?, ih, List.mapM_cons]
      cases p.wire? <;> cases ps.mapM wire? <;> rfl
  rw [hmapM, mapM_eq_some_iff]

theorem wireMembers?_eq_some_iff {ps : List (Text × Payload)} {ms : List (Text × Json)} :
    wireMembers? ps = some ms ↔
      List.Forall₂ (fun p m => p.2.wire? = some m.2 ∧ p.1 = m.1) ps ms := by
  have hmapM : wireMembers? ps = ps.mapM fun p => p.2.wire?.map (p.1, ·) := by
    induction ps with
    | nil => rfl
    | cons p ps ih =>
      rw [wireMembers?, ih, List.mapM_cons]
      cases p.2.wire? <;> cases ps.mapM fun p => p.2.wire?.map (p.1, ·) <;> rfl
  have hpair (p : Text × Payload) (m : Text × Json) :
      p.2.wire?.map (p.1, ·) = some m ↔ p.2.wire? = some m.2 ∧ p.1 = m.1 := by
    simp [Option.map_eq_some_iff, Prod.ext_iff, and_comm]
  rw [hmapM, mapM_eq_some_iff]
  simp only [hpair]

theorem mapError_eq_ok_iff {ε ε' α : Type} {f : ε → ε'} {x : Except ε α} {a : α} :
    x.mapError f = .ok a ↔ x = .ok a := by
  cases x <;> simp [Except.mapError]

private theorem printItems_eq_mapM (ps : List Payload) : printItems ps = ps.mapM print := by
  induction ps with
  | nil => rfl
  | cons p ps ih => rw [printItems, ih, List.mapM_cons]

private theorem printMembers_eq_mapM (ps : List (Text × Payload)) :
    printMembers ps = ps.mapM fun p => p.2.print.map (Json.printMember p.1) := by
  induction ps with
  | nil => rfl
  | cons p ps ih =>
    rw [printMembers, ih, List.mapM_cons]
    cases p.2.print <;> rfl

theorem print_list_iff {ps : List Payload} {t : Text} :
    (list ps).print = .ok t ↔
      ∃ parts, List.Forall₂ (fun p part => p.print = .ok part) ps parts ∧
        Json.enclose "[" "]" parts = t := by
  rw [print, printItems_eq_mapM, bind_eq_ok]
  simp only [mapM_eq_ok_iff]
  exact exists_congr fun parts => and_congr_right fun _ => iff_of_eq (Except.ok.injEq _ _)

theorem print_table_iff {ps : List (Text × Payload)} {t : Text} :
    (table ps).print = .ok t ↔
      ∃ parts, List.Forall₂ (fun p part => ∃ value, p.2.print = .ok value ∧
        Json.printMember p.1 value = part) ps parts ∧ Json.enclose "\x7b" "\x7d" parts = t := by
  rw [print, printMembers_eq_mapM, bind_eq_ok]
  simp only [mapM_eq_ok_iff, map_eq_ok]
  exact exists_congr fun parts => and_congr_right fun _ => iff_of_eq (Except.ok.injEq _ _)

theorem print_eq_ok_iff (p : Payload) {t : Text} :
    p.print = .ok t ↔ ∃ v, p.wire? = some v ∧ v.print = .ok t := by
  induction p using nested generalizing t with
  | json j => simp [print, wire?, mapError_eq_ok_iff]
  | record v => simp [print, wire?, mapError_eq_ok_iff]
  | foreign typeName => simp [print, wire?]
  | cycle => simp [print, wire?]
  | list ps ih =>
    have hitem : ∀ p ∈ ps, ∀ part, p.print = .ok part ↔
        ∃ v, p.wire? = some v ∧ v.print = .ok part := fun p hp part => ih p hp
    rw [print_list_iff, exists_parts_iff hitem]
    simp only [wire?, Option.map_eq_some_iff, wireItems?_eq_some_iff, exists_exists_and_eq_and,
      Json.print_array_iff]
  | table ps ih =>
    have hmember : ∀ p ∈ ps, ∀ part,
        (∃ value, p.2.print = .ok value ∧ Json.printMember p.1 value = part) ↔
          ∃ m : Text × Json, (p.2.wire? = some m.2 ∧ p.1 = m.1) ∧
            ∃ value, m.2.print = .ok value ∧ Json.printMember m.1 value = part := by
      intro p hp part
      simp only [ih p hp]
      constructor
      · rintro ⟨value, ⟨v, hv, hprint⟩, hpart⟩
        exact ⟨(p.1, v), ⟨hv, rfl⟩, value, hprint, hpart⟩
      · rintro ⟨⟨_, v⟩, ⟨hv, rfl⟩, value, hprint, hpart⟩
        exact ⟨value, ⟨v, hv, hprint⟩, hpart⟩
    rw [print_table_iff, exists_parts_iff hmember]
    simp only [wire?, Option.map_eq_some_iff, wireMembers?_eq_some_iff, exists_exists_and_eq_and,
      Json.print_object_iff]

/-- Nothing ends the conversion of the payload. -/
inductive Converts : Nat → Payload → Prop
  | json {room : Nat} {j : Json} : j.fits (room + 1) = true → Converts (room + 1) (.json j)
  | record {room : Nat} {v : Instance} : v.brokenKey? = none → Converts (room + 1) (.record v)
  | list {room : Nat} {ps : List Payload} : (∀ p ∈ ps, Converts room p) →
      Converts (room + 1) (.list ps)
  | table {room : Nat} {ps : List (Text × Payload)} : (∀ p ∈ ps, Converts room p.2) →
      Converts (room + 1) (.table ps)
  | foreign {room : Nat} (typeName : Text) : Converts (room + 1) (.foreign typeName)

theorem converts_json {room : Nat} (h : 0 < room) {j : Json} (hj : j.fits room = true) :
    Converts room (.json j) := by
  obtain ⟨room, rfl⟩ := Nat.exists_eq_succ_of_ne_zero (Nat.ne_of_gt h)
  exact .json hj

theorem converts_record {room : Nat} (h : 0 < room) {v : Instance} (hv : v.brokenKey? = none) :
    Converts room (.record v) := by
  obtain ⟨room, rfl⟩ := Nat.exists_eq_succ_of_ne_zero (Nat.ne_of_gt h)
  exact .record hv

/-- The conversion of the payload comes to a value for which there is no room. -/
inductive Exhausts : Nat → Payload → Prop
  | full (p : Payload) : Exhausts 0 p
  | json {room : Nat} {j : Json} : j.fits (room + 1) = false → Exhausts (room + 1) (.json j)
  | list {room : Nat} {before after : List Payload} {p : Payload} :
      (∀ q ∈ before, Converts room q) → Exhausts room p →
        Exhausts (room + 1) (.list (before ++ p :: after))
  | table {room : Nat} {before after : List (Text × Payload)} {p : Text × Payload} :
      (∀ q ∈ before, Converts room q.2) → Exhausts room p.2 →
        Exhausts (room + 1) (.table (before ++ p :: after))
  | cycle {room : Nat} : Exhausts (room + 1) .cycle

theorem obstacle?_eq_none_iff {room : Nat} {p : Payload} :
    p.obstacle? room = none ↔ p.Converts room := by
  induction room generalizing p with
  | zero =>
    constructor <;> intro h <;> cases h
  | succ room ih =>
    cases p with
    | json j =>
      rw [obstacle?]
      constructor
      · intro h
        split at h
        · exact .json (by assumption)
        · cases h
      · rintro ⟨hfits⟩
        rw [if_pos hfits]
    | record v =>
      rw [obstacle?, Option.map_eq_none_iff]
      constructor
      · exact .record
      · rintro ⟨⟩
        assumption
    | list ps =>
      rw [obstacle?, List.findSome?_eq_none_iff]
      simp only [ih]
      constructor
      · exact .list
      · rintro ⟨⟩
        assumption
    | table ps =>
      rw [obstacle?, List.findSome?_eq_none_iff]
      simp only [ih]
      constructor
      · exact .table
      · rintro ⟨⟩
        assumption
    | foreign typeName => exact iff_of_true rfl (.foreign typeName)
    | cycle =>
      constructor <;> intro h <;> cases h

theorem obstacle?_eq_tooDeep_iff {room : Nat} {p : Payload} :
    p.obstacle? room = some .tooDeep ↔ p.Exhausts room := by
  induction room generalizing p with
  | zero => exact iff_of_true rfl (.full p)
  | succ room ih =>
    cases p with
    | json j =>
      rw [obstacle?]
      constructor
      · intro h
        split at h
        · cases h
        · exact .json (Bool.eq_false_iff.mpr (by assumption))
      · rintro ⟨⟩
        rename_i hfits
        rw [hfits]
        rfl
    | record v =>
      constructor
      · intro h
        obtain ⟨surrogates, _, h⟩ := Option.map_eq_some_iff.mp h
        cases h
      · intro h
        cases h
    | list ps =>
      rw [obstacle?, List.findSome?_eq_some_iff]
      simp only [ih, obstacle?_eq_none_iff]
      constructor
      · rintro ⟨before, p, after, rfl, hp, hbefore⟩
        exact .list hbefore hp
      · rintro ⟨⟩
        exact ⟨_, _, _, rfl, by assumption, by assumption⟩
    | table ps =>
      rw [obstacle?, List.findSome?_eq_some_iff]
      simp only [ih, obstacle?_eq_none_iff]
      constructor
      · rintro ⟨before, p, after, rfl, hp, hbefore⟩
        exact .table hbefore hp
      · rintro ⟨⟩
        exact ⟨_, _, _, rfl, by assumption, by assumption⟩
    | foreign typeName =>
      constructor <;> intro h <;> cases h
    | cycle => exact iff_of_true rfl .cycle

instance (room : Nat) (p : Payload) : Decidable (p.Exhausts room) :=
  decidable_of_iff _ obstacle?_eq_tooDeep_iff

/-- The payload can be converted, and it stands for a value that can be printed. -/
def Writable (room : Nat) (p : Payload) : Prop :=
  p.Converts room ∧ ∃ v, p.wire? = some v ∧ v.Short

/-- What is writable is written, and nothing else. -/
theorem encode_ok_iff {room : Nat} {p : Payload} :
    (∃ t, p.encode room = .ok t) ↔ p.Writable room := by
  rw [Writable, ← obstacle?_eq_none_iff, encode]
  cases p.obstacle? room with
  | some e => simp
  | none =>
    simp only [true_and, print_eq_ok_iff, ← Json.printable_iff_short]
    rw [exists_comm]
    simp only [exists_and_left, Json.Printable]

instance (room : Nat) (p : Payload) : Decidable (p.Writable room) :=
  decidable_of_iff ((p.encode room).toOption.isSome = true) <| by
    rw [← encode_ok_iff]
    cases p.encode room <;> simp [Except.toOption]

private theorem eq_error_of_bind_pure {ε α β : Type} {x : Except ε α} {f : α → β} {e : ε}
    (h : (x >>= fun a => pure (f a)) = .error e) : x = .error e := by
  cases x with
  | ok a => cases h
  | error e' =>
    cases h
    rfl

private theorem print_ne_tooDeep {room : Nat} {p : Payload} (h : p.Converts room) :
    p.print ≠ .error .tooDeep := by
  induction h with
  | @json _ j =>
    rw [print]
    cases j.print <;> simp [Except.mapError]
  | @record _ v =>
    rw [print]
    cases v.toWire.print <;> simp [Except.mapError]
  | list _ ih =>
    intro h
    rw [print, printItems_eq_mapM] at h
    obtain ⟨p, hp, hdeep⟩ := exists_of_mapM_eq_error (eq_error_of_bind_pure h)
    exact ih p hp hdeep
  | table _ ih =>
    intro h
    rw [print, printMembers_eq_mapM] at h
    obtain ⟨p, hp, hdeep⟩ := exists_of_mapM_eq_error (eq_error_of_bind_pure h)
    exact ih p hp (eq_error_of_bind_pure hdeep)
  | foreign typeName =>
    intro h
    cases h

/-- A payload is too deep to be written exactly if its conversion comes to a value for which there
is no room. -/
theorem encode_eq_tooDeep_iff {room : Nat} {p : Payload} :
    p.encode room = .error .tooDeep ↔ p.Exhausts room := by
  rw [← obstacle?_eq_tooDeep_iff, encode]
  cases hobstacle : p.obstacle? room with
  | some e => simp
  | none => simpa using print_ne_tooDeep (obstacle?_eq_none_iff.mp hobstacle)

end Payload

theorem Stack.room_pos [Stack] : 0 < Stack.room := Nat.lt_of_lt_of_le Nat.two_pos Stack.enough

namespace Outgoing

private theorem obstacle?_response {room : Nat} (h : 0 < room) (id : RequestId) (result : Payload) :
    (response id.toJson result).payload.obstacle? (room + 1) = result.obstacle? room := by
  have hversion := Payload.obstacle?_eq_none_iff.mpr
    (Payload.converts_json h (j := .text "2.0") (Json.fits_of_pos h fun _ => rfl))
  have hid := Payload.obstacle?_eq_none_iff.mpr (Payload.converts_json h (id.fits h))
  simp only [payload, Payload.obstacle?, List.findSome?_cons, List.findSome?_nil, hversion, hid]
  cases result.obstacle? room <;> rfl

variable [Stack] {id : RequestId}

theorem response_body_error (hid : id.toJson.Printable) {result : Payload} {e : EncodeError}
    (h : result.encode Stack.room = .error e) : (response id.toJson result).body = .error e := by
  obtain ⟨t, ht⟩ := hid
  rw [Payload.encode] at h
  rw [body, Payload.encode, obstacle?_response Stack.room_pos]
  split at h
  · exact h
  · simp only [payload, Payload.print, Payload.printMembers, ht, h]
    rfl

theorem response_body_ok (hid : id.toJson.Printable) {result : Payload} {t : Text}
    (h : result.encode Stack.room = .ok t) :
    ∃ content, (response id.toJson result).body = .ok content := by
  obtain ⟨t', ht'⟩ := hid
  rw [Payload.encode] at h
  rw [body, Payload.encode, obstacle?_response Stack.room_pos]
  split at h
  · cases h
  · simp only [payload, Payload.print, Payload.printMembers, ht', h]
    exact ⟨_, rfl⟩

theorem null_encode : Payload.null.encode Stack.room = .ok "null" := by
  obtain ⟨room, hroom⟩ := Nat.exists_eq_succ_of_ne_zero (Nat.ne_of_gt Stack.room_pos)
  rw [hroom]
  rfl

theorem error_body_ok (hid : id.toJson.Printable) {code : Int}
    (hcode : (Json.int code).Printable) (message : Text) :
    ∃ content, (error id.toJson code message).body = .ok content := by
  obtain ⟨t, ht⟩ := hid
  obtain ⟨t', ht'⟩ := hcode
  have hroom : (error id.toJson code message).payload.obstacle? (Stack.room + 1) = none := by
    obtain ⟨room, hroom⟩ := Nat.exists_eq_add_of_le' Stack.enough
    rw [hroom]
    cases id <;> rfl
  rw [body, Payload.encode, hroom]
  simp only [payload, Payload.print, Payload.printMembers, ht, ht']
  exact ⟨_, rfl⟩

end Outgoing

end RubyLanguageServer
