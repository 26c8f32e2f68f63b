import Mathlib.Data.List.Induction
import Mathlib.Data.Nat.Digits.Defs
import RubyLanguageServer.Failure
import RubyLanguageServer.Proofs.Parts
import RubyLanguageServer.Proofs.Validation
/-!
# What can be printed

Only an integer with too many digits keeps a JSON value from being printed. No such integer is ever
read, so every value that was read can be printed again, the id of a request among them.
-/
namespace RubyLanguageServer

private theorem CodePoint.decimalValue?_lt {c : CodePoint} {n : Nat}
    (h : c.decimalValue? = some n) :
    n < 10 := by
  rw [decimalValue?] at h
  split at h
  · split at h
    · rename_i hdigit
      cases h
      simp only [isDigit, Bool.and_eq_true, decide_eq_true_eq] at hdigit
      omega
    · cases h
  · obtain ⟨first, hfirst, rfl⟩ := Option.map_eq_some_iff.mp h
    have hrange := List.find?_some hfirst
    simp only [Bool.and_eq_true, decide_eq_true_eq] at hrange
    omega

namespace Numeral

theorem value_append (ds : Text) (c : CodePoint) :
    value (ds ++ [c]) = 10 * value ds + c.decimalValue?.getD 0 := by
  simp only [value, List.foldl_append, List.foldl_cons, List.foldl_nil]

private theorem value_lt (ds : Text) : value ds < 10 ^ ds.length := by
  induction ds using List.reverseRecOn with
  | nil => exact Nat.one_pos
  | append_singleton ds c ih =>
    have hc : c.decimalValue?.getD 0 < 10 := by
      cases h : c.decimalValue? with
      | none => exact Nat.succ_pos _
      | some n => exact CodePoint.decimalValue?_lt h
    rw [value_append, List.length_append, List.length_singleton, Nat.pow_succ]
    omega

theorem length_ofNat_le_iff {n k : Nat} (hk : 0 < k) : (ofNat n).length ≤ k ↔ n < 10 ^ k := by
  rw [ofNat, List.length_map]
  exact Nat.length_toDigits_le_iff (by decide) hk

private theorem write_of_lt {i : Int} (h : i.natAbs < 10 ^ limit) : write i = .ok (ofInt i) := by
  rw [write, if_pos ((length_ofNat_le_iff (by decide)).mpr h)]

/-- A numeral that could be read can be written, with either sign. -/
theorem write_of_read {ds : Text} {n : Nat} (h : read ds = .ok n) {i : Int} (hi : i.natAbs = n) :
    write i = .ok (ofInt i) := by
  rw [read] at h
  split at h
  · rename_i hlen
    cases h
    apply write_of_lt
    calc i.natAbs = value ds := hi
      _ < 10 ^ ds.length := value_lt ds
      _ ≤ 10 ^ limit := Nat.pow_le_pow_right (by decide) hlen
  · cases h

end Numeral

namespace Json

def Printable (v : Json) : Prop := ∃ t, v.print = .ok t

theorem printable_array_iff {vs : List Json} :
    (array vs).Printable ↔ ∀ v ∈ vs, v.Printable := by
  simp only [Printable, print_array_iff, ← exists_forall₂_iff]
  rw [exists_comm]
  simp only [exists_and_left, exists_eq', and_true]

theorem printable_object_iff {ms : List (Text × Json)} :
    (object ms).Printable ↔ ∀ m ∈ ms, m.2.Printable := by
  simp only [Printable, print_object_iff]
  rw [exists_comm]
  simp only [exists_and_left, exists_eq', and_true, exists_forall₂_iff]
  refine forall₂_congr fun m _ => ?_
  rw [exists_comm]
  simp only [exists_and_left, exists_eq', and_true]

private theorem Lexeme.printable {l : Lexeme} {v : Json} (h : l.value = .ok v) : v.Printable := by
  rw [Lexeme.value.eq_def] at h
  split at h
  · obtain ⟨n, hn, h⟩ := bind_eq_ok.mp h
    cases h
    refine ⟨_, Numeral.write_of_read hn ?_⟩
    split
    · rw [Int.natAbs_neg, Int.natAbs_natCast]
    · exact Int.natAbs_natCast n
  · cases h
    exact ⟨_, rfl⟩

private theorem word?_printable {t rest : Text} {v : Json} (h : word? t = some (v, rest)) :
    v.Printable := by
  obtain ⟨⟨word, v'⟩, hmem, h⟩ := List.exists_of_findSome?_eq_some h
  obtain ⟨_, _, h⟩ := Option.map_eq_some_iff.mp h
  cases h
  have hwords : ∀ w ∈ words, w.2.Printable := by
    simp only [words, List.forall_mem_cons]
    exact ⟨⟨_, rfl⟩, ⟨_, rfl⟩, ⟨_, rfl⟩, ⟨_, rfl⟩, ⟨_, rfl⟩, ⟨_, rfl⟩, nofun⟩
  exact hwords _ hmem

private theorem atom_printable {t rest : Text} {v : Json} (h : atom t = .ok (v, rest)) :
    v.Printable := by
  rw [atom] at h
  split at h
  · rename_i hword
    cases h
    exact word?_printable hword
  · split at h
    · cases h
    · split at h
      · rename_i hvalue
        cases h
        exact Lexeme.printable hvalue
      · cases h

/-- All values that were found have a printed form, those before them granted. -/
def Found.Printable : Found → Prop
  | .value v => v.Printable
  | .items vs => ∀ v ∈ vs, v.Printable
  | .members before after => (∀ m ∈ before, m.2.Printable) → ∀ m ∈ after, m.2.Printable

theorem Reads.printable {t rest : Text} {g : Found} (h : Reads t g rest) : g.Printable := by
  induction h with
  | string => exact ⟨_, rfl⟩
  | emptyArray => exact printable_array_iff.mpr nofun
  | array _ ih => exact printable_array_iff.mpr ih
  | emptyObject => exact printable_object_iff.mpr nofun
  | object _ ih => exact printable_object_iff.mpr (ih nofun)
  | atom ha => exact atom_printable ha
  | lastItem _ _ ih =>
    intro v hv
    exact List.mem_singleton.mp hv ▸ ih
  | item _ _ _ ih ih' =>
    intro v hv
    rcases List.mem_cons.mp hv with rfl | hv
    · exact ih
    · exact ih' v hv
  | lastMember _ _ _ _ ih =>
    intro hbefore m hm
    rcases Entries.mem_insert hm with heq | hm
    · exact heq ▸ ih
    · exact hbefore m hm
  | member _ _ _ _ _ ih ih' =>
    intro hbefore
    refine ih' fun m hm => ?_
    rcases Entries.mem_insert hm with heq | hm
    · exact heq ▸ ih
    · exact hbefore m hm

end Json

namespace Message

theorem exists_members_of_decode {content : Bytes} {m : Message} (h : decode content = .ok m) :
    ∃ text members, Utf8.decode content = .ok text ∧ Json.read text = .ok (.object members) ∧
      ofJson (.object members) = .ok m := by
  rw [decode] at h
  split at h
  · cases h
  · rename_i text htext
    split at h
    · cases h
    · cases h
    · rename_i members hread
      split at h
      · rename_i m' hm
        cases h
        exact ⟨text, members, htext, hread, hm⟩
      · cases h
    · cases h

theorem printable_id {content : Bytes} {m : Message} {id : RequestId}
    (h : decode content = .ok m) (hid : m.id = some id) : id.toJson.Printable := by
  obtain ⟨text, members, -, hread, hm⟩ := exists_members_of_decode h
  obtain ⟨rest, hreads⟩ := Json.reads_of_read hread
  have hfound := Entries.mem_of_find? (Catalog.message_id hm hid)
  exact Json.printable_object_iff.mp hreads.printable _ hfound

end Message

theorem Failure.printable_code (failure : Failure) : (Json.int failure.code).Printable := by
  refine ⟨_, Numeral.write_of_lt ?_⟩
  have hcode : failure.code.natAbs < 10 ^ 5 := by
    rw [Failure.code.eq_def]
    split <;> decide
  exact Nat.lt_of_lt_of_le hcode (Nat.pow_le_pow_right (by decide) (by decide))

end RubyLanguageServer
