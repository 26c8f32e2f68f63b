import RubyLanguageServer.Proofs.Printing
import RubyLanguageServer.Session.Run
/-!
# The history of a run

A run reads and processes by turns. What it reads does not depend on what it does, so a run is the
processing of the list of all readings, up to the first that ends it.
-/
namespace RubyLanguageServer

namespace Reading

def isFinal : Reading → Bool
  | .closed | .broken _ | .excess _ => true
  | .message _ | .undecodable _ _ => false

def message? : Reading → Option Message
  | .message m => some m
  | _ => none

end Reading

namespace Frame

/-- What one reading after another finds, up to and with the first that is final. -/
def readings (source : Source) : List Reading :=
  if (read source).1.isFinal then [(read source).1]
  else (read source).1 :: readings (read source).2
termination_by source.bytes.length
decreasing_by
  apply read_length_lt
  intro hclosed
  simp_all [Reading.isFinal]

theorem readings_ne_nil (source : Source) : readings source ≠ [] := by
  rw [readings]
  split <;> exact nofun

def messages (source : Source) : List Message := (readings source).filterMap Reading.message?

theorem decode_of_read {source : Source} {m : Message} (h : (read source).1 = .message m) :
    ∃ content, Message.decode content = .ok m := by
  rw [read] at h
  split at h
  · cases h
  · cases h
  · dsimp only at h
    split at h
    · cases h
    · cases h
    · split at h
      · cases h
      · dsimp only at h
        rw [reading] at h
        split at h
        · rename_i hdecode
          cases h
          exact ⟨_, hdecode⟩
        · cases h
        · cases h

theorem decode_of_mem_readings {source : Source} {m : Message}
    (h : .message m ∈ readings source) : ∃ content, Message.decode content = .ok m := by
  fun_induction readings source with
  | case1 source hfinal => exact decode_of_read (List.mem_singleton.mp h).symm
  | case2 source hfinal ih =>
    rcases List.mem_cons.mp h with h | h
    · exact decode_of_read h.symm
    · exact ih h

end Frame

namespace Session

/-- The ids of the messages can be printed, as they can be in what was read. -/
def Answerable (readings : List Reading) : Prop :=
  ∀ m, .message m ∈ readings → ∀ id, m.id = some id → id.toJson.Printable

theorem Answerable.of_mem {readings : List Reading} (h : Answerable readings) {reading : Reading}
    (hmem : reading ∈ readings) : Answerable [reading] :=
  fun m hm => h m (List.mem_singleton.mp hm ▸ hmem)

theorem Answerable.tail {reading : Reading} {rest : List Reading}
    (h : Answerable (reading :: rest)) : Answerable rest :=
  fun m hm => h m (List.mem_cons_of_mem reading hm)

theorem answerable_readings (source : Source) : Answerable (Frame.readings source) := by
  intro m hm id hid
  obtain ⟨content, hdecode⟩ := Frame.decode_of_mem_readings hm
  exact Message.printable_id hdecode hid

variable {σ : Type} [Stack]

/-- Processes readings until the session ends or there are no more. -/
def process (r : Registry σ) : List Reading → Session σ → Option Ending × Session σ
  | [], s => (none, s)
  | reading :: rest, s =>
    match step r reading s with
    | (some ending, s) => (some ending, s)
    | (none, s) => process r rest s

/-- The readings that are processed, each with the session after it. -/
def history (r : Registry σ) : List Reading → Session σ → List (Reading × Session σ)
  | [], _ => []
  | reading :: rest, s =>
    match step r reading s with
    | (some _, s) => [(reading, s)]
    | (none, s) => (reading, s) :: history r rest s

theorem history_cons (r : Registry σ) (reading : Reading) (rest : List Reading) (s : Session σ) :
    history r (reading :: rest) s = (reading, (step r reading s).2) ::
      if (step r reading s).1.isSome then [] else history r rest (step r reading s).2 := by
  rw [history]
  rcases step r reading s with ⟨_ | ending, s'⟩ <;> rfl

theorem history_readings (r : Registry σ) (readings : List Reading) (s : Session σ) :
    (history r readings s).map Prod.fst <+: readings := by
  induction readings generalizing s with
  | nil => exact List.prefix_rfl
  | cons reading rest ih =>
    rw [history_cons, List.map_cons, List.cons_prefix_cons]
    refine ⟨rfl, ?_⟩
    split
    · exact List.nil_prefix
    · exact ih _

theorem getElem?_of_history {r : Registry σ} {readings : List Reading} {s s' : Session σ} {n : Nat}
    {reading : Reading} (h : (history r readings s)[n]? = some (reading, s')) :
    readings[n]? = some reading := by
  have hfst : ((history r readings s).map Prod.fst)[n]? = some reading := by
    rw [List.getElem?_map, h]
    rfl
  obtain ⟨hn, hreading⟩ := List.getElem?_eq_some_iff.mp hfst
  rw [← hreading]
  exact List.prefix_iff_getElem?.mp (history_readings r readings s) n hn

/-- What holds of every step, and of two runs if of one after the other, holds from the start of a
history to each of its sessions. -/
theorem rel_of_history {r : Registry σ} {R : List Reading → Session σ → Session σ → Prop}
    (happend : ∀ {xs ys s s' s''}, R xs s s' → R ys s' s'' → R (xs ++ ys) s s'')
    {readings : List Reading}
    (hstep : ∀ reading ∈ readings, ∀ s, R [reading] s (step r reading s).2) {s s' : Session σ}
    {n : Nat} {reading : Reading} (h : (history r readings s)[n]? = some (reading, s')) :
    R (readings.take (n + 1)) s s' := by
  induction readings generalizing s n with
  | nil => cases h
  | cons first rest ih =>
    have hfirst : R [first] s (step r first s).2 := hstep first List.mem_cons_self s
    rw [history_cons] at h
    cases n with
    | zero =>
      cases h
      exact hfirst
    | succ n =>
      rw [List.getElem?_cons_succ] at h
      split at h
      · cases h
      · have hrest := ih (fun reading hmem => hstep reading (List.mem_cons_of_mem first hmem)) h
        exact happend hfirst hrest

theorem getLast?_history (r : Registry σ) {readings : List Reading} (hne : readings ≠ [])
    (s : Session σ) :
    (history r readings s).getLast?.map Prod.snd = some (process r readings s).2 := by
  induction readings generalizing s with
  | nil => exact absurd rfl hne
  | cons reading rest ih =>
    rw [history_cons, process]
    rcases step r reading s with ⟨_ | ending, s'⟩
    · cases rest with
      | nil => rfl
      | cons next rest =>
        have hrest := ih nofun s'
        rw [history_cons] at hrest ⊢
        exact hrest
    · rfl

theorem step_of_isFinal {r : Registry σ} {reading : Reading} (h : reading.isFinal) (s : Session σ) :
    ∃ ending s', step r reading s = (some ending, s') := by
  cases reading with
  | message => cases h
  | undecodable => cases h
  | closed => exact ⟨_, _, rfl⟩
  | broken => exact ⟨_, _, rfl⟩
  | excess => exact ⟨_, _, rfl⟩

theorem loop_eq_process (r : Registry σ) (source : Source) (s : Session σ) :
    process r (Frame.readings source) s =
      (some (loop r source s).1, (loop r source s).2.2) := by
  fun_induction loop r source s with
  | case1 source s ending s' hstep =>
    rw [Frame.readings]
    split
    · rw [process, hstep]
    · rw [process, hstep]
  | case2 source s s' hstep ih =>
    have hfinal : ¬(Frame.read source).1.isFinal := by
      intro h
      obtain ⟨_, _, hend⟩ := step_of_isFinal (r := r) h s
      rw [hend] at hstep
      cases hstep
    rw [Frame.readings, if_neg hfinal, process, hstep]
    exact ih

end Session

end RubyLanguageServer
