import Mathlib.Data.List.Nodup
import RubyLanguageServer.Proofs.Answers
import RubyLanguageServer.Proofs.Edits
import RubyLanguageServer.Proofs.Framing
/-!
# The documents are the replay of the edits

After every reading that a run processes, the documents are what the edits read so far make of the
empty store, each URI at the place of its first edit.
-/
namespace RubyLanguageServer

/-- The document that a reading sets, and the text that it gets. -/
def Reading.edit? (reading : Reading) : Option (Text × Text) := reading.message?.bind Message.edit?

namespace Text

private theorem eraseDups_concat (ts : List Text) (t : Text) :
    (ts ++ [t]).eraseDups = if t ∈ ts then ts.eraseDups else ts.eraseDups ++ [t] := by
  rw [List.eraseDups_append]
  by_cases h : t ∈ ts
  · simp [List.removeAll, h]
  · simp [List.removeAll, h, List.eraseDups_cons]

theorem nodup_eraseDups (ts : List Text) : ts.eraseDups.Nodup := by
  induction ts using List.reverseRecOn with
  | nil => exact List.nodup_nil
  | append_singleton ts t ih =>
    rw [eraseDups_concat]
    split
    · exact ih
    · rename_i ht
      rw [← List.concat_eq_append]
      exact ih.concat fun hmem => ht (List.mem_eraseDups.mp hmem)

end Text

namespace DocumentStore

theorem uris_put (store : DocumentStore) (uri text : Text) :
    (store.put uri text).uris = if uri ∈ store.uris then store.uris else store.uris ++ [uri] :=
  Entries.map_fst_insert uri text store.entries

theorem replay_append (store : DocumentStore) (edits later : List (Text × Text)) :
    store.replay (edits ++ later) = (store.replay edits).replay later := List.foldl_append

theorem uris_replay (roots : List Text) (edits : List (Text × Text)) :
    (replay { roots } edits).uris = (edits.map Prod.fst).eraseDups := by
  induction edits using List.reverseRecOn with
  | nil => rfl
  | append_singleton edits edit ih =>
    rw [replay_append, List.map_append, List.map_singleton]
    show (put _ edit.1 edit.2).uris = _
    simp only [uris_put, ih, Text.eraseDups_concat, List.mem_eraseDups]

end DocumentStore

namespace Session

theorem edits_cons (reading : Reading) (readings : List Reading) :
    (reading :: readings).filterMap Reading.edit? =
      reading.edit?.toList ++ readings.filterMap Reading.edit? := by
  cases h : reading.edit? with
  | none =>
    rw [List.filterMap_cons_none h]
    rfl
  | some edit =>
    rw [List.filterMap_cons_some h]
    rfl

section

variable [Stack] {σ : Type} {linter : Linter σ} {providers : List (Provider σ)}

private theorem step_store {reading : Reading} (hids : Answerable [reading]) (s : Session σ) :
    (step (Handlers.registry linter providers) reading s).2.store =
      s.store.replay reading.edit?.toList := by
  cases reading with
  | closed => rfl
  | broken => rfl
  | excess => rfl
  | undecodable => rfl
  | message m =>
    have hedit : (Reading.message m).edit? = m.edit? := rfl
    rw [hedit]
    cases hfind : (Handlers.registry linter providers).find m.method with
    | none =>
      rw [step_of_find_none hfind, Handlers.edit?_of_find_none hfind]
      rfl
    | some h =>
      have hscene := (step_of_find hfind (hids m (List.mem_singleton_self _)) s).1
      have hwrites := Handlers.writes_of_find hfind (given collaborators h) s.scene
      exact (congrArg Scene.store hscene).trans hwrites.1

theorem history_store {readings : List Reading} (hids : Answerable readings) (s : Session σ)
    {n : Nat} {reading : Reading} {s' : Session σ}
    (h : (history (Handlers.registry linter providers) readings s)[n]? = some (reading, s')) :
    s'.store = s.store.replay ((readings.take (n + 1)).filterMap Reading.edit?) := by
  apply rel_of_history (R := fun readings s s' =>
    s'.store = s.store.replay (readings.filterMap Reading.edit?)) ?_ ?_ h
  · intro xs ys s s' s'' hxs hys
    rw [hys, hxs, List.filterMap_append, DocumentStore.replay_append]
  · intro reading hmem s
    rw [edits_cons, List.filterMap_nil, List.append_nil]
    exact step_store (hids.of_mem hmem) s

/-- The documents are at every moment the replay of the edits read so far, whatever linter and
providers do. -/
theorem store_is_replay (linter : Linter σ) (providers : List (Provider σ)) (source : Source)
    (roots : List Text) (s : Session σ) :
    let r := Handlers.registry linter providers
    let s₀ : Session σ := { s with store := { roots } }
    let readings := Frame.readings source
    (∀ n reading s', (history r readings s₀.start)[n]? = some (reading, s') →
      readings[n]? = some reading ∧
      s'.store = .replay { roots } ((readings.take (n + 1)).filterMap Reading.edit?) ∧
      s'.store.uris =
        (((readings.take (n + 1)).filterMap Reading.edit?).map Prod.fst).eraseDups ∧
      s'.store.uris.Nodup) ∧
    (history r readings s₀.start).getLast?.map Prod.snd = some (run r source s₀).2.2 := by
  intro r s₀ readings
  constructor
  · intro n reading s' h
    have hstore := history_store (answerable_readings source) s₀.start h
    have huris : s'.store.uris =
        (((readings.take (n + 1)).filterMap Reading.edit?).map Prod.fst).eraseDups :=
      (congrArg DocumentStore.uris hstore).trans (DocumentStore.uris_replay roots _)
    refine ⟨getElem?_of_history h, hstore, huris, ?_⟩
    rw [huris]
    exact Text.nodup_eraseDups _
  · rw [getLast?_history r (Frame.readings_ne_nil source), loop_eq_process]
    rfl

end

def opening : Frame.Block where
  blanks := []
  lines := [.contentLength [0x31, 0x31, 0x30, 0x0d] (by decide +kernel) (by decide)]
  close := .returnFeed
  lines_ne_nil := nofun
  digits := "110"
  -- The method is `textDocument/didOpen`, the URI `u` and the text `x`.
  body := [123, 34, 109, 101, 116, 104, 111, 100, 34, 58, 34, 116, 101, 120, 116, 68, 111, 99,
    117, 109, 101, 110, 116, 47, 100, 105, 100, 79, 112, 101, 110, 34, 44, 34, 112, 97, 114, 97,
    109, 115, 34, 58, 123, 34, 116, 101, 120, 116, 68, 111, 99, 117, 109, 101, 110, 116, 34, 58,
    123, 34, 117, 114, 105, 34, 58, 34, 117, 34, 44, 34, 108, 97, 110, 103, 117, 97, 103, 101, 73,
    100, 34, 58, 34, 34, 44, 34, 118, 101, 114, 115, 105, 111, 110, 34, 58, 49, 44, 34, 116, 101,
    120, 116, 34, 58, 34, 120, 34, 125, 125, 125]
  declares := ⟨by decide, by decide, by decide⟩
  digits_le := by decide
  denotes := by decide
  body_le := by decide

theorem edit?_opening : (Frame.reading opening.body).edit? = some (("u" : Text), ("x" : Text)) := by
  rw [Frame.reading, Message.decode, Utf8.decode_ascii (by decide +kernel)]
  decide +kernel

theorem readings_opening (pace : List Nat) :
    ∃ rest, Frame.readings ⟨opening.bytes, pace⟩ = Frame.reading opening.body :: rest := by
  have hread : (Frame.read ⟨opening.bytes, pace⟩).1 = Frame.reading opening.body :=
    (opening.read_bytes (List.append_nil _).symm).1
  rw [Frame.readings, hread]
  split
  · exact ⟨[], rfl⟩
  · exact ⟨_, rfl⟩

theorem store_is_replay_opening :
    let _ : Stack := .withSpare 0
    let linter : Linter Unit := { name := "failing", analyze := fun _ => throw (.shutdown 3 "") }
    let s : Session Unit := { world := () }
    let r := Handlers.registry linter []
    ∃ s', (history r (Frame.readings ⟨opening.bytes, [5]⟩) s.start)[0]? =
        some (Frame.reading opening.body, s') ∧
      s'.store.items = [(("u" : Text), ("x" : Text))] ∧ s'.store.uris = [("u" : Text)] := by
  intro _ linter s r
  obtain ⟨rest, hreadings⟩ := readings_opening [5]
  have hfirst : (history r (Frame.readings ⟨opening.bytes, [5]⟩) s.start)[0]? =
      some (Frame.reading opening.body, (step r (Frame.reading opening.body) s.start).2) := by
    rw [hreadings, history_cons]
    rfl
  obtain ⟨-, hstore, huris, -⟩ :=
    (store_is_replay linter [] ⟨opening.bytes, [5]⟩ [] s).1 0 _ _ hfirst
  rw [hreadings, List.take_succ_cons, List.take_zero, edits_cons, edit?_opening] at hstore huris
  refine ⟨_, hfirst, ?_, huris⟩
  rw [hstore]
  rfl

end Session

end RubyLanguageServer
