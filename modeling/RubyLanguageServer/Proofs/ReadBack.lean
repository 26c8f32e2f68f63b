import RubyLanguageServer.Proofs.Decoding
import RubyLanguageServer.Proofs.Output
/-!
# Notifications, written and read

A notification with plain parameters can always be written, and what was written is read as the
notification again: its method, and its parameters with the members of objects in their order.
Notifications that are written one after another are read one after another, and then the end.
-/
namespace RubyLanguageServer

namespace Json

/-- Values that come back as they were: there are no floating point numbers in them, no integers
with too many digits, no surrogates that make a pair and no name twice in one object. -/
abbrev Stable : Json → Prop :=
  Meets
    { int := fun n => (Numeral.ofNat n.natAbs).length ≤ 4300
      float := fun _ => False
      text := Text.Joined
      names := fun keys => keys.Nodup ∧ ∀ key ∈ keys, key.Joined }

variable {v : Json}

private theorem Meets.short (h : v.Stable) : v.Short :=
  h.weaken (fun _ hn => hn) (fun _ _ => trivial) (fun _ _ => trivial) fun _ _ => trivial

private theorem Meets.reread_eq (h : v.Stable) : v.reread = v := by
  have hcanonical : v.Canonical :=
    h.weaken (fun _ _ => trivial) (fun _ _ => trivial) (fun _ ht => ht) fun _ hkeys => hkeys
  have hfloat : v.FloatFree :=
    h.weaken (fun _ _ => trivial) (fun _ hx => hx) (fun _ _ => trivial) fun _ _ => trivial
  exact Canonical.reread_eq hcanonical hfloat

end Json

namespace Payload

/-- Plain data: there are no records in it and nothing foreign. -/
inductive Plain : Payload → Prop
  | json (j : Json) : Plain (.json j)
  | list {ps : List Payload} : (∀ p ∈ ps, Plain p) → Plain (.list ps)
  | table {ps : List (Text × Payload)} : (∀ p ∈ ps, Plain p.2) → Plain (.table ps)

/-- There is room for plain data if there is for the value that it stands for. -/
theorem Plain.converts {p : Payload} (h : p.Plain) {room : Nat} {v : Json}
    (hwire : p.wire? = some v) (hfits : v.fits room = true) : p.Converts room := by
  induction h generalizing room v with
  | json j =>
    cases hwire
    cases room with
    | zero => cases hfits
    | succ room => exact .json hfits
  | list _ ih =>
    obtain ⟨vs, hvs, rfl⟩ := Option.map_eq_some_iff.mp hwire
    cases room with
    | zero => cases hfits
    | succ room =>
      have hall : List.Forall₂ (fun p v => v.fits room = true → Converts room p) _ vs :=
        forall₂_imp_left (wireItems?_eq_some_iff.mp hvs) fun p hp _ hv => ih p hp hv
      exact .list (forall_right_of_forall₂ hall.flip
        fun v hv p hp => hp (List.all_eq_true.mp hfits v hv))
  | table _ ih =>
    obtain ⟨ms, hms, rfl⟩ := Option.map_eq_some_iff.mp hwire
    cases room with
    | zero => cases hfits
    | succ room =>
      have hall : List.Forall₂ (fun (p : Text × Payload) m =>
          m.2.fits room = true → Converts room p.2) _ ms :=
        forall₂_imp_left (wireMembers?_eq_some_iff.mp hms) fun p hp _ hm => ih p hp hm.1
      exact .table (forall_right_of_forall₂ hall.flip
        fun m hm p hp => hp (List.all_eq_true.mp hfits m hm))

end Payload

/-- A notification with plain parameters for which there is room. The value is what the parameters
are, whether its lists and objects are given as such or taken apart. -/
structure Notice (room : Nat) where
  method : Text
  params : Payload
  value : Json
  method_joined : method.Joined
  params_plain : params.Plain
  params_eq : params.wire? = some value
  value_stable : value.Stable
  value_fits : value.fits room = true
  body_le : ∀ content, (Outgoing.notification method params).payload.print = .ok content →
    content.length ≤ 64 * 1024 * 1024

namespace Notice

variable {room : Nat}

def outgoing (n : Notice room) : Outgoing := .notification n.method n.params

def message (n : Notice room) : Message := ⟨none, n.method, n.value⟩

def members (n : Notice room) : List (Text × Json) :=
  [("jsonrpc", .text "2.0"), ("method", .text n.method), ("params", n.value)]

private theorem wire?_outgoing (n : Notice room) :
    n.outgoing.payload.wire? = some (.object n.members) := by
  simp [outgoing, Outgoing.payload, Payload.wire?, Payload.wireMembers?, n.params_eq, members]

private theorem stable_members (n : Notice room) : (Json.object n.members).Stable := by
  have hkeys : ∀ key ∈ n.members.map Prod.fst, key.Scalar := by
    simp only [members, List.map_cons, List.map_nil, List.forall_mem_cons]
    exact ⟨by decide, by decide, by decide, List.forall_mem_nil _⟩
  have hversion : Text.Scalar "2.0" := by decide
  have hnodup : (n.members.map Prod.fst).Nodup := by
    show [Text.ofString "jsonrpc", Text.ofString "method", Text.ofString "params"].Nodup
    decide
  refine .object ⟨hnodup, fun key hkey => (hkeys key hkey).joined⟩ ?_
  simp only [members, List.forall_mem_cons]
  exact ⟨.text hversion.joined, .text n.method_joined, n.value_stable, List.forall_mem_nil _⟩

theorem exists_body [Stack] (n : Notice Stack.room) :
    ∃ content, n.outgoing.body = .ok content := by
  have htext (t : Text) : (Payload.json (.text t)).Converts Stack.room :=
    Payload.converts_json Stack.room_pos (Json.fits_of_pos Stack.room_pos fun _ => rfl)
  have hconverts : n.outgoing.payload.Converts (Stack.room + 1) := by
    apply Payload.Converts.table
    simp only [List.forall_mem_cons]
    exact ⟨htext _, htext _, n.params_plain.converts n.params_eq n.value_fits,
      List.forall_mem_nil _⟩
  exact Outgoing.writable_iff.mp ⟨hconverts, _, n.wire?_outgoing, n.stable_members.short⟩

theorem reading_content {n : Notice room} {content : Text}
    (h : n.outgoing.payload.print = .ok content) :
    Frame.reading content.ascii = .message n.message := by
  have hprint := Outgoing.print_wire h n.wire?_outgoing
  have hmessage : Message.ofJson (.object n.members) = .ok n.message :=
    Message.ofJson_eq_ok_iff.mpr ⟨rfl, rfl, rfl⟩
  rw [Frame.reading_eq_message_iff]
  exact Message.decode_of_print hprint n.stable_members.reread_eq hmessage

end Notice

namespace Frame

private theorem read_of_nil {s : Source} (h : s.bytes = []) (k : Nat) : (read (after k s)).1 =
    .closed := by
  have hnone : s.bytes = ([] : List BlankLine).flatMap BlankLine.bytes := h
  obtain ⟨blanks, hblanks⟩ := after_blankLines hnone k
  exact (read_blankLines blanks hblanks).1

/-- Frames one after another give their contents one after another, and then the end. -/
theorem read_after_blocks {frames : List Block} {s : Source}
    (h : s.bytes = frames.flatMap Block.bytes) (i : Nat) :
    (read (after i s)).1 = (frames[i]?).elim .closed fun f => reading f.body := by
  rw [← List.append_nil (frames.flatMap Block.bytes)] at h
  by_cases hi : i < frames.length
  · have hafter := after_blocks h (Nat.le_of_lt hi)
    rw [List.drop_eq_getElem_cons hi, List.flatMap_cons, List.append_assoc] at hafter
    rw [List.getElem?_eq_getElem hi]
    exact (frames[i].read_bytes hafter).1
  · obtain ⟨k, rfl⟩ := Nat.exists_eq_add_of_le (Nat.not_lt.mp hi)
    have hafter := after_blocks h (Nat.le_refl frames.length)
    rw [List.drop_length] at hafter
    rw [after_add, read_of_nil hafter k, List.getElem?_eq_none (Nat.not_lt.mp hi)]
    rfl

end Frame

namespace Session

section

variable {σ : Type} [Stack]

private theorem send_notice (s : Session σ) (n : Notice Stack.room) :
    ∃ (s' : Session σ) (f : Frame.Block), s.send n.outgoing = .ok s' ∧
      s'.output = s.output ++ f.bytes ∧ Frame.reading f.body = .message n.message := by
  obtain ⟨content, hbody⟩ := n.exists_body
  obtain ⟨s', hsend, hcontents⟩ := contents_of_send hbody s
  have hprint := Payload.print_of_encode hbody
  obtain ⟨f, hbytes, hf⟩ := Frame.exists_block (n.body_le content hprint)
  refine ⟨s', f, hsend, ?_, hf ▸ Notice.reading_content hprint⟩
  simp [output, hcontents, hbytes]

private theorem send_notices (s : Session σ) (ns : List (Notice Stack.room)) :
    ∃ (s' : Session σ) (frames : List Frame.Block),
      ns.foldlM (fun s n => s.send n.outgoing) s = .ok s' ∧
      s'.output = s.output ++ frames.flatMap Frame.Block.bytes ∧
      frames.map (fun f => Frame.reading f.body) = ns.map fun n => .message n.message := by
  induction ns generalizing s with
  | nil => exact ⟨s, [], rfl, by simp, rfl⟩
  | cons n ns ih =>
    obtain ⟨s₁, f, hsend, houtput, hreading⟩ := s.send_notice n
    obtain ⟨s', frames, hsends, houtputs, hreadings⟩ := ih s₁
    refine ⟨s', f :: frames, ?_, ?_, ?_⟩
    · rw [List.foldlM_cons, hsend]
      exact hsends
    · simp [houtputs, houtput]
    · simp [hreading, hreadings]

/-- Notifications can be written one after another, and the bytes written are read as these
notifications in their order and then as the end, however the bytes arrive. -/
theorem notices_read_back (s : Session σ) (ns : List (Notice Stack.room)) :
    ∃ (s' : Session σ) (bytes : Bytes),
      ns.foldlM (fun s n => s.send (.notification n.method n.params)) s = .ok s' ∧
      s'.output = s.output ++ bytes ∧
      ∀ (pace : List Nat) (i : Nat), (Frame.read (Frame.after i ⟨bytes, pace⟩)).1 =
        match ns[i]? with
        | some n => .message ⟨none, n.method, n.value⟩
        | none => .closed := by
  obtain ⟨s', frames, hsend, houtput, hreadings⟩ := s.send_notices ns
  refine ⟨s', _, hsend, houtput, fun pace i => ?_⟩
  rw [Frame.read_after_blocks rfl i]
  have hi := congrArg (·[i]?) hreadings
  simp only [List.getElem?_map] at hi
  cases hn : ns[i]? with
  | none =>
    rw [hn, Option.map_none, Option.map_eq_none_iff] at hi
    rw [hi]
    rfl
  | some n =>
    rw [hn] at hi
    obtain ⟨f, hf, hreading⟩ := Option.map_eq_some_iff.mp hi
    rw [hf]
    exact hreading

end

/-- Surrogates that make no pair, names out of order, and an object that is taken apart. -/
def unpaired : Notice 3 where
  method := [.ofNat 0xde00, .ofNat 0xd83d]
  params := .table [("z", .list [.json (.int (-7)), .json (.text [.ofNat 0xd83d])]),
    ("a", .json (.object [("é", .null), ("", .bool true)]))]
  value := .object [("z", .array [.int (-7), .text [.ofNat 0xd83d]]),
    ("a", .object [("é", .null), ("", .bool true)])]
  method_joined := by
    rw [Text.Joined]
    decide
  params_plain := by
    have hitems : (Payload.list [.json (.int (-7)), .json (.text [.ofNat 0xd83d])]).Plain := by
      apply Payload.Plain.list
      simp only [List.forall_mem_cons]
      exact ⟨.json _, .json _, List.forall_mem_nil _⟩
    apply Payload.Plain.table
    simp only [List.forall_mem_cons]
    exact ⟨hitems, .json _, List.forall_mem_nil _⟩
  params_eq := rfl
  value_stable := by
    have hjoined : Text.Joined [.ofNat 0xd83d] := .singleton _
    have hkeys : ∀ key ∈ [Text.ofString "é", Text.ofString "", Text.ofString "z",
        Text.ofString "a"], key.Scalar := by decide
    simp only [List.forall_mem_cons] at hkeys
    have hitems : (Json.array [.int (-7), .text [.ofNat 0xd83d]]).Stable := by
      apply Json.Meets.array
      simp only [List.forall_mem_cons]
      exact ⟨.int (by decide), .text hjoined, List.forall_mem_nil _⟩
    have hinner : (Json.object [("é", .null), ("", .bool true)]).Stable := by
      refine .object ⟨by decide, ?_⟩ ?_
      · simp only [List.map_cons, List.map_nil, List.forall_mem_cons]
        exact ⟨hkeys.1.joined, hkeys.2.1.joined, List.forall_mem_nil _⟩
      · simp only [List.forall_mem_cons]
        exact ⟨.null, .bool true, List.forall_mem_nil _⟩
    refine .object ⟨by decide, ?_⟩ ?_
    · simp only [List.map_cons, List.map_nil, List.forall_mem_cons]
      exact ⟨hkeys.2.2.1.joined, hkeys.2.2.2.1.joined, List.forall_mem_nil _⟩
    · simp only [List.forall_mem_cons]
      exact ⟨hitems, hinner, List.forall_mem_nil _⟩
  value_fits := rfl
  body_le := by
    intro content h
    have hbody : (Outgoing.notification [.ofNat 0xde00, .ofNat 0xd83d]
        (.table [("z", .list [.json (.int (-7)), .json (.text [.ofNat 0xd83d])]),
          ("a", .json (.object [("é", .null), ("", .bool true)]))])).payload.print =
        .ok ("\x7b\"jsonrpc\": \"2.0\", \"method\": \"\\ude00\\ud83d\", \"params\": " ++
          "\x7b\"z\": [-7, \"\\ud83d\"], " ++
          "\"a\": \x7b\"\\u00e9\": null, \"\": true\x7d\x7d\x7d") := by
      decide +kernel
    cases hbody.symm.trans h
    decide +kernel

theorem notices_read_back_unpaired :
    let _ : Stack := .withSpare 1
    ∃ (s' : Session Unit) (bytes : Bytes),
      [unpaired, unpaired].foldlM (fun s n => s.send (.notification n.method n.params))
        ({ world := () } : Session Unit) = .ok s' ∧
      s'.output = bytes ∧
      (Frame.read ⟨bytes, [3]⟩).1 = .message ⟨none, unpaired.method, unpaired.value⟩ ∧
      (Frame.read (Frame.after 1 ⟨bytes, [3]⟩)).1 =
        .message ⟨none, unpaired.method, unpaired.value⟩ ∧
      (Frame.read (Frame.after 2 ⟨bytes, [3]⟩)).1 = .closed := by
  intro _
  obtain ⟨s', bytes, hsend, houtput, hread⟩ :=
    notices_read_back ({ world := () } : Session Unit) [unpaired, unpaired]
  exact ⟨s', bytes, hsend, houtput, hread [3] 0, hread [3] 1, hread [3] 2⟩

end Session

end RubyLanguageServer
