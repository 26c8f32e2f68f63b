import RubyLanguageServer.Proofs.Answers
import RubyLanguageServer.Proofs.Output
import RubyLanguageServer.Server.Handlers
/-!
# Input that is still to come

A frame is processed before anything behind it is read. So what has been written when the input
breaks off, be it inside a header or a content, stays written if more input comes, and once a
handler has asked for a shutdown, the rest of the input is of no account.
-/
namespace RubyLanguageServer

namespace Frame

/-- A reading that finds content does not change when bytes are added behind it. -/
theorem read_extend {source longer : Source} {later : Bytes}
    (hlonger : longer.bytes = source.bytes ++ later) (hopen : (read source).1.isFinal = false) :
    (read longer).1 = (read source).1 ∧
      (read longer).2.bytes = (read source).2.bytes ++ later := by
  obtain ⟨f, hf⟩ : ∃ f : Block, source.bytes = f.bytes ++ (read source).2.bytes := by
    apply exists_block_of_read
    all_goals
      intros
      intro heq
      simp [heq, Reading.isFinal] at hopen
  have hmore : longer.bytes = f.bytes ++ ((read source).2.bytes ++ later) := by
    rw [hlonger, ← List.append_assoc, ← hf]
  have hread := f.read_bytes hf
  have hreread := f.read_bytes hmore
  exact ⟨hreread.1.trans hread.1.symm, hreread.2⟩

private theorem messages_of_isFinal {source : Source} (h : (read source).1.isFinal = true) :
    messages source = [] := by
  rw [messages, readings, if_pos h]
  cases hreading : (read source).1 <;> simp_all [Reading.isFinal, Reading.message?]

private theorem messages_of_message {source : Source} {m : Message}
    (h : (read source).1 = .message m) :
    messages source = m :: messages (read source).2 := by
  rw [messages, readings]
  simp [h, Reading.isFinal, Reading.message?, messages]

private theorem messages_of_undecodable {source : Source} {content : Bytes}
    {e : Message.DecodeError} (h : (read source).1 = .undecodable content e) :
    messages source = messages (read source).2 := by
  rw [messages, readings]
  simp [h, Reading.isFinal, List.filterMap_cons, Reading.message?, messages]

end Frame

namespace Session

private theorem answerable_read (source : Source) : Answerable [(Frame.read source).1] := by
  intro m hm id hid
  obtain ⟨content, hdecode⟩ := Frame.decode_of_read (List.mem_singleton.mp hm).symm
  exact Message.printable_id hdecode hid

private theorem output_of_written {σ : Type} {s s' : Session σ} (h : s.written <+: s'.written) :
    s.output <+: s'.output := by
  obtain ⟨sent, hsent⟩ := h
  refine ⟨(sent.map Sent.content).flatMap frameBytes, ?_⟩
  simp [output, contents, ← hsent]

section

variable {σ : Type} [Stack] {r : Registry σ}

theorem step_written {reading : Reading} (hids : Answerable [reading]) (s : Session σ) :
    s.written <+: (step r reading s).2.written := by
  cases reading with
  | closed => exact List.prefix_rfl
  | broken => exact List.prefix_rfl
  | excess => exact List.prefix_rfl
  | undecodable => exact List.prefix_rfl
  | message m =>
    cases hfind : r.find m.method with
    | none =>
      rw [step_of_find_none hfind]
      exact List.prefix_rfl
    | some h =>
      obtain ⟨-, ⟨frames, hwritten, -⟩, -⟩ :=
        step_of_find hfind (hids m (List.mem_singleton_self _)) s
      rw [hwritten]
      exact List.prefix_append _ _

private theorem loop_written (source : Source) (s : Session σ) :
    s.written <+: (loop r source s).2.2.written := by
  fun_induction loop r source s with
  | case1 source s ending s' hstep =>
    have hfirst := step_written (r := r) (answerable_read source) s
    rw [hstep] at hfirst
    exact hfirst
  | case2 source s s' hstep ih =>
    have hfirst := step_written (r := r) (answerable_read source) s
    rw [hstep] at hfirst
    exact hfirst.trans ih

theorem step_written_of_isFinal {reading : Reading} (h : reading.isFinal = true) (s : Session σ) :
    (step r reading s).2.written = s.written := by
  cases reading with
  | closed => rfl
  | broken => rfl
  | excess => rfl
  | undecodable => cases h
  | message => cases h

theorem loop_of_step {source : Source} {s : Session σ} {reading : Reading}
    (h : (Frame.read source).1 = reading) :
    loop r source s =
      match step r reading s with
      | (some ending, s') => (ending, (Frame.read source).2, s')
      | (none, s') => loop r (Frame.read source).2 s' := by
  rw [loop, h]
  rcases step r reading s with ⟨_ | ending, s'⟩ <;> rfl

/-- What a run has written is the beginning of what it writes if the input goes on. -/
theorem loop_written_extend {source longer : Source} {later : Bytes}
    (hlonger : longer.bytes = source.bytes ++ later) (s : Session σ) :
    (loop r source s).2.2.written <+: (loop r longer s).2.2.written := by
  fun_induction loop r source s generalizing longer with
  | case1 source s ending s' hstep =>
    cases hfinal : (Frame.read source).1.isFinal with
    | true =>
      -- Where the shorter input breaks off, the longer one is read on, and nothing is taken back.
      have hsame := step_written_of_isFinal (r := r) hfinal s
      rw [hstep] at hsame
      dsimp only at hsame ⊢
      rw [hsame]
      exact loop_written longer s
    | false =>
      have hread := Frame.read_extend hlonger hfinal
      have hloop : (loop r longer s).2.2 = s' := by rw [loop_of_step hread.1, hstep]
      exact hloop ▸ List.prefix_rfl
  | case2 source s s' hstep ih =>
    have hopen : (Frame.read source).1.isFinal = false := by
      by_contra hfinal
      obtain ⟨_, _, hend⟩ := step_of_isFinal (r := r) (eq_true_of_ne_false hfinal) s
      rw [hend] at hstep
      cases hstep
    have hread := Frame.read_extend hlonger hopen
    rw [loop_of_step hread.1, hstep]
    exact ih hread.2

/-- Some handler asks for a shutdown in the run. -/
def ShutDown (r : Registry σ) (source : Source) (s : Session σ) : Prop :=
  ∃ x ∈ exchanges r (Frame.messages source) s.scene,
    ∃ code reason, x.outcome = .error (.shutdown code reason)

private theorem ShutDown.isOpen {source : Source} {s : Session σ} (h : ShutDown r source s) :
    (Frame.read source).1.isFinal = false := by
  by_contra hfinal
  obtain ⟨x, hx, -⟩ := h
  rw [Frame.messages_of_isFinal (eq_true_of_ne_false hfinal)] at hx
  cases hx

theorem ShutDown.later {source : Source} {s s' : Session σ} (h : ShutDown r source s)
    (hstep : step r (Frame.read source).1 s = (none, s')) :
    ShutDown r (Frame.read source).2 s' := by
  obtain ⟨x, hx, hshutdown⟩ := h
  cases hreading : (Frame.read source).1 with
  | closed => rw [hreading] at hstep; cases hstep
  | broken => rw [hreading] at hstep; cases hstep
  | excess => rw [hreading] at hstep; cases hstep
  | undecodable content e =>
    rw [hreading] at hstep
    cases hstep
    rw [Frame.messages_of_undecodable hreading] at hx
    exact ⟨x, hx, hshutdown⟩
  | message m =>
    rw [Frame.messages_of_message hreading, exchanges] at hx
    rw [hreading] at hstep
    cases hfind : r.find m.method with
    | none =>
      rw [step_of_find_none hfind] at hstep
      cases hstep
      rw [hfind] at hx
      exact ⟨x, hx, hshutdown⟩
    | some h =>
      have hids := answerable_read source
      rw [hreading] at hids
      obtain ⟨hscene, -, hgoes⟩ := step_of_find hfind (hids m (List.mem_singleton_self _)) s
      rw [hstep] at hscene hgoes
      rw [hfind] at hx
      simp only [← hgoes, Option.isSome_none, Bool.false_eq_true, if_false, ← hscene,
        List.mem_cons] at hx
      rcases hx with rfl | hx
      · obtain ⟨code, reason, hshutdown⟩ := hshutdown
        rw [Exchange.ending?, hshutdown] at hgoes
        cases hgoes
      · exact ⟨x, hx, hshutdown⟩

theorem loop_extend_of_shutDown {source longer : Source} {later : Bytes}
    (hlonger : longer.bytes = source.bytes ++ later) {s : Session σ} (h : ShutDown r source s) :
    (loop r longer s).1 = (loop r source s).1 ∧ (loop r longer s).2.2 = (loop r source s).2.2 ∧
      (loop r longer s).2.1.bytes = (loop r source s).2.1.bytes ++ later := by
  fun_induction loop r source s generalizing longer with
  | case1 source s ending s' hstep =>
    have hread := Frame.read_extend hlonger h.isOpen
    rw [loop_of_step hread.1, hstep]
    exact ⟨rfl, rfl, hread.2⟩
  | case2 source s s' hstep ih =>
    have hread := Frame.read_extend hlonger h.isOpen
    rw [loop_of_step hread.1, hstep]
    exact ih hread.2 (h.later hstep)

/-- The output on some input is the beginning of the output on any input that goes on from there,
wherever the first breaks off. After a shutdown nothing more is read, written or changed. -/
theorem output_grows_with_input (r : Registry σ) (input later : Bytes) (pace pace' : List Nat)
    (s : Session σ) :
    let short := run r ⟨input, pace⟩ s
    let long := run r ⟨input ++ later, pace'⟩ s
    short.2.2.output <+: long.2.2.output ∧
    (ShutDown r ⟨input, pace⟩ s →
      long.1 = short.1 ∧ long.2.2 = short.2.2 ∧ long.2.1.bytes = short.2.1.bytes ++ later) := by
  intro short long
  constructor
  · exact output_of_written (loop_written_extend rfl s.start)
  · intro h
    exact loop_extend_of_shutDown rfl h

end

def stopping : Frame.Block where
  blanks := []
  lines := [.contentLength [0x32, 0x38, 0x0d] (by decide +kernel) (by decide)]
  close := .returnFeed
  lines_ne_nil := nofun
  digits := "28"
  body := Text.ascii "\x7b\"id\":1,\"method\":\"shutdown\"\x7d"
  declares := ⟨by decide, by decide, by decide⟩
  digits_le := by decide
  denotes := by decide +kernel
  body_le := by decide +kernel

private theorem reading_stopping :
    Frame.reading stopping.body = .message ⟨some (.int 1), "shutdown", .null⟩ := by
  rw [Frame.reading, Message.decode]
  simp only [stopping]
  rw [Text.Visible.decode_ascii (by decide +kernel)]
  cbv

/-- The input breaks off inside a header, and then goes on with what is no header. -/
theorem output_grows_with_input_stopping :
    let _ : Stack := .withSpare 0
    let linter : Linter Unit := { name := "silent", analyze := fun _ => return [] }
    let r := Handlers.registry linter []
    let s : Session Unit := { world := () }
    let input := stopping.bytes ++ [0x43]
    let long := run r ⟨input ++ [0xff, 0x0a], []⟩ s
    ShutDown r ⟨input, [1, 3]⟩ s ∧ long.1 = .exit 0 ∧
      long.2.2 = (run r ⟨input, [1, 3]⟩ s).2.2 ∧ long.2.1.bytes = [0x43, 0xff, 0x0a] := by
  intro _ linter r s input long
  have hread := stopping.read_bytes (s := ⟨input, [1, 3]⟩) rfl
  rw [reading_stopping] at hread
  have hdown : ShutDown r ⟨input, [1, 3]⟩ s := by
    refine ⟨⟨⟨some (.int 1), "shutdown", .null⟩,
      .error (.shutdown 0 "shutdown requested by client")⟩, ?_, _, _, rfl⟩
    rw [Frame.messages_of_message hread.1, exchanges]
    exact List.mem_cons_self
  obtain ⟨hending, hsession, hbytes⟩ :=
    (output_grows_with_input r input [0xff, 0x0a] [1, 3] [] s).2 hdown
  have hrun : run r ⟨input, [1, 3]⟩ s =
      (.exit 0, (Frame.read ⟨input, [1, 3]⟩).2, (run r ⟨input, [1, 3]⟩ s).2.2) := by
    rw [run, loop_of_step hread.1]
    rfl
  refine ⟨hdown, ?_, hsession, ?_⟩
  · rw [hending, hrun]
  · rw [hbytes, hrun, hread.2]
    rfl

end Session

end RubyLanguageServer
