import Mathlib.Data.List.Forall2
import RubyLanguageServer.Proofs.Encoding
import RubyLanguageServer.Proofs.History
/-!
# Answers to requests

Every request that has a handler is answered once, in the order of the requests, whatever the
handlers do, unless the stack has no room for the result: that ends the session. The exchanges of a
run are told without the session: each handler finds the documents and the world as the handlers
before it left them, and the first that asks for a shutdown or overruns the stack is the last.
-/
namespace RubyLanguageServer

def Payload.member? (key : Text) : Payload → Option Payload
  | .table members => Entries.find? key members
  | _ => none

namespace Outgoing

/-- The member of the message object under a key. -/
def member? (key : Text) (m : Outgoing) : Option Payload := m.payload.member? key

def hasId (m : Outgoing) : Bool := (m.member? "id").isSome

def errorCode? (m : Outgoing) : Option Int :=
  match (m.member? "error").bind (Payload.member? "code") with
  | some (.json (.int code)) => some code
  | _ => none

theorem sent_of_body [Stack] {m : Outgoing} {content : Text} (h : m.body = .ok content) :
    m.sent = .ok ⟨m, content, Payload.print_of_encode h⟩ := by
  rw [sent]
  split
  · rename_i content' h'
    rw [h] at h'
    cases h'
    rfl
  · rename_i h'
    rw [h] at h'
    cases h'

/-- What the client is told of an outcome; nothing if the stack has no room for the result. -/
def answer? [Stack] (id : RequestId) : Except Failure Payload → Option Outgoing
  | .ok result =>
    match result.encode Stack.room with
    | .ok _ => some (.response id.toJson result)
    | .error .tooDeep => none
    | .error e =>
      some (.error id.toJson (Failure.unencodable e).code (Failure.unencodable e).message)
  | .error (.shutdown _ _) => some (.response id.toJson .null)
  | .error failure => some (.error id.toJson failure.code failure.message)

private theorem answer?_error [Stack] {failure : Failure}
    (h : ∀ code reason, failure ≠ .shutdown code reason) (id : RequestId) :
    answer? id (.error failure) = some (.error id.toJson failure.code failure.message) := by
  cases failure with
  | shutdown code reason => exact absurd rfl (h code reason)
  | _ => rfl

private theorem answer?_unwritable [Stack] {result : Payload} {e : EncodeError}
    (h : result.encode Stack.room = .error e) (he : e ≠ .tooDeep) (id : RequestId) :
    answer? id (.ok result) =
      some (.error id.toJson (Failure.unencodable e).code (Failure.unencodable e).message) := by
  rw [answer?, h]
  cases e with
  | tooDeep => exact absurd rfl he
  | _ => rfl

end Outgoing

/-- The frame of a notification, if it can be written. -/
def Effect.sent? [Stack] : Effect → Option Sent
  | .report _ => none
  | .notify method params => (Outgoing.notification method params).sent.toOption

/-- A message that has a handler, and what the handler came to. -/
structure Exchange where
  message : Message
  outcome : Except Failure Payload

namespace Exchange

variable [Stack]

/-- The request has a result for which the stack has no room. -/
def Overruns (x : Exchange) : Prop :=
  x.message.isRequest = true ∧ ∃ result ∈ x.outcome.toOption, result.Exhausts Stack.room

instance (x : Exchange) : Decidable x.Overruns :=
  inferInstanceAs (Decidable (_ ∧ ∃ result ∈ x.outcome.toOption, _))

/-- How the exchange ends the session, if it does. -/
def ending? (x : Exchange) : Option Session.Ending :=
  match x.outcome with
  | .error (.shutdown code _) => some (.exit code)
  | _ => if x.Overruns then some (.crash (.unencodable .tooDeep)) else none

/-- What a message must tell the client of an outcome. -/
def Tells (m : Outgoing) : Except Failure Payload → Prop
  | .ok result =>
    if result.Writable Stack.room then m.member? "result" = some result
    else m.errorCode? = some (-32603)
  | .error (.invalid _) => m.errorCode? = some (-32602)
  | .error (.shutdown _ _) => m.member? "result" = some .null
  | .error _ => m.errorCode? = some (-32603)

/-- The frame answers the request: it repeats the id, has either a result or an error, and tells
the outcome. -/
structure AnsweredBy (x : Exchange) (frame : Sent) : Prop where
  id : frame.message.member? "id" = x.message.id.map fun id => .json id.toJson
  either : (frame.message.member? "result").isSome ≠ (frame.message.member? "error").isSome
  tells : Tells frame.message x.outcome

private theorem not_overruns_of_encode {m : Message} {result : Payload}
    (h : result.encode Stack.room ≠ .error .tooDeep) : ¬Overruns ⟨m, .ok result⟩ := by
  rintro ⟨_, _, ⟨⟩, hdeep⟩
  exact h (Payload.encode_eq_tooDeep_iff.mpr hdeep)

private theorem not_overruns_error (m : Message) (failure : Failure) :
    ¬Overruns ⟨m, .error failure⟩ := by
  rintro ⟨_, _, ⟨⟩, _⟩

theorem ending?_eq_none {x : Exchange} (h : ¬x.Overruns)
    (hgoes : ∀ code reason, x.outcome ≠ .error (.shutdown code reason)) : x.ending? = none := by
  rw [ending?]
  split
  · rename_i code reason houtcome
    exact absurd houtcome (hgoes code reason)
  · exact if_neg h

theorem ending?_of_overruns {x : Exchange} (h : x.Overruns) :
    x.ending? = some (.crash (.unencodable .tooDeep)) := by
  rw [ending?]
  split
  · rename_i code reason houtcome
    obtain ⟨_, result, hresult, _⟩ := h
    rw [houtcome] at hresult
    cases hresult
  · exact if_pos h

/-- The message that answers, if the client has asked and can be answered. -/
def answer? (x : Exchange) : Option Outgoing := x.message.id.bind (Outgoing.answer? · x.outcome)

end Exchange

/-- The scene once its effects have been performed. -/
def Scene.settled {σ : Type} (scene : Scene σ) : Scene σ :=
  { store := scene.store, world := scene.world }

/-- The frames of the notifications that were sent. -/
def Scene.frames [Stack] {σ : Type} (scene : Scene σ) : List Sent :=
  scene.effects.filterMap Effect.sent?

namespace Session

section

variable {σ : Type}

/-- The session as its handlers see it. -/
def scene (s : Session σ) : Scene σ := { store := s.store, world := s.world }

def invoke (h : Handler σ) (m : Message) (scene : Scene σ) : Except Failure Payload × Scene σ :=
  (h.run ⟨m, given collaborators h⟩).run.run scene

/-- The documents and the world are kept, and these messages are written. -/
structure Adds (told : List Outgoing) (s s' : Session σ) : Prop where
  scene_eq : s'.scene = s.scene
  written_eq : ∃ frames, s'.written = s.written ++ frames ∧ frames.map Sent.message = told

private theorem Adds.nothing (s : Session σ) : Adds [] s s :=
  ⟨rfl, [], (List.append_nil _).symm, rfl⟩

private theorem scene_report (e : Event) (s : Session σ) : (s.report e).scene = s.scene := rfl

variable [Stack]

/-- The exchanges that messages give rise to, up to and with the first that ends the session. -/
def exchanges (r : Registry σ) : List Message → Scene σ → List Exchange
  | [], _ => []
  | m :: ms, scene =>
    match r.find m.method with
    | none => exchanges r ms scene
    | some h =>
      let (outcome, scene) := invoke h m scene
      let x : Exchange := ⟨m, outcome⟩
      x :: if x.ending?.isSome then [] else exchanges r ms scene.settled

/-- Of all that was written from one session to the other, the frames with an id answer, in order,
the requests among the exchanges that do not overrun the stack. -/
def Answers (xs : List Exchange) (s s' : Session σ) : Prop :=
  ∃ sent, s'.written = s.written ++ sent ∧
    List.Forall₂ Exchange.AnsweredBy (xs.filter fun x => x.message.isRequest ∧ ¬x.Overruns)
      (sent.filter (·.message.hasId))

private theorem Answers.append {xs ys : List Exchange} {s s' s'' : Session σ} (h : Answers xs s s')
    (h' : Answers ys s' s'') : Answers (xs ++ ys) s s'' := by
  obtain ⟨sent, hwritten, hall⟩ := h
  obtain ⟨sent', hwritten', hall'⟩ := h'
  refine ⟨sent ++ sent', ?_, ?_⟩
  · rw [hwritten', hwritten, List.append_assoc]
  · rw [List.filter_append, List.filter_append]
    exact List.rel_append hall hall'

theorem send_ok {m : Outgoing} {content : Text} (h : m.body = .ok content) (s : Session σ) :
    ∃ s' frame, s.send m = .ok s' ∧ s'.scene = s.scene ∧ s'.written = s.written ++ [frame] ∧
      frame.message = m := by
  refine ⟨{ s with
      outbox := ⟨m, content, Payload.print_of_encode h⟩ :: s.outbox
      journal := .sending m.subject :: s.journal },
    ⟨m, content, Payload.print_of_encode h⟩, ?_, rfl, List.reverse_cons, rfl⟩
  rw [send, Outgoing.sent_of_body h]
  rfl

theorem send_error {m : Outgoing} {e : EncodeError} (h : m.body = .error e) (s : Session σ) :
    s.send m = .error e := by
  rw [send, Outgoing.sent]
  split
  · rename_i h'
    rw [h] at h'
    cases h'
  · rename_i h'
    rw [h] at h'
    cases h'
    rfl

private theorem perform_spec (s : Session σ) (e : Effect) :
    (s.perform e).scene = s.scene ∧ (s.perform e).written = s.written ++ e.sent?.toList := by
  cases e with
  | report e => exact ⟨rfl, (List.append_nil _).symm⟩
  | notify method params =>
    rw [perform, send, Effect.sent?]
    cases (Outgoing.notification method params).sent with
    | error e => exact ⟨rfl, (List.append_nil _).symm⟩
    | ok frame => exact ⟨rfl, List.reverse_cons⟩

private theorem foldl_perform_spec (effects : List Effect) (s : Session σ) :
    (effects.foldl perform s).scene = s.scene ∧
      (effects.foldl perform s).written = s.written ++ effects.filterMap Effect.sent? := by
  induction effects generalizing s with
  | nil => exact ⟨rfl, (List.append_nil _).symm⟩
  | cons e effects ih =>
    obtain ⟨hscene, hwritten⟩ := perform_spec s e
    obtain ⟨hscene', hwritten'⟩ := ih (s.perform e)
    refine ⟨hscene'.trans hscene, ?_⟩
    rw [List.foldl_cons, hwritten', hwritten, List.append_assoc, List.filterMap_cons]
    cases e.sent? <;> rfl

theorem runTask_spec {α : Type} (t : Task σ α) (s : Session σ) :
    (s.runTask t).1 = (t.run.run s.scene).1 ∧
    (s.runTask t).2.scene = (t.run.run s.scene).2.settled ∧
    (s.runTask t).2.written = s.written ++ (t.run.run s.scene).2.frames := by
  obtain ⟨hscene, hwritten⟩ :=
    foldl_perform_spec (t.run.run s.scene).2.effects
      { s with
        store := (t.run.run s.scene).2.store
        world := (t.run.run s.scene).2.world }
  exact ⟨rfl, hscene, hwritten⟩

theorem respond_spec {m : Message} (hid : ∀ id, m.id = some id → id.toJson.Printable)
    {result : Payload} {t : Text} (hresult : result.encode Stack.room = .ok t) (s : Session σ) :
    ∃ s', s.respond m result = .ok s' ∧
      Adds (m.id.map fun id => .response id.toJson result).toList s s' := by
  cases hm : m.id with
  | none => exact ⟨s, by rw [respond, hm], .nothing s⟩
  | some id =>
    obtain ⟨content, hbody⟩ := Outgoing.response_body_ok (hid id hm) hresult
    obtain ⟨s', frame, hsend, hscene, hwritten, hframe⟩ := send_ok hbody s
    refine ⟨s', ?_, hscene, [frame], hwritten, congrArg (List.cons · []) hframe⟩
    rw [respond, hm]
    exact hsend

/-- A result that cannot be written is a failure only if there is a request to answer. -/
theorem respond_unwritable {m : Message} (hid : ∀ id, m.id = some id → id.toJson.Printable)
    {result : Payload} {e : EncodeError} (hresult : result.encode Stack.room = .error e)
    (s : Session σ) :
    m.id = none ∧ s.respond m result = .ok s ∨
      m.isRequest = true ∧ s.respond m result = .error e := by
  cases hm : m.id with
  | none => exact .inl ⟨rfl, by rw [respond, hm]⟩
  | some id =>
    refine .inr ⟨by rw [Message.isRequest, hm]; rfl, ?_⟩
    rw [respond, hm]
    exact send_error (Outgoing.response_body_error (hid id hm) hresult) s

theorem fail_spec {m : Message} (hid : ∀ id, m.id = some id → id.toJson.Printable)
    (failure : Failure) (s : Session σ) :
    ∃ s', s.fail m failure = (.ok true, s') ∧
      Adds (m.id.map fun id => .error id.toJson failure.code failure.message).toList s s' := by
  cases hm : m.id with
  | none =>
    refine ⟨s.report (.handlerFailed m.method failure.message), by rw [fail, hm], ?_⟩
    exact ⟨rfl, [], (List.append_nil _).symm, rfl⟩
  | some id =>
    obtain ⟨content, hbody⟩ :=
      Outgoing.error_body_ok (hid id hm) failure.printable_code failure.message
    obtain ⟨s', frame, hsend, hscene, hwritten, hframe⟩ :=
      send_ok hbody (s.report (.handlerFailed m.method failure.message))
    refine ⟨s', ?_, hscene, [frame], hwritten, congrArg (List.cons · []) hframe⟩
    simp only [fail, hm, hsend]

/-- What a dispatch makes of the session: it goes on, or it ends by a shutdown or a failure. -/
def endingOf : Except Failure Bool → Option Ending
  | .ok _ => none
  | .error (.shutdown code _) => some (.exit code)
  | .error failure => some (.crash failure)

/-- What the client is told of an exchange, and whether the session goes on. -/
structure Concluded (x : Exchange) (s : Session σ) (done : Except Failure Bool × Session σ) :
    Prop where
  adds : Adds x.answer?.toList s done.2
  ending_eq : endingOf done.1 = x.ending?

private theorem conclude_ok {m : Message} (hid : ∀ id, m.id = some id → id.toJson.Printable)
    (result : Payload) (s : Session σ) :
    Concluded ⟨m, .ok result⟩ s (s.conclude m (.ok result)) := by
  have hgoes (hroom : ¬Exchange.Overruns ⟨m, .ok result⟩) :
      none = Exchange.ending? ⟨m, .ok result⟩ := (Exchange.ending?_eq_none hroom nofun).symm
  rw [conclude]
  cases hresult : result.encode Stack.room with
  | ok t =>
    obtain ⟨s', hrespond, hadds⟩ := respond_spec hid hresult s
    simp only [hrespond]
    refine ⟨?_, hgoes (Exchange.not_overruns_of_encode (by simp [hresult]))⟩
    cases hm : m.id <;> simpa [Exchange.answer?, Outgoing.answer?, hresult, hm] using hadds
  | error e =>
    rcases respond_unwritable hid hresult s with ⟨hm, hrespond⟩ | ⟨hm, hrespond⟩
    · have hroom : ¬Exchange.Overruns ⟨m, .ok result⟩ := by
        rintro ⟨hrequest, _⟩
        simp [Message.isRequest, hm] at hrequest
      simp only [hrespond]
      refine ⟨?_, hgoes hroom⟩
      rw [Exchange.answer?, hm]
      exact .nothing s
    · by_cases he : e = .tooDeep
      · subst he
        have hoverruns : Exchange.Overruns ⟨m, .ok result⟩ :=
          ⟨hm, result, rfl, Payload.encode_eq_tooDeep_iff.mp hresult⟩
        simp only [hrespond]
        refine ⟨?_, (Exchange.ending?_of_overruns hoverruns).symm⟩
        cases hm : m.id <;>
          simpa [Exchange.answer?, Outgoing.answer?, hresult, hm] using Adds.nothing s
      · -- The failure to write the result is what the client is told instead of it.
        obtain ⟨s', hfail, hadds⟩ := fail_spec hid (.unencodable e) s
        simp only [hrespond, hfail]
        refine ⟨?_, hgoes (Exchange.not_overruns_of_encode (by simpa [hresult] using he))⟩
        cases hm : m.id <;>
          simpa [Exchange.answer?, Outgoing.answer?_unwritable hresult he, hm] using hadds

private theorem conclude_error {m : Message} (hid : ∀ id, m.id = some id → id.toJson.Printable)
    (failure : Failure) (s : Session σ) :
    Concluded ⟨m, .error failure⟩ s (s.conclude m (.error failure)) := by
  by_cases hshutdown : ∃ code reason, failure = .shutdown code reason
  · obtain ⟨code, reason, rfl⟩ := hshutdown
    obtain ⟨s', hrespond, hadds⟩ := respond_spec hid Outgoing.null_encode s
    simp only [conclude, hrespond]
    refine ⟨?_, rfl⟩
    cases hm : m.id <;> simpa [Exchange.answer?, Outgoing.answer?, hm] using hadds
  · have hne : ∀ code reason, failure ≠ .shutdown code reason :=
      fun code reason h => hshutdown ⟨code, reason, h⟩
    have hgoes : Exchange.ending? ⟨m, .error failure⟩ = none :=
      Exchange.ending?_eq_none (Exchange.not_overruns_error m failure)
        fun code reason h => hne code reason (Except.error.inj h)
    obtain ⟨s', hfail, hadds⟩ := fail_spec hid failure s
    simp only [conclude, hfail]
    refine ⟨?_, hgoes.symm⟩
    cases hm : m.id <;> simpa [Exchange.answer?, Outgoing.answer?_error hne, hm] using hadds

/-- What the dispatch of a message that has a handler comes to: the handler's documents and world,
its notifications and an answer, and the end of the session if the exchange is one that ends it. -/
structure Dispatched (x : Exchange) (scene : Scene σ) (s : Session σ)
    (dispatched : Except Failure Bool × Session σ) : Prop where
  scene_eq : dispatched.2.scene = scene.settled
  ending_eq : endingOf dispatched.1 = x.ending?
  written_eq : ∃ frames,
    dispatched.2.written = s.written ++ (scene.frames ++ frames) ∧
      frames.map Sent.message = x.answer?.toList

private theorem dispatch_of_find {r : Registry σ} {m : Message} {h : Handler σ}
    (hfind : r.find m.method = some h)
    (hid : ∀ id, m.id = some id → id.toJson.Printable) (s : Session σ) :
    Dispatched ⟨m, (invoke h m s.scene).1⟩ (invoke h m s.scene).2 s
      (s.dispatch r collaborators m) := by
  obtain ⟨hout, hsettled, hnotes⟩ :=
    runTask_spec (h.run ⟨m, given collaborators h⟩) (s.report (.called m.method))
  change _ = (invoke h m s.scene).1 at hout
  simp only [dispatch, hfind]
  rw [← hout]
  generalize (s.report (.called m.method)).runTask (h.run ⟨m, given collaborators h⟩) = done at *
  obtain ⟨outcome, s₁⟩ := done
  dsimp only at hsettled hnotes ⊢
  have hconcluded : Concluded ⟨m, outcome⟩ s₁ (s₁.conclude m outcome) := by
    cases outcome with
    | ok result => exact conclude_ok hid result s₁
    | error failure => exact conclude_error hid failure s₁
  obtain ⟨⟨hscene, frames, hwritten, hframes⟩, hending⟩ := hconcluded
  refine ⟨hscene.trans hsettled, hending, frames, ?_, hframes⟩
  rw [hwritten, hnotes, List.append_assoc]
  rfl

theorem step_of_find_none {r : Registry σ} {m : Message} (hfind : r.find m.method = none)
    (s : Session σ) :
    step r (.message m) s = (none,
      ((s.report (.received m.method m.id)).report (.called m.method)).report
        (.ignored m.method)) := by
  simp only [step, dispatch, hfind]

theorem step_of_find {r : Registry σ} {m : Message} {h : Handler σ}
    (hfind : r.find m.method = some h)
    (hid : ∀ id, m.id = some id → id.toJson.Printable) (s : Session σ) :
    (step r (.message m) s).2.scene = (invoke h m s.scene).2.settled ∧
    (∃ frames, (step r (.message m) s).2.written =
        s.written ++ ((invoke h m s.scene).2.frames ++ frames) ∧
      frames.map Sent.message = (Exchange.answer? ⟨m, (invoke h m s.scene).1⟩).toList) ∧
    (step r (.message m) s).1 = Exchange.ending? ⟨m, (invoke h m s.scene).1⟩ := by
  obtain ⟨hscene, hending, hwritten⟩ :=
    dispatch_of_find hfind hid (s.report (.received m.method m.id))
  rw [scene_report] at hscene hending hwritten
  rw [← hending, step]
  generalize (s.report (.received m.method m.id)).dispatch r collaborators m = dispatched at *
  obtain ⟨result, s'⟩ := dispatched
  cases result with
  | ok => exact ⟨hscene, hwritten, rfl⟩
  | error failure =>
    cases failure with
    | shutdown code reason => exact ⟨hscene, hwritten, rfl⟩
    | _ => exact ⟨hscene, hwritten, rfl⟩

end

end Session

end RubyLanguageServer
