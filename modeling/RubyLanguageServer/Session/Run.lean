import RubyLanguageServer.Session.Dispatch
import RubyLanguageServer.Wire.Frame
/-!
# Runs of a session

Messages are read and dispatched one at a time until the input ends, a handler ends the session or
the bytes are no frame. A frame whose content is no message is skipped.
-/
namespace RubyLanguageServer

namespace Session

variable {σ : Type} [Stack]

/-- How a run ends: with an exit status, or by a failure that nothing handles. -/
inductive Ending where
  | exit (status : Int)
  | crash (failure : Failure)
deriving Repr

def collaborators : List Collaborator := [.notifier, .documentStore]

/-- Processes one reading; the session goes on if there is no ending. -/
def step (r : Registry σ) (reading : Reading) (s : Session σ) : Option Ending × Session σ :=
  match reading with
  | .closed => (some (.exit 0), s.report .inputClosed)
  | .broken e => (some (.exit 1), s.report (.aborted e.message))
  | .excess e => (some (.crash (.excess e)), s)
  | .undecodable _ e => (none, s.report (.skipped e.message))
  | .message m =>
    match (s.report (.received m.method m.id)).dispatch r collaborators m with
    | (.ok _, s) => (none, s)
    | (.error (.shutdown code reason), s) =>
      (some (.exit code), s.report (.stopped (Failure.shutdown code reason).message))
    | (.error failure, s) => (some (.crash failure), s)

def loop (r : Registry σ) (source : Source) (s : Session σ) : Ending × Source × Session σ :=
  match _hstep : step r (Frame.read source).1 s with
  | (some ending, s) => (ending, (Frame.read source).2, s)
  | (none, s) => loop r (Frame.read source).2 s
termination_by source.bytes.length
decreasing_by
  apply Frame.read_length_lt
  intro hclosed
  rw [hclosed] at _hstep
  simp [step] at _hstep

def start (s : Session σ) : Session σ := s.report (.serving s.store.roots.length)

def run (r : Registry σ) (source : Source) (s : Session σ) : Ending × Source × Session σ :=
  loop r source s.start

end Session

end RubyLanguageServer
