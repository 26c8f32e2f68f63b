import RubyLanguageServer.Server.Analyzers
import RubyLanguageServer.Server.Handlers
import RubyLanguageServer.Session.Run
/-!
# The server

A server is assembled from its settings, on a machine whose disk has the root directories, and then
runs one session.
-/
namespace RubyLanguageServer

structure Settings where
  roots : List Text
  ruby : Text := "ruby"
  completer : Text := "rct-complete"
  debug : Bool := false
  logFile : Option Text := none
deriving DecidableEq, Repr

namespace Settings

/-- The settings with absolute roots; the working directory stands in for no roots. -/
def normalize (current : Text) (s : Settings) : Settings :=
  { s with roots := Path.absoluteRoots current s.roots }

def level (s : Settings) : Level := if s.debug then .debug else .info

/-- The absolute path of the log file, if one is named. -/
def logPath? (current : Text) (s : Settings) : Option Text :=
  (s.logFile.filter (· ≠ [])).map (Path.absolute current)

end Settings

structure Server where
  registry : Registry Backend
  session : Session Backend

namespace Server

def create [Stack] (settings : Settings) (machine : Machine) :
    Except Workspace.Rejection Server := do
  let workspace ← Workspace.create machine.disk settings.roots
  return {
    registry := Handlers.registry (Backend.linter settings.ruby)
      [Backend.methodProvider settings.completer, Backend.constantProvider]
    session := {
      store := { roots := workspace.roots }
      world := { machine, index := { workspace := some workspace } }
      journal := [workspace.opened] } }

def run [Stack] (server : Server) (source : Source) : Session.Ending × Source × Session Backend :=
  server.session.run server.registry source

end Server

end RubyLanguageServer
