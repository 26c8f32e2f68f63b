import RubyLanguageServer.Proofs.Echo
import RubyLanguageServer.Proofs.Framing
import RubyLanguageServer.Proofs.Outcomes
/-!
# What requests are answered with

A request for a method of the server fails only for its parameters. Whatever linter and providers
do, and whatever was read, the server never answers that it has failed itself. Only a completion
item for which the stack has no room is not answered at all.
-/
namespace RubyLanguageServer

open Outgoing

section

variable [Stack]

namespace Session

variable {σ : Type}

end Session

end

namespace Session

def completing : Frame.Block where
  blanks := []
  lines := [.contentLength [0x31, 0x31, 0x37, 0x0d] (by decide +kernel) (by decide)]
  close := .returnFeed
  lines_ne_nil := nofun
  digits := "117"
  body := Text.ascii <|
    "\x7b\"id\":7,\"method\":\"textDocument/completion\",\"params\":\x7b" ++
    "\"textDocument\":\x7b\"uri\":\"u\"\x7d," ++
    "\"position\":\x7b\"line\":0,\"character\":0\x7d\x7d\x7d"
  declares := ⟨by decide, by decide, by decide⟩
  digits_le := by decide
  denotes := by decide +kernel
  body_le := by decide +kernel

end Session

end RubyLanguageServer
