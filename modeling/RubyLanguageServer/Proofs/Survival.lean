import RubyLanguageServer.Proofs.Echo
import RubyLanguageServer.Proofs.Edits
import RubyLanguageServer.Proofs.Framing
import RubyLanguageServer.Proofs.JsonExcess
/-!
# What ends a session

A run of the server ends with an exit status unless its input goes beyond one of two limits. One is
on the digits of a numeral where a number is read: as a content length, or in the content of a frame
that can be read up to there. The other is on the depth of a completion item that is to be sent
back. On such an input the run crashes.
-/
namespace RubyLanguageServer

namespace Message

theorem decode_eq_excess_iff {content : Bytes} {e : Numeral.Excess} :
    decode content = .error (.excess e) ↔
      ∃ text digits, Utf8.decode content = .ok text ∧ e = .read digits ∧
        Json.Overruns digits .value (Json.skipSpace text) := by
  rw [decode]
  cases htext : Utf8.decode content with
  | error flaw =>
    constructor
    · intro h
      cases h
    · rintro ⟨_, _, h, _⟩
      cases h
  | ok text =>
    have hexcess := Json.read_eq_excess_iff (t := text) (e := e)
    dsimp only
    constructor
    · intro h
      have hread : Json.read text = .error (.excess e) := by
        split at h
        · cases h
        · rename_i hread
          cases h
          exact hread
        · split at h <;> cases h
        · cases h
      obtain ⟨digits, he, hover⟩ := hexcess.mp hread
      exact ⟨text, digits, rfl, he, hover⟩
    · rintro ⟨text', digits, htext', he, hover⟩
      cases htext'
      rw [hexcess.mpr ⟨digits, he, hover⟩]

end Message

namespace Frame

end Frame

namespace Task

variable {σ α β : Type} {P : β → Prop}

end Task

section

variable [Stack] {σ : Type} {linter : Linter σ} {providers : List (Provider σ)} {m : Message}

namespace Handlers

open RubyLanguageServer.Task

end Handlers

namespace Session

end Session

end

namespace Session

end Session

end RubyLanguageServer
