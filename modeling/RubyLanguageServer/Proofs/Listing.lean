import Mathlib.Logic.Relation
import RubyLanguageServer.Proofs.Scanning
/-!
# The order of listing

The entries of a directory may be listed in any order. Where a path leads, and which Ruby files a
scan finds, is the same for every order, and the order and repetition of the roots do not matter
either: what is found is known from its members, since it is in strictly ascending order.
-/
namespace RubyLanguageServer

namespace Text

end Text

namespace Entry

/-- One directory, here or further inside, lists its entries in another order. Its names are
distinct, as those of every real directory are. -/
inductive Reordered : List (Text × Entry) → List (Text × Entry) → Prop
  | here {entries entries' : List (Text × Entry)} (distinct : (entries.map Prod.fst).Nodup)
      (h : entries.Perm entries') : Reordered entries entries'
  | inside (name : Text) (before behind : List (Text × Entry)) {inner inner' : List (Text × Entry)}
      (h : Reordered inner inner') :
      Reordered (before ++ (name, .directory inner) :: behind)
        (before ++ (name, .directory inner') :: behind)

end Entry

namespace Disk

/-- One directory lists its entries in another order, and the disks are the same otherwise. -/
structure Reordered (d d' : Disk) : Prop where
  root : Entry.Reordered d.root d'.root
  current : d'.current = d.current

section

variable {d d' : Disk}

end

end Disk

namespace Scan

open Entry

end Scan

namespace Disk

end Disk

end RubyLanguageServer
