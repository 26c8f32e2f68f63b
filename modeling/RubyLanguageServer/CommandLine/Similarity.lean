import RubyLanguageServer.Text.Basic
/-!
# Similar words

Two words are similar if a large part of them agrees. The agreement is found by taking the longest
stretch that both words have, and then going on to its left and to its right.
-/
namespace RubyLanguageServer

namespace Similarity

def commonLength : Text → Text → Nat
  | a :: as, b :: bs => if a = b then commonLength as bs + 1 else 0
  | _, _ => 0

/-- A stretch that two words share: where it begins in each, and its length. -/
structure Stretch where
  left : Nat
  right : Nat
  length : Nat
deriving DecidableEq, Repr

/-- The longest stretch, and of several the first. -/
def longest (a b : Text) : Stretch :=
  let all := (List.range a.length).flatMap fun i =>
    (List.range b.length).map fun j => Stretch.mk i j (commonLength (a.drop i) (b.drop j))
  all.foldl (fun best s => if best.length < s.length then s else best) ⟨0, 0, 0⟩

/-- The number of characters in which two words agree. -/
def agreement (a b : Text) : Nat :=
  match longest a b with
  | ⟨i, j, n⟩ =>
    if _h : 0 < n ∧ i + n ≤ a.length then
      agreement (a.take i) (b.take j) + n + agreement (a.drop (i + n)) (b.drop (j + n))
    else 0
termination_by a.length
decreasing_by
  · rw [List.length_take]
    omega
  · rw [List.length_drop]
    omega

/-- Whether at least three fifths of the characters of two words agree. -/
def isClose (a b : Text) : Bool := 3 * (a.length + b.length) ≤ 10 * agreement a b

/-- Whether the first of two words is no less like the given one than the second; of equally close
words the later in the order of texts comes first. -/
def isCloser (word a b : Text) : Bool :=
  let likeA := agreement a word * (b.length + word.length)
  let likeB := agreement b word * (a.length + word.length)
  likeB < likeA || (likeA = likeB && Text.le b a)

/-- At most three words that are close to the given one, in ascending order. -/
def suggestions (word : Text) (words : List Text) : List Text :=
  Text.sort (((words.filter (isClose · word)).mergeSort (isCloser word)).take 3)

end Similarity

end RubyLanguageServer
