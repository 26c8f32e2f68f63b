import RubyLanguageServer.Text.Blank
import RubyLanguageServer.Text.Lines
import RubyLanguageServer.Text.Word
/-!
# Constants

A text defines a constant where a line begins with `class` or `module` and a constant path, or with
a name in capitals and an assignment. Blanks in a definition may reach over line ends. The prefix at
a cursor is the constant path that ends there.
-/
namespace RubyLanguageServer

namespace Constant

/-- The longest constant path at the beginning of a text, names that begin with a capital joined by
double colons, and the rest. -/
def path? : Text → Option (Text × Text)
  | [] => none
  | c :: cs =>
    if c.isUpper then
      let name := c :: cs.takeWhile CodePoint.isWord
      match _h : cs.dropWhile CodePoint.isWord with
      | a :: b :: rest =>
        if a = ':' && b = ':' then
          match path? rest with
          | some (more, rest) => some (name ++ a :: b :: more, rest)
          | none => some (name, a :: b :: rest)
        else some (name, a :: b :: rest)
      | rest => some (name, rest)
    else none
termination_by t => t.length
decreasing_by
  have hle := (List.dropWhile_suffix (l := cs) CodePoint.isWord).length_le
  simp only [_h, List.length_cons] at hle ⊢
  omega

def isPath (t : Text) : Bool :=
  match path? t with
  | some (_, []) => true
  | _ => false

/-- What follows the word that begins a definition. -/
def keyword? (t : Text) : Option Text :=
  match t.after? "class" with
  | some rest => some rest
  | none => t.after? "module"

/-- A character of a name in capitals after the first. -/
def isCapitalPart (c : CodePoint) : Bool := c.isUpper || c.isDigit || c = '_'

/-- The name that a class or module definition at the beginning of a text defines, and the rest. -/
def scoped? (t : Text) : Option (Text × Text) := do
  match ← keyword? t with
  | [] => none
  | c :: cs => if c.isBlank then path? (cs.dropWhile CodePoint.isBlank) else none

/-- The name in capitals that an assignment at the beginning of a text defines, and the rest. The
equals sign must not begin a comparison or a match. -/
def assigned? : Text → Option (Text × Text)
  | [] => none
  | c :: cs =>
    if c.isUpper then
      match (cs.dropWhile isCapitalPart).dropWhile CodePoint.isBlank with
      | [] => none
      | e :: rest =>
        if e = '=' then
          match rest with
          | [] => some (c :: cs.takeWhile isCapitalPart, [])
          | d :: ds =>
            if d = '=' || d = '~' then none
            else some (c :: cs.takeWhile isCapitalPart, d :: ds)
        else none
    else none

/-- The definition at the very beginning of a text: its name and the rest. -/
def definition? (t : Text) : Option (Text × Text) :=
  match scoped? t with
  | some found => some found
  | none => assigned? t

private theorem dropWhile_length_le (p : CodePoint → Bool) (t : Text) :
    (t.dropWhile p).length ≤ t.length :=
  (List.dropWhile_suffix p).length_le

private theorem path?_length_le {t name rest : Text} (h : path? t = some (name, rest)) :
    rest.length ≤ t.length := by
  fun_induction path? t generalizing name rest with
  | case1 => simp at h
  | case2 =>
    rename_i c cs _ _ a b tail hd _ _ _ hp ih
    have hle := dropWhile_length_le CodePoint.isWord cs
    have htail := ih hp
    simp only [hd, Option.some.injEq, Prod.mk.injEq, List.length_cons] at h hle ⊢
    rw [← h.2]
    omega
  | case3 =>
    rename_i c cs _ _ a b tail hd _ _ _
    have hle := dropWhile_length_le CodePoint.isWord cs
    simp only [hd, Option.some.injEq, Prod.mk.injEq] at h hle
    rw [← h.2]
    exact Nat.le_succ_of_le hle
  | case4 =>
    rename_i c cs _ _ a b tail hd _
    have hle := dropWhile_length_le CodePoint.isWord cs
    simp only [hd, Option.some.injEq, Prod.mk.injEq] at h hle
    rw [← h.2]
    exact Nat.le_succ_of_le hle
  | case5 =>
    rename_i c cs _ _ _
    have hle := dropWhile_length_le CodePoint.isWord cs
    simp only [Option.some.injEq, Prod.mk.injEq] at h
    rw [← h.2]
    exact Nat.le_succ_of_le hle
  | case6 => simp at h

private theorem after?_length_le {t p rest : Text} (h : t.after? p = some rest) :
    rest.length ≤ t.length := by
  fun_induction Text.after? t p with
  | case1 t => simp_all
  | case2 => simp at h
  | case3 cs p ps ih => exact Nat.le_succ_of_le (ih h)
  | case4 => simp at h

private theorem keyword?_length_le {t rest : Text} (h : keyword? t = some rest) :
    rest.length ≤ t.length := by
  unfold keyword? at h
  split at h
  · rename_i found hc
    cases h
    exact after?_length_le hc
  · exact after?_length_le h

private theorem scoped?_length_le {t name rest : Text} (h : scoped? t = some (name, rest)) :
    rest.length ≤ t.length := by
  unfold scoped? at h
  cases hk : keyword? t with
  | none => simp [hk] at h
  | some behind =>
    have hle := keyword?_length_le hk
    cases behind with
    | nil => simp [hk] at h
    | cons c cs =>
      simp only [hk, Option.bind_eq_bind, Option.bind_some] at h
      split at h
      · have hpath := path?_length_le h
        have hdrop := dropWhile_length_le CodePoint.isBlank cs
        rw [List.length_cons] at hle
        omega
      · simp at h

private theorem assigned?_length_le {t name rest : Text} (h : assigned? t = some (name, rest)) :
    rest.length ≤ t.length := by
  cases t with
  | nil => simp [assigned?] at h
  | cons c cs =>
    have hcap := dropWhile_length_le isCapitalPart cs
    have hblank := dropWhile_length_le CodePoint.isBlank (cs.dropWhile isCapitalPart)
    by_cases hc : c.isUpper
    · simp only [assigned?, hc, if_true] at h
      split at h
      · simp at h
      · rename_i e tail heq
        rw [heq, List.length_cons] at hblank
        rw [List.length_cons]
        split at h
        · split at h
          · simp only [Option.some.injEq, Prod.mk.injEq] at h
            rw [← h.2]
            exact Nat.zero_le _
          · split at h
            · simp at h
            · simp only [Option.some.injEq, Prod.mk.injEq] at h
              rw [← h.2]
              omega
        · simp at h
    · simp [assigned?, hc] at h

private theorem definition?_length_le {t name rest : Text} (h : definition? t = some (name, rest)) :
    rest.length ≤ t.length := by
  unfold definition? at h
  split at h
  · rename_i found hs
    cases h
    exact scoped?_length_le hs
  · exact assigned?_length_le h

/-- The names of a definition at the beginning of a text, of which there is at most one, and what
is left of the text behind it. -/
def first (t : Text) : List Text × Text :=
  match definition? t with
  | some (name, rest) => ([name], rest)
  | none => ([], t)

private theorem first_length_le (t : Text) : (first t).2.length ≤ t.length := by
  unfold first
  split
  · rename_i h
    exact definition?_length_le h
  · exact Nat.le_refl _

/-- The names that a text defines, in order. A definition is looked for behind the blanks at the
start of a line, and the next one on the lines behind it. -/
def namesIn (t : Text) : List Text :=
  match _h : first (t.dropWhile CodePoint.isBlank) with
  | (names, behind) =>
    match _h' : behind.dropWhile (· ≠ CodePoint.lineFeed) with
    | [] => names
    | _ :: next => names ++ namesIn next
termination_by t.length
decreasing_by
  have hblank := dropWhile_length_le CodePoint.isBlank t
  have hfirst := first_length_le (t.dropWhile CodePoint.isBlank)
  have hline := dropWhile_length_le (fun c => decide (c ≠ CodePoint.lineFeed)) behind
  simp only [_h, _h', List.length_cons] at hfirst hline
  omega

/-- The characters at the end of a text that belong to a class. -/
def trailing (p : CodePoint → Bool) (t : Text) : Text := (t.reverse.takeWhile p).reverse

/-- The constant path that ends at the cursor, or nothing: the word characters and colons before the
cursor, if they make a path. Lines and characters count from zero. -/
def prefixAt (t : Text) (line character : Int) : Text :=
  if line < 0 then []
  else
    match t.lines[line.toNat]? with
    | none => []
    | some l =>
      let run := trailing (fun c => c.isWord || c = ':') (l.take character.toNat)
      if isPath run then run else []

end Constant

end RubyLanguageServer
