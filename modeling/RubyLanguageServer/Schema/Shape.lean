import RubyLanguageServer.Schema.Coercion
import RubyLanguageServer.Schema.Instance
import RubyLanguageServer.Workspace.Path
/-!
# Shapes

The schema of a value as data. A record's field is looked up under its wire name first and then
under its own name, so a fault is reported under the spelling that was used; keys that belong to no
field are ignored. All faults of a value are collected.
-/
namespace RubyLanguageServer

/-- A field of a record: its own name, its wire name, and its value if it may be absent. -/
structure Field where
  name : Text
  wire : Text
  default : Option Instance
deriving Repr

inductive Shape where
  | any
  | text
  | integer
  | flag
  | choice (values : List Int)
  | requestId
  | directories (current : Text)
  | optional (shape : Shape)
  | list (item : Shape)
  | record (name : Text) (fields : List (Field × Shape))

namespace Shape

open Schema

/-- The outcome of a scalar coercion as the outcome of a validation. -/
def scalar (j : Json) (build : α → Instance) : Except Reason α → Except (List Fault) Instance
  | .ok v => .ok (build v)
  | .error reason => .error [⟨[], reason, j.typeName⟩]

def under (step : Step) : Except (List Fault) α → Except (List Fault) α
  | .ok v => .ok v
  | .error faults => .error (faults.map (Fault.under step))

/-- Two outcomes as one, with the faults of both. -/
def both : Except (List Fault) α → Except (List Fault) β → Except (List Fault) (α × β)
  | .ok a, .ok b => .ok (a, b)
  | .ok _, .error fs => .error fs
  | .error fs, .ok _ => .error fs
  | .error fs, .error gs => .error (fs ++ gs)

/-- Many outcomes as one, with the faults of all. -/
def all : List (Except (List Fault) α) → Except (List Fault) (List α)
  | [] => .ok []
  | r :: rs => (both r (all rs)).map fun (v, vs) => v :: vs

/-- A field's key and value as an object gives them. -/
def supplied? (f : Field) (members : List (Text × Json)) : Option (Text × Json) :=
  match Entries.find? f.wire members with
  | some j => some (f.wire, j)
  | none => (Entries.find? f.name members).map (f.name, ·)

/-- The directories given as texts, made absolute; none at all means the current one. -/
def directoriesOf (current : Text) (items : List Json) : Except (List Fault) Instance :=
  let texts := items.mapIdx fun i j =>
    match j with
    | .text t => .ok t
    | _ => .error [⟨[.index i], .notText, j.typeName⟩]
  (all texts).map fun ts =>
    .list ((Path.absoluteRoots current ts).map .text)

mutual

/-- The value that fits the shape, or all faults. -/
def validate : Shape → Json → Except (List Fault) Instance
  | .any, .null => .ok .none
  | .any, j => .ok (.data j)
  | .text, .text t => .ok (.text t)
  | .text, j => .error [⟨[], .notText, j.typeName⟩]
  | .integer, j => scalar j .integer (integerOf j)
  | .flag, j => scalar j .flag (flagOf j)
  | .choice values, j =>
    match choiceOf values j with
    | .ok n => .ok (.integer n)
    | .error (reason, culprit) => .error [⟨[], reason, culprit.typeName⟩]
  | .requestId, .int n => .ok (.integer n)
  | .requestId, .text t => .ok (.text t)
  | .requestId, j =>
    .error [⟨[.key "int"], .notInteger, j.typeName⟩, ⟨[.key "str"], .notText, j.typeName⟩]
  | .directories current, .array items => directoriesOf current items
  | .directories _, j => .error [⟨[], .notList, j.typeName⟩]
  | .optional _, .null => .ok .none
  | .optional shape, j => validate shape j
  | .list item, .array items =>
    (all (items.mapIdx fun i j => under (.index i) (validate item j))).map .list
  | .list _, j => .error [⟨[], .notList, j.typeName⟩]
  | .record _ fields, .object members => (validateFields members fields).map .record
  | .record name _, j => .error [⟨[], .notRecord name, j.typeName⟩]

/-- The fields of a record, each under its wire name. -/
def validateFields (members : List (Text × Json)) :
    List (Field × Shape) → Except (List Fault) (List (Text × Instance))
  | [] => .ok []
  | (f, shape) :: rest =>
    let value :=
      match supplied? f members with
      | some (key, j) => under (.key key) (validate shape j)
      | none =>
        match f.default with
        | some v => .ok v
        | none => .error [⟨[.key f.wire], .missing, "dict"⟩]
    (both value (validateFields members rest)).map fun (v, vs) => (f.wire, v) :: vs

end

def name : Shape → Text
  | .record n _ => n
  | _ => []

/-- The value that fits the shape; a failure carries the name of the record. -/
def check (shape : Shape) (j : Json) : Except Schema.Failure Instance :=
  (shape.validate j).mapError fun faults => ⟨shape.name, faults⟩

end Shape

end RubyLanguageServer
