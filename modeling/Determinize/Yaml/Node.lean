/-!
# Nodes of YAML

What a YAML text says: scalars, sequences and mappings. A scalar remembers whether it was plain,
for a plain one may stand for something other than its text.
-/

namespace Determinize.Yaml

inductive Node
  | scalar (plain : Bool) (text : String)
  | sequence (items : List Node)
  | mapping (entries : List (Node × Node))

namespace Node

/-- What stands where nothing is written. -/
def empty : Node := scalar true ""

def text? : Node → Option String
  | scalar _ text => some text
  | _ => none

/-- The items of a sequence; nothing at all has no items. -/
def items? : Node → Option (List Node)
  | sequence items => some items
  | scalar true "" => some []
  | _ => none

/-- The entries of a mapping with texts as keys; nothing at all has no entries. -/
def fields? : Node → Option (List (String × Node))
  | mapping entries => entries.mapM fun (key, value) => key.text?.map fun name => (name, value)
  | scalar true "" => some []
  | _ => none

def bool? : Node → Option Bool
  | scalar true text =>
    if text ∈ ["true", "True", "TRUE"] then some true
    else if text ∈ ["false", "False", "FALSE"] then some false
    else none
  | _ => none

/-- The texts of a sequence of scalars. -/
def texts? (n : Node) : Option (List String) := n.items?.bind fun items => items.mapM text?

end Node

/-- The value of a key, if there is one; a key that occurs twice is refused. -/
def field? (fields : List (String × Node)) (name : String) : Option (Option Node) :=
  match fields.filter fun field => decide (field.1 = name) with
  | [] => some none
  | [field] => some (some field.2)
  | _ => none

/-- The value of a key that has to be there, read by `read`. -/
def required? {α : Type} (fields : List (String × Node)) (name : String) (read : Node → Option α) :
    Option α :=
  match field? fields name with
  | some (some value) => read value
  | _ => none

def optional? {α : Type} (fields : List (String × Node)) (name : String) (read : Node → Option α)
    (absent : α) : Option α :=
  match field? fields name with
  | some (some value) => read value
  | some none => some absent
  | none => none

end Determinize.Yaml
