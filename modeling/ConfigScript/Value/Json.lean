import ConfigScript.Json
import ConfigScript.Value
/-!
# Values as JSON

A matrix is an object of its size and its elements, a cell an array and a struct an object.
-/

namespace ConfigScript.Value

mutual

def toJson : Value → Json
  | logical b => .bool b
  | double x => .number x
  | text content => .string content
  | matrix m =>
    .ofMembers [("rows", .integer m.rows), ("cols", .integer m.cols),
      ("data", .array (m.data.toList.map .number))]
  | cell items => .array (itemsToJson items)
  | struct fields => .object (fieldsToJson fields)

def itemsToJson : List Value → List Json
  | [] => []
  | v :: rest => toJson v :: itemsToJson rest

/-- The members of an object that holds a table of values. -/
def fieldsToJson : List (Text × Value) → List (Text × Json)
  | [] => []
  | (name, v) :: rest => (name, toJson v) :: fieldsToJson rest

end

end ConfigScript.Value
