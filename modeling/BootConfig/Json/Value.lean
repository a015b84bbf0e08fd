import BootConfig.Json.Writer

/-!
# JSON values

What a JSON text says, and the value that the text of a tree is to say.
-/

namespace BootConfig.Json

/-- A number without fraction and exponent is an integer; any other is kept as it is spelled. -/
inductive Value where
  | null
  | bool (value : Bool)
  | int (value : Int)
  | number (token : String)
  | str (text : String)
  | array (items : List Value)
  | object (members : List (String × Value))
deriving Inhabited

/-- The members of an object in order. -/
abbrev Members := List (String × Value)

namespace Value

def IsObject : Value → Prop
  | object _ => True
  | _ => False

/-- A member of an object, also behind another one with its name. -/
def HasMember (value : Value) (name : String) (member : Value) : Prop :=
  match value with
  | object members => (name, member) ∈ members
  | _ => False

/-- The value of the first member with a name. -/
def member? (name : String) : Value → Option Value
  | object members => (members.find? (·.1 = name)).map (·.2)
  | _ => none

/-- The element with an index. -/
def item? (index : Nat) : Value → Option Value
  | array items => items[index]?
  | _ => none

/-- An object with the values of the members of a name changed. -/
def update (name : String) (change : Value → Value) : Value → Value
  | object members => object (members.map fun m => if m.1 = name then (m.1, change m.2) else m)
  | value => value

end Value

mutual

/-- The value of a tree: a mapping as the list of its members in order, a tagged value as an object
with one member. -/
def image : Tree → Value
  | .null => .null
  | .bool b => .bool b
  | .int n => .int n
  | .float x => if x.isFinite then .number x.text else .null
  | .str text => .str text
  | .seq items => .array (imageItems items)
  | .map entries => .object (imageEntries entries)
  | .tagged name value => .object [(tagMember name, image value)]

def imageItems : List Tree → List Value
  | [] => []
  | t :: ts => image t :: imageItems ts

def imageEntries : Entries → Members
  | [] => []
  | (k, v) :: es => (nameOf k, image v) :: imageEntries es

end

end BootConfig.Json
