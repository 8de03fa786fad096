import Reshape.Number.Basic

/-!
The values that plans read and write.

* `Value`: JSON values in which integers and floats are kept apart. The entries of an object are a
  list; its order carries no meaning.
* `Value.property`: the value of a property, null wherever there is none.
* `Value.nest`: a value under a path of keys.
* `Value.items`: the items of an array, none of anything else.
* `nest_append` and `property_under`: nesting and reading undo each other step by step.
-/

namespace Reshape

/-- A value. -/
inductive Value where
  /-- Null. -/
  | null
  /-- A truth value. -/
  | boolean (value : Bool)
  /-- A number. -/
  | number (value : Number)
  /-- A text. -/
  | string (text : String)
  /-- Values in order. -/
  | array (items : List Value)
  /-- Values under keys. -/
  | object (entries : List (String × Value))

namespace Value

/-- The object without entries. -/
def empty : Value :=
  .object []

/-- The value under a key: the object with that one entry. -/
def under (key : String) (value : Value) : Value :=
  .object [(key, value)]

/-- The value under several keys, the first one outermost. -/
def nest (path : List String) (value : Value) : Value :=
  path.foldr under value

@[simp] theorem nest_nil (value : Value) : nest [] value = value := rfl

@[simp] theorem nest_cons (key : String) (path : List String) (value : Value) :
    nest (key :: path) value = under key (nest path value) := rfl

/-- Nesting under one path and then under another is nesting under both. -/
theorem nest_append (outer inner : List String) (value : Value) :
    nest (outer ++ inner) value = nest outer (nest inner value) :=
  List.foldr_append

/-- The value of a property. What is not an object, and an object without that property, gives
null. -/
def property (name : String) : Value → Value
  | .object entries => (entries.lookup name).getD .null
  | _ => .null

/-- What is put under a key is found there, and nothing else. -/
theorem property_under (name key : String) (value : Value) :
    (under key value).property name = if name = key then value else .null := by
  rw [under, property, List.lookup_cons]
  by_cases h : name = key
  · rw [if_pos h, beq_iff_eq.2 h]
    rfl
  · rw [if_neg h, beq_false_of_ne h]
    rfl

/-- The items of an array, none of anything else. -/
def items : Value → List Value
  | .array items => items
  | _ => []

/-- Whether the value is an array. -/
def isArray : Value → Bool
  | .array _ => true
  | _ => false

/-- What the type of a value is called. -/
def typeText : Value → String
  | .null => "null"
  | .boolean _ => "boolean"
  | .number (.integer _) => "integer"
  | .number (.float _) => "float"
  | .string _ => "string"
  | .array _ => "array"
  | .object _ => "object"

end Value

end Reshape
