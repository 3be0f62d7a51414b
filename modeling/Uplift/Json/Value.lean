/-!
# JSON values

Objects keep the order in which their keys were first given.  Setting a key that is present keeps
its place; setting a new key puts it at the end.  Numbers are either integers of at most 64 bits
or doubles, the latter held by their bits so that equality of values is decidable data.
-/

set_option autoImplicit false

namespace Uplift.Json

/-- A JSON number. -/
inductive Number where
  /-- An integer from `-2^63` up to, not including, `2^64`. -/
  | integer (value : Int)
  /-- Any other number, as the bits of a finite double. -/
  | double (bits : UInt64)
  deriving DecidableEq, Repr, Inhabited

/-- A JSON value. -/
inductive Value where
  | null
  | bool (value : Bool)
  | number (value : Number)
  | string (text : String)
  | array (items : List Value)
  | object (fields : List (String × Value))
  deriving Inhabited, Repr

/-- The fields of an object, in order. -/
abbrev Fields := List (String × Value)

namespace Fields

/-- The value of a key. -/
def get? (fields : Fields) (key : String) : Option Value :=
  match fields with
  | [] => none
  | (name, value) :: rest => if name = key then some value else get? rest key

/-- Sets a key: in its place if it is present, at the end otherwise. -/
def insert (fields : Fields) (key : String) (value : Value) : Fields :=
  match fields with
  | [] => [(key, value)]
  | (name, old) :: rest =>
    if name = key then (name, value) :: rest else (name, old) :: insert rest key value

/-- Removes a key; the others keep their order. -/
def erase (fields : Fields) (key : String) : Fields :=
  fields.filter fun field => field.1 ≠ key

/-- Whether a key is present. -/
def contains (fields : Fields) (key : String) : Bool :=
  (get? fields key).isSome

/-- The keys, in order. -/
def keys (fields : Fields) : List String :=
  fields.map Prod.fst

/-- A key that was just set has the value it was set to, and the others are as before. -/
theorem get?_insert (fields : Fields) (key other : String) (value : Value) :
    get? (insert fields key value) other =
      if key = other then some value else get? fields other := by
  induction fields with
  | nil => simp [insert, get?]
  | cons field rest ih =>
    obtain ⟨name, old⟩ := field
    by_cases h : name = key
    · subst h
      by_cases h' : name = other <;> simp [insert, get?, h']
    · by_cases h' : name = other
      · subst h'
        simp [insert, get?, h, Ne.symm h]
      · simp [insert, get?, h, h', ih]

end Fields

namespace Value

/-- The value of a key of an object. -/
def field? : Value → String → Option Value
  | .object fields, key => Fields.get? fields key
  | _, _ => none

/-- The text of a string. -/
def text? : Value → Option String
  | .string text => some text
  | _ => none

/-- The items of an array. -/
def items? : Value → Option (List Value)
  | .array items => some items
  | _ => none

/-- The fields of an object. -/
def fields? : Value → Option Fields
  | .object fields => some fields
  | _ => none

/-- An array of strings. -/
def ofStrings (texts : List String) : Value :=
  .array (texts.map .string)

/-- A natural number as a value. -/
def ofNat (n : Nat) : Value :=
  .number (.integer n)

/-- An optional value, `null` when absent. -/
def ofOption : Option Value → Value
  | some value => value
  | none => .null

/-- What a value is, as a phrase for messages. -/
def kind : Value → String
  | .null => "null"
  | .bool _ => "a boolean"
  | .number _ => "a number"
  | .string _ => "a string"
  | .array _ => "a list"
  | .object _ => "an object"

end Value

end Uplift.Json
