import Shipstern.Codama.Nodes

/-!
# JSON of an Anchor IDL

The types of an IDL stay JSON values, because their shape selects the conversion path. The
keys that the converter reads are constructors of `Key`. An object lists its entries; a
repeated key keeps its first value here, and none of the values that are parsed repeats one.
-/

namespace Shipstern.Anchor

open Codama

inductive Key
  | alias
  | array
  | coption
  | defined
  | docs
  | fields
  | generic
  | generics
  | kind
  | name
  | option
  | type
  | value
  | variants
  | vec
  | other (text : Name)
deriving DecidableEq

def Key.text : Key → Name
  | .alias => "alias".toList
  | .array => "array".toList
  | .coption => "coption".toList
  | .defined => "defined".toList
  | .docs => "docs".toList
  | .fields => "fields".toList
  | .generic => "generic".toList
  | .generics => "generics".toList
  | .kind => "kind".toList
  | .name => "name".toList
  | .option => "option".toList
  | .type => "type".toList
  | .value => "value".toList
  | .variants => "variants".toList
  | .vec => "vec".toList
  | .other text => text

/-- A `serde_json::Value`. A number is one that `as_u64` returns, or the text of another. -/
inductive Value
  | null
  | bool (value : Bool)
  | number (value : Nat)
  | otherNumber (text : Name)
  | string (text : Name)
  | array (items : List Value)
  | object (entries : List (Key × Value))

namespace Value

def asU64 : Value → Option Nat
  | .number value => some value
  | _ => none

def asStr : Value → Option Name
  | .string text => some text
  | _ => none

def asArray : Value → Option (List Value)
  | .array items => some items
  | _ => none

def get (key : Key) : Value → Option Value
  | .object entries => entries.lookup key
  | _ => none

/-- A string literal, with the escapes of `serde_json`. -/
def quoted (text : Name) : Name :=
  let escape (c : Char) : Name :=
    if c = '"' then "\\\"".toList
    else if c = '\\' then "\\\\".toList
    else if c = '\n' then "\\n".toList
    else if c = '\r' then "\\r".toList
    else if c = '\t' then "\\t".toList
    else if c.toNat = 8 then "\\b".toList
    else if c.toNat = 12 then "\\f".toList
    else if c.toNat < 32 then
      "\\u00".toList ++ [Nat.digitChar (c.toNat / 16), Nat.digitChar (c.toNat % 16)]
    else [c]
  '"' :: (text.flatMap escape ++ ['"'])

mutual

/-- The compact text of a value (`to_string`). -/
def text : Value → Name
  | .null => "null".toList
  | .bool true => "true".toList
  | .bool false => "false".toList
  | .number value => Nat.toDigits 10 value
  | .otherNumber text => text
  | .string text => quoted text
  | .array items => '[' :: (itemsText items ++ [']'])
  | .object entries => Char.ofNat 123 :: (entriesText entries ++ [Char.ofNat 125])

def itemsText : List Value → Name
  | [] => []
  | [item] => item.text
  | item :: items => item.text ++ ',' :: itemsText items

def entriesText : List (Key × Value) → Name
  | [] => []
  | [(key, value)] => quoted key.text ++ ':' :: value.text
  | (key, value) :: entries => quoted key.text ++ ':' :: (value.text ++ ',' :: entriesText entries)

end

end Value

end Shipstern.Anchor
