import Phrasebook.Json.Token

/-!
# Values of JSON

A machine that takes one token at a time builds a value, with the arrays and
objects that are still open on a stack. Members of an object keep their order,
and a name may occur more than once.
-/

namespace Phrasebook.Json

/-- A value of JSON. Numbers are only known to be numbers. -/
inductive Value
  | null
  | bool (value : Bool)
  | number
  | text (content : Option String)
  | array (items : List Value)
  | object (members : List (Option String × Value))
  deriving Repr, Inhabited

/-- An array or object that waits for a value; what it has so far, the latest first. -/
inductive Frame
  | array (items : List Value)
  | member (members : List (Option String × Value)) (name : Option String)
  deriving Repr

inductive Expecting
  | value (frames : List Frame)
  | itemOrClose (frames : List Frame)
  | afterItem (items : List Value) (frames : List Frame)
  | nameOrClose (frames : List Frame)
  | name (members : List (Option String × Value)) (frames : List Frame)
  | colon (members : List (Option String × Value)) (name : Option String) (frames : List Frame)
  | afterMember (members : List (Option String × Value)) (frames : List Frame)
  /-- Nothing: the value is complete. -/
  | nothing (value : Value)
  deriving Repr

namespace Expecting

def supply (v : Value) : List Frame → Expecting
  | [] => nothing v
  | .array items :: frames => afterItem (v :: items) frames
  | .member members key :: frames => afterMember ((key, v) :: members) frames

def begin (frames : List Frame) : Token → Option Expecting
  | .null => some (supply .null frames)
  | .bool b => some (supply (.bool b) frames)
  | .number => some (supply .number frames)
  | .text content => some (supply (.text content) frames)
  | .openBracket => some (itemOrClose frames)
  | .openBrace => some (nameOrClose frames)
  | _ => none

def step : Expecting → Token → Option Expecting
  | value frames, token => begin frames token
  | itemOrClose frames, .closeBracket => some (supply (.array []) frames)
  | itemOrClose frames, token => begin (.array [] :: frames) token
  | afterItem items frames, .comma => some (value (.array items :: frames))
  | afterItem items frames, .closeBracket => some (supply (.array items.reverse) frames)
  | nameOrClose frames, .closeBrace => some (supply (.object []) frames)
  | nameOrClose frames, .text key => some (colon [] key frames)
  | name members frames, .text key => some (colon members key frames)
  | colon members key frames, .colon => some (value (.member members key :: frames))
  | afterMember members frames, .comma => some (name members frames)
  | afterMember members frames, .closeBrace => some (supply (.object members.reverse) frames)
  | _, _ => none

def finish : Expecting → Option Value
  | nothing v => some v
  | _ => none

end Expecting

def ofTokens? (tokens : List Token) : Option Value :=
  (tokens.foldlM Expecting.step (.value [])).bind Expecting.finish

def parse? (text : String) : Option Value := (tokens? text.toList).bind ofTokens?

end Phrasebook.Json
