import UnitOfWork.Data.Json

/-!
# Writing JSON

Writes a JSON document on one line without blanks. A double always has a point, so that it is not
mistaken for a whole number.
-/

namespace UnitOfWork.Json

/-- How one character is written inside a text. -/
def escapeChar (c : Char) : List Char :=
  if c = '"' then ['\\', '"']
  else if c = '\\' then ['\\', '\\']
  else if c.toNat < 0x20 then
    ['\\', 'u', '0', '0', Nat.digitChar (c.toNat / 16), Nat.digitChar (c.toNat % 16)]
  else [c]

def writeText (s : String) : String := String.ofList ('"' :: s.toList.flatMap escapeChar ++ ['"'])

mutual

def toText : Json → String
  | null => "null"
  | bool b => if b then "true" else "false"
  | int n => toString n
  | float d => if d.isFinite then d.toDecimal else "null"
  | string s => writeText s
  | array items => "[" ++ ",".intercalate (itemTexts items) ++ "]"
  | object fields => "\x7b" ++ ",".intercalate (fieldTexts fields) ++ "\x7d"

def itemTexts : List Json → List String
  | [] => []
  | item :: items => item.toText :: itemTexts items

def fieldTexts : List (String × Json) → List String
  | [] => []
  | (name, item) :: fields => (writeText name ++ ":" ++ item.toText) :: fieldTexts fields

end

end UnitOfWork.Json
