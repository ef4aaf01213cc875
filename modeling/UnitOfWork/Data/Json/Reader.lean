import UnitOfWork.Data.Json
import UnitOfWork.Data.Uuid

/-!
# Reading JSON

Reads the text of a JSON document. A number without fraction and exponent is whole if it fits 64
bits, with or without a sign; every other number is the double for its leading digits, as many as
fit 64 bits, and its exponent. Of several fields of one name in an object the last one counts. Each
function gives back what it has read together with the characters that follow.
-/

namespace UnitOfWork.Json

def skipBlank (cs : List Char) : List Char :=
  cs.dropWhile fun c => c == ' ' || c == '\t' || c == '\n' || c == '\r'

/-- The character behind a backslash, other than `u`. -/
def unescape? : Char → Option Char
  | '"' => some '"'
  | '\\' => some '\\'
  | '/' => some '/'
  | 'b' => some '\x08'
  | 'f' => some '\x0c'
  | 'n' => some '\n'
  | 'r' => some '\r'
  | 't' => some '\t'
  | _ => none

/-- Reads a text up to its closing quote. `high` is the first half of a surrogate pair whose second
half has to follow. -/
def readText (high : Option Nat) (acc : List Char) : List Char → Option (String × List Char)
  | '\\' :: 'u' :: a :: b :: c :: d :: cs =>
    match [a, b, c, d].mapM Uuid.hexValue? with
    | none => none
    | some ds =>
      let unit := ds.foldl (16 * · + ·) 0
      let isLow := 0xdc00 ≤ unit && unit < 0xe000
      match high with
      | some h =>
        if isLow then
          readText none (Char.ofNat (0x10000 + (h - 0xd800) * 0x400 + (unit - 0xdc00)) :: acc) cs
        else none
      | none =>
        if isLow then none
        else if 0xd800 ≤ unit && unit < 0xdc00 then readText (some unit) acc cs
        else readText none (Char.ofNat unit :: acc) cs
  | '\\' :: c :: cs =>
    match high, unescape? c with
    | none, some e => readText none (e :: acc) cs
    | _, _ => none
  | '"' :: cs => if high.isNone then some (String.ofList acc.reverse, cs) else none
  | c :: cs => if high.isNone && 0x20 ≤ c.toNat then readText none (c :: acc) cs else none
  | [] => none

def readDigits (cs : List Char) : Option (List Char × List Char) :=
  match cs.takeWhile Char.isDigit with
  | [] => none
  | ds => some (ds, cs.dropWhile Char.isDigit)

def ofDigits (ds : List Char) : Nat := ds.foldl (fun n d => 10 * n + (d.toNat - '0'.toNat)) 0

/-- Reads the digits behind a point, if there is one. -/
def readFraction : List Char → Option (Option (List Char) × List Char)
  | '.' :: cs => (readDigits cs).map fun (ds, cs) => (some ds, cs)
  | cs => some (none, cs)

/-- Reads an exponent, if there is one. -/
def readExponent : List Char → Option (Option Int × List Char)
  | c :: cs =>
    if c = 'e' ∨ c = 'E' then
      let (negative, cs) := match cs with
        | '-' :: cs => (true, cs)
        | '+' :: cs => (false, cs)
        | cs => (false, cs)
      (readDigits cs).map fun (ds, cs) =>
        (some (if negative then -(ofDigits ds : Int) else ofDigits ds), cs)
    else some (none, c :: cs)
  | [] => some (none, [])

/-- The next digit still fits into a significand of 64 bits. -/
def fits (n : Nat) (d : Char) : Bool := 10 * n + (d.toNat - '0'.toNat) < UInt64.size

/-- Takes digits before the point into a significand as long as they fit; every further one counts
as a power of ten. -/
def takeWhole (n : Nat) : List Char → Nat × Int
  | [] => (n, 0)
  | d :: ds =>
    if fits n d then takeWhole (10 * n + (d.toNat - '0'.toNat)) ds else (n, (d :: ds).length)

/-- Takes digits behind the point into a significand as long as they fit; the others do not
count. -/
def takeFraction (n : Nat) (exponent : Int) : List Char → Nat × Int
  | [] => (n, exponent)
  | d :: ds =>
    if fits n d then takeFraction (10 * n + (d.toNat - '0'.toNat)) (exponent - 1) ds
    else (n, exponent)

/-- The number with the given parts. -/
def ofParts (negative : Bool) (whole : List Char) (fraction : Option (List Char))
    (exponent : Option Int) : Json :=
  let n := ofDigits whole
  if fraction.isNone && exponent.isNone && negative && 0 < n && Int64.minValue.toInt ≤ -n then
    int (-n)
  else if fraction.isNone && exponent.isNone && !negative && n < UInt64.size then int n
  else
    let (n, scale) := takeWhole 0 whole
    let (n, scale) := takeFraction n scale (fraction.getD [])
    float (Double.ofDecimal negative n (scale + exponent.getD 0))

def readNumber (cs : List Char) : Option (Json × List Char) := do
  let (negative, cs) := match cs with
    | '-' :: cs => (true, cs)
    | cs => (false, cs)
  let (whole, cs) ← readDigits cs
  if 1 < whole.length ∧ whole.head? = some '0' then none
  let (fraction, cs) ← readFraction cs
  let (exponent, cs) ← readExponent cs
  match ofParts negative whole fraction exponent with
  | float d => if d.isFinite then some (float d, cs) else none
  | n => some (n, cs)

mutual

/-- Reads a document that is nested at most `depth` deep. -/
def readValue : (depth : Nat) → List Char → Option (Json × List Char)
  | 0, _ => none
  | depth + 1, cs =>
    match skipBlank cs with
    | 'n' :: 'u' :: 'l' :: 'l' :: cs => some (null, cs)
    | 't' :: 'r' :: 'u' :: 'e' :: cs => some (bool true, cs)
    | 'f' :: 'a' :: 'l' :: 's' :: 'e' :: cs => some (bool false, cs)
    | '"' :: cs => (readText none [] cs).map fun (s, cs) => (string s, cs)
    | '[' :: cs =>
      match skipBlank cs with
      | ']' :: cs => some (array [], cs)
      | cs => (readItems depth cs).map fun (items, cs) => (array items, cs)
    | '\x7b' :: cs =>
      match skipBlank cs with
      | '\x7d' :: cs => some (object [], cs)
      | cs => (readFields depth [] cs).map fun (fields, cs) => (object fields, cs)
    | cs => readNumber cs

def readItems : (depth : Nat) → List Char → Option (List Json × List Char)
  | 0, _ => none
  | depth + 1, cs => do
    let (item, cs) ← readValue depth cs
    match skipBlank cs with
    | ',' :: cs => (readItems depth cs).map fun (items, cs) => (item :: items, cs)
    | ']' :: cs => some ([item], cs)
    | _ => none

def readFields : (depth : Nat) → List (String × Json) → List Char →
    Option (List (String × Json) × List Char)
  | 0, _, _ => none
  | depth + 1, acc, cs => do
    match skipBlank cs with
    | '"' :: cs =>
      let (name, cs) ← readText none [] cs
      match skipBlank cs with
      | ':' :: cs =>
        let (item, cs) ← readValue depth cs
        let acc := acc.filter (·.1 != name) ++ [(name, item)]
        match skipBlank cs with
        | ',' :: cs => readFields depth acc cs
        | '\x7d' :: cs => some (acc, cs)
        | _ => none
      | _ => none
    | _ => none

end

def ofText? (s : String) : Option Json := do
  let cs := s.toList
  let (j, rest) ← readValue (2 * cs.length + 2) cs
  if (skipBlank rest).isEmpty then some j else none

end UnitOfWork.Json
