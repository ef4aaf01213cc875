/-!
# UUIDs

A UUID is a 128-bit number. It is shown as thirty-two hexadecimal digits in the groups
8-4-4-4-12, and read from that form, from the bare digits, from the form in braces and from the
URN form.
-/

namespace UnitOfWork

/-- A universally unique identifier. The order of the bits is the order of the bytes. -/
structure Uuid where
  bits : BitVec 128
  deriving DecidableEq, Repr, Ord

namespace Uuid

/-- The `i`-th hexadecimal digit, counted from the left. -/
def digit (u : Uuid) (i : Nat) : Char := Nat.digitChar (u.bits.toNat >>> (4 * (31 - i)) % 16)

def digits (u : Uuid) : List Char := (List.range 32).map u.digit

/-- Hyphens after the eighth, twelfth, sixteenth and twentieth digit. -/
def hyphenate (ds : List Char) : List Char :=
  ds.take 8 ++ '-' :: (ds.drop 8).take 4 ++ '-' :: (ds.drop 12).take 4 ++
    '-' :: (ds.drop 16).take 4 ++ '-' :: ds.drop 20

def toText (u : Uuid) : String := String.ofList (hyphenate u.digits)

/-- The value of a hexadecimal digit of either case. -/
def hexValue? (c : Char) : Option Nat :=
  if '0' ≤ c ∧ c ≤ '9' then some (c.toNat - '0'.toNat)
  else if 'a' ≤ c ∧ c ≤ 'f' then some (c.toNat - 'a'.toNat + 10)
  else if 'A' ≤ c ∧ c ≤ 'F' then some (c.toNat - 'A'.toNat + 10)
  else none

/-- Reads exactly thirty-two digits. -/
def ofDigits? (ds : List Char) : Option Uuid :=
  if ds.length = 32 then
    (ds.mapM hexValue?).map fun vs => ⟨BitVec.ofNat 128 (vs.foldl (16 * · + ·) 0)⟩
  else none

/-- Reads digits that are hyphenated as `hyphenate` does it. -/
def ofHyphenated? (cs : List Char) : Option Uuid :=
  let ds := cs.filter (· != '-')
  if hyphenate ds = cs then ofDigits? ds else none

/-- What stands inside braces or behind the URN scheme, and the text itself without either. The
scheme may be written in either case. -/
def unwrap (cs : List Char) : List Char :=
  if cs.head? = some '\x7b' ∧ cs.getLast? = some '\x7d' then cs.tail.dropLast
  else if (cs.take 9).map Char.toLower = "urn:uuid:".toList then cs.drop 9
  else cs

/-- Reads any of the four written forms. -/
def ofText? (s : String) : Option Uuid :=
  let cs := s.toList
  if cs.length = 32 then ofDigits? cs else ofHyphenated? (unwrap cs)

/-- The sixteen bytes, most significant first. -/
def bytes (u : Uuid) : List UInt8 :=
  (List.range 16).map fun i => UInt8.ofNat (u.bits.toNat >>> (8 * (15 - i)) % 256)

/-- Reads exactly sixteen bytes. -/
def ofBytes? (bs : List UInt8) : Option Uuid :=
  if bs.length = 16 then
    some ⟨BitVec.ofNat 128 (bs.foldl (fun n b => 256 * n + b.toNat) 0)⟩
  else none

end Uuid

end UnitOfWork
