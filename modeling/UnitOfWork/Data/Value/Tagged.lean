import UnitOfWork.Data.Value

/-!
# Tagged values

The JSON form of a value: an object whose only field is named after the type of the value, or the
bare name for NULL. Bytes and UUIDs are lists of numbers, doubles are numbers.
-/

namespace UnitOfWork.Value

def toTagged : Value → Json
  | null => .string "Null"
  | bool b => .object [("Bool", .bool b)]
  | int n => .object [("Int", .int n.toInt)]
  | bigInt n => .object [("BigInt", .int n.toInt)]
  | double d => .object [("Double", if d.isFinite then .float d else .null)]
  | text s => .object [("Text", .string s)]
  | bytes bs => .object [("Bytes", .array (bs.map fun b => .int b.toNat))]
  | uuid u => .object [("Uuid", .array (u.bytes.map fun b => .int b.toNat))]
  | json j => .object [("Json", j)]

/-- A list of numbers below 256. -/
def readBytes? : Json → Option (List UInt8)
  | .array items => items.mapM fun
    | .int n => if 0 ≤ n ∧ n < 256 then some (UInt8.ofNat n.toNat) else none
    | _ => none
  | _ => none

/-- Reads the content of a tagged form by the name of its tag. -/
def readContent? (tag : String) (content : Json) : Option Value :=
  match tag, content with
  | "Null", .null => some .null
  | "Bool", .bool b => some (.bool b)
  | "Int", .int n =>
    if Int32.minValue.toInt ≤ n ∧ n ≤ Int32.maxValue.toInt then some (.int (.ofInt n)) else none
  | "BigInt", .int n =>
    if Int64.minValue.toInt ≤ n ∧ n ≤ Int64.maxValue.toInt then some (.bigInt (.ofInt n))
    else none
  | "Double", .int n => some (.double (Double.ofInt n))
  | "Double", .float d => some (.double d)
  | "Text", .string s => some (.text s)
  | "Bytes", content => (readBytes? content).map .bytes
  | "Uuid", content => (readBytes? content).bind Uuid.ofBytes? |>.map .uuid
  | "Json", content => some (.json content)
  | _, _ => none

def ofTagged? : Json → Option Value
  | .string "Null" => some .null
  | .object [(tag, content)] => readContent? tag content
  | _ => none

end UnitOfWork.Value
