import UnitOfWork.Data.Double

/-!
# JSON documents

The documents a column may hold. A number is either whole or a double, as it was written; the
fields of an object keep the order they were given in.
-/

namespace UnitOfWork

inductive Json where
  | null
  | bool (b : Bool)
  | int (n : Int)
  | float (d : Double)
  | string (s : String)
  | array (items : List Json)
  | object (fields : List (String × Json))
  deriving Repr

namespace Json

mutual

/-- Documents are equal when they are written alike. -/
def decEq (a b : Json) : Decidable (a = b) :=
  match a with
  | .null => by cases b with
    | null => exact isTrue rfl
    | _ => exact isFalse nofun
  | .bool x => by cases b with
    | bool y => exact decidable_of_iff (x = y) (by simp)
    | _ => exact isFalse nofun
  | .int x => by cases b with
    | int y => exact decidable_of_iff (x = y) (by simp)
    | _ => exact isFalse nofun
  | .float x => by cases b with
    | float y => exact decidable_of_iff (x = y) (by simp)
    | _ => exact isFalse nofun
  | .string x => by cases b with
    | string y => exact decidable_of_iff (x = y) (by simp)
    | _ => exact isFalse nofun
  | .array xs => by cases b with
    | array ys => have := decEqItems xs ys; exact decidable_of_iff (xs = ys) (by simp)
    | _ => exact isFalse nofun
  | .object xs => by cases b with
    | object ys => have := decEqFields xs ys; exact decidable_of_iff (xs = ys) (by simp)
    | _ => exact isFalse nofun

def decEqItems : (a b : List Json) → Decidable (a = b)
  | [], [] => isTrue rfl
  | [], _ :: _ | _ :: _, [] => isFalse nofun
  | x :: xs, y :: ys =>
    have := decEq x y
    have := decEqItems xs ys
    decidable_of_iff (x = y ∧ xs = ys) (by simp)

def decEqFields : (a b : List (String × Json)) → Decidable (a = b)
  | [], [] => isTrue rfl
  | [], _ :: _ | _ :: _, [] => isFalse nofun
  | (k, x) :: xs, (l, y) :: ys =>
    have := decEq x y
    have := decEqFields xs ys
    decidable_of_iff ((k = l ∧ x = y) ∧ xs = ys) (by simp)

end

instance : DecidableEq Json := decEq

end Json

end UnitOfWork
