/-!
# JSON values

Integers are exact. A number with a fraction or an exponent is kept as it is written, since nothing
here computes with it.
-/

namespace MarkupActions

inductive Json where
  | null
  | bool (value : Bool)
  | integer (value : Int)
  | fraction (written : String)
  | string (value : String)
  | array (items : List Json)
  | object (members : List (String × Json))

namespace Json

def member? (name : String) : Json → Option Json
  | object members => members.lookup name
  | _ => none

def string? : Json → Option String
  | string value => some value
  | _ => none

def bool? : Json → Option Bool
  | bool value => some value
  | _ => none

def array? : Json → Option (List Json)
  | array items => some items
  | _ => none

def natural? : Json → Option Nat
  | integer (.ofNat n) => some n
  | _ => none

/-- An integer from zero up to 2^64 - 1. -/
def word? (j : Json) : Option UInt64 :=
  j.natural?.bind fun n => if n < UInt64.size then some (UInt64.ofNat n) else none

def ofNat (n : Nat) : Json := integer n

def ofWord (n : UInt64) : Json := integer n.toNat

def strings (values : List String) : Json := array (values.map string)

end Json

end MarkupActions
