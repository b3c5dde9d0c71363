import MarkupActions.Json.Basic

/-!
# Records in JSON

A record is an object whose members are known by name; members that nobody asks for are passed over.
It may also be an array with the values in the order of the names, the last ones left out at will.
Whether there may be more values than names is up to the reader.
-/

namespace MarkupActions.Json

/-- What becomes of an array with more values than there are names. -/
inductive Surplus where
  | refused
  | ignored
deriving DecidableEq

def record? (surplus : Surplus) (names : List String) : Json → Option (List (String × Json))
  | object members => some members
  | array items =>
    if surplus = .ignored ∨ items.length ≤ names.length then some (names.zip items) else none
  | _ => none

def required? {α : Type} (decode : Json → Option α) (name : String)
    (members : List (String × Json)) : Option α :=
  (members.lookup name).bind decode

/-- A member that may be left out or be null. -/
def optional? {α : Type} (decode : Json → Option α) (name : String)
    (members : List (String × Json)) :
    Option (Option α) :=
  match members.lookup name with
  | none => some none
  | some null => some none
  | some j => (decode j).map some

/-- A member that has a value of its own where it is left out. -/
def withDefault? {α : Type} (decode : Json → Option α) (value : α) (name : String)
    (members : List (String × Json)) : Option α :=
  match members.lookup name with
  | none => some value
  | some j => decode j

/-- A truth value that is false where it is left out. -/
def flag? : (name : String) → (members : List (String × Json)) → Option Bool :=
  withDefault? bool? false

def strings? (j : Json) : Option (List String) := j.array?.bind (·.mapM string?)

/-- A member that is written only if it has a value. -/
def optionalMember {α : Type} (encode : α → Json) (name : String) : Option α → List (String × Json)
  | none => []
  | some value => [(name, encode value)]

end MarkupActions.Json
