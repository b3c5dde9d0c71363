import MarkupActions.Json.Basic

/-!
# TOML values

A document is a table, and grows line by line. Which tables may still grow depends on how they came
about, so every table keeps that. Numbers with a point, dates and times are recognised; nothing here
computes with them.
-/

namespace MarkupActions

inductive TableKind where
  /-- As the parent of a table with a header; it may get a header of its own. -/
  | implicit
  /-- As a part of a dotted key; more dotted keys may add to it. -/
  | dotted
  /-- By its own header. -/
  | header
  /-- In braces; it is complete. -/
  | inline
deriving DecidableEq

inductive Toml where
  | string (value : String)
  | integer (value : Int)
  | float (written : String)
  | boolean (value : Bool)
  | moment (written : String)
  | array (items : List Toml)
  | table (kind : TableKind) (members : List (String × Toml))
  /-- The tables of headers in double brackets, the first one first. -/
  | tables (items : List Toml)

namespace Toml

abbrev Members := List (String × Toml)

def replace (key : String) (value : Toml) (members : Members) : Members :=
  members.map fun (k, v) => if k = key then (k, value) else (k, v)

/-- What is done to a table, seen as its kind and its members; none where that is not allowed. -/
abbrev Edit := TableKind → Members → Option Members

/-- Does an edit to the table at the end of a path, and makes the tables on the way that are
missing. A path into an array of tables means the last of them. -/
def editAt (dotted : Bool) (edit : Edit) : (path : List String) → Edit
  | [], kind, members => edit kind members
  | key :: path, _, members =>
    match members.lookup key with
    | none =>
      let kind : TableKind := if dotted then .dotted else .implicit
      (editAt dotted edit path kind []).map fun inner => members ++ [(key, table kind inner)]
    | some (table kind inner) =>
      if kind = .inline ∨ (dotted ∧ kind = .header) then none
      else (editAt dotted edit path kind inner).map fun inner =>
        replace key (table kind inner) members
    | some (tables items) =>
      match items.getLast? with
      | some (table kind inner) =>
        (editAt dotted edit path kind inner).map fun inner =>
          replace key (tables (items.dropLast ++ [table kind inner])) members
      | _ => none
    | some _ => none

/-- Adds a key with its value. A key of several parts ends in a table that dotted keys have made. -/
def addKey (path : List String) (key : String) (value : Toml) : Edit :=
  editAt true (fun kind members =>
    if (kind == .dotted) == path.isEmpty || (members.lookup key).isSome then none
    else some (members ++ [(key, value)])) path

def addTable (path : List String) (key : String) : Edit :=
  editAt false (fun _ members =>
    match members.lookup key with
    | none => some (members ++ [(key, table .header [])])
    | some (table .implicit inner) => some (replace key (table .header inner) members)
    | some _ => none) path

/-- Adds a table to the tables of a header in double brackets. -/
def addToTables (path : List String) (key : String) : Edit :=
  editAt false (fun _ members =>
    match members.lookup key with
    | none => some (members ++ [(key, tables [table .header []])])
    | some (tables items) => some (replace key (tables (items ++ [table .header []])) members)
    | some _ => none) path

mutual

/-- A value as a JSON value. A date or a time is an object of its own. -/
def toJson : Toml → Json
  | string value => .string value
  | integer value => .integer value
  | float written => .fraction written
  | boolean value => .bool value
  | moment written => .object [("date-time", .string written)]
  | array items => .array (listToJson items)
  | table _ members => .object (membersToJson members)
  | tables items => .array (listToJson items)

def listToJson : List Toml → List Json
  | [] => []
  | item :: items => toJson item :: listToJson items

def membersToJson : List (String × Toml) → List (String × Json)
  | [] => []
  | (key, value) :: members => (key, toJson value) :: membersToJson members

end

end Toml

end MarkupActions
