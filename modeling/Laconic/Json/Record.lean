import Laconic.Json.Basic

/-!
# Records in JSON

A record is read from an object with some of its fields, the others keep their
defaults.  A field may be given once only, and a strict record has no others.
An array gives the values of the first fields in order.
-/

namespace Laconic.Json

/-- A field of a record: its names and how its value enters the record. -/
structure Field (α : Type) where
  names : List String
  read : α → Json → Option α

/-- A field by its name, how its value is read and where it is kept. -/
def field {α β : Type} (name : String) (read : Json → Option β) (keep : α → β → α) : Field α :=
  ⟨[name], fun a v => (read v).map (keep a)⟩

def flag {α : Type} (name : String) (keep : α → Bool → α) : Field α := field name asBool? keep

def readMembers {α : Type} (strict : Bool) (fields : List (Field α)) :
    α → List (String × Json) → Option α
  | a, [] => some a
  | a, (key, v) :: rest =>
    match fields.find? (·.names.contains key) with
    | some f =>
      if rest.any fun m => f.names.contains m.1 then none
      else do readMembers strict fields (← f.read a v) rest
    | none => if strict then none else readMembers strict fields a rest

def readItems {α : Type} : List (Field α) → α → List Json → Option α
  | _, a, [] => some a
  | [], _, _ :: _ => none
  | f :: fields, a, v :: rest => do readItems fields (← f.read a v) rest

def readRecord {α : Type} (strict : Bool) (fields : List (Field α)) (default : α) :
    Json → Option α
  | .obj members => readMembers strict fields default members
  | .arr items => readItems fields default items
  | _ => none

end Laconic.Json
