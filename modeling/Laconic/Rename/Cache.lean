import Laconic.Json.Record

/-!
# Names given earlier

A renaming is a table of names with their new names, in the order of the names.
Renamings of earlier runs are kept so that separate programs use the same names.
-/

namespace Laconic

/-- Names with their new names, in the order of the names. -/
abbrev Renaming := List (String × String)

namespace Renaming

def find? (r : Renaming) (name : String) : Option String := r.lookup name

def insert (name new : String) : Renaming → Renaming
  | [] => [(name, new)]
  | e :: rest =>
    if name == e.1 then (name, new) :: rest
    else if name < e.1 then (name, new) :: e :: rest
    else e :: insert name new rest

def newNames (r : Renaming) : List String := r.map (·.2)

def ofJson? : Json → Option Renaming
  | .obj members =>
    members.foldlM (fun r m => m.2.asString?.map fun new => insert m.1 new r) []
  | _ => none

def toJson (r : Renaming) : Json := .obj (r.map fun e => (e.1, .str e.2))

end Renaming

/-- The names that earlier runs gave. -/
structure NameCache where
  /-- The variables of the outermost scope. -/
  vars : Renaming := []
  props : Renaming := []

namespace NameCache

def ofJson? : Json → Option NameCache :=
  Json.readRecord false [
    Json.field "vars" Renaming.ofJson? fun c v => { c with vars := v },
    Json.field "props" Renaming.ofJson? fun c v => { c with props := v }] {}

def toJson (c : NameCache) : Json :=
  .obj [("vars", c.vars.toJson), ("props", c.props.toJson)]

end NameCache

end Laconic
