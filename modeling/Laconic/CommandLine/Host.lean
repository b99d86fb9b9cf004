/-!
# Files

What a command needs of the machine it runs on, and a directory of files that
provides it without a machine.
-/

namespace Laconic.CommandLine

/-- Why a file cannot be read or written. -/
inductive FileFault where
  | notFound
  | notDirectory
  | isDirectory
  | other (text : String)
deriving DecidableEq, Repr

def FileFault.message : FileFault → String
  | .notFound => "No such file or directory (os error 2)"
  | .notDirectory => "Not a directory (os error 20)"
  | .isDirectory => "Is a directory (os error 21)"
  | .other text => text

/-- What a command needs of the machine it runs on. -/
structure Host (m : Type → Type) where
  read : String → m (Except FileFault String)
  /-- Whether there is a file or directory with a path. -/
  has : String → m Bool
  write : String → String → m (Except FileFault Unit)
  /-- All of the standard input. -/
  input : m (Except FileFault String)

/-! ## A directory -/

/-- Files with their paths, and the standard input. -/
structure Directory where
  files : List (List String × String) := []
  input : String := ""

/-- What a path leads to. -/
inductive Found where
  | file (path : List String) (text : String)
  | directory
  /-- Nothing, but a file can be written there. -/
  | free (path : List String)
  /-- Nothing; the path can only be that of a directory. -/
  | freeDirectory
  | fault (f : FileFault)

namespace Directory

def text? (d : Directory) (path : List String) : Option String := d.files.lookup path

def hasDirectory (d : Directory) (path : List String) : Bool :=
  path.isEmpty || d.files.any fun f => path.isPrefixOf f.1 && path != f.1

def follow (d : Directory) (here : List String) : List String → Found
  | [] => .directory
  | name :: rest =>
    if name.isEmpty || name == "." then d.follow here rest
    else if name == ".." then
      if here.isEmpty then .fault .notFound else d.follow here.dropLast rest
    else if d.hasDirectory (here ++ [name]) then d.follow (here ++ [name]) rest
    else
      match d.text? (here ++ [name]), rest with
      | some text, [] => .file (here ++ [name]) text
      | some _, _ => .fault .notDirectory
      | none, [] => .free (here ++ [name])
      | none, rest => if rest.all String.isEmpty then .freeDirectory else .fault .notFound

def find (d : Directory) (path : String) : Found :=
  if path.isEmpty || path.startsWith "/" then .fault .notFound
  else d.follow [] (path.splitOn "/")

def put (d : Directory) (path : List String) (text : String) : Directory :=
  { d with files := d.files.filter (·.1 != path) ++ [(path, text)] }

def read (d : Directory) (path : String) : Except FileFault String :=
  match d.find path with
  | .file _ text => .ok text
  | .directory => .error .isDirectory
  | .free _ | .freeDirectory => .error .notFound
  | .fault f => .error f

def has (d : Directory) (path : String) : Bool :=
  match d.find path with
  | .file .. | .directory => true
  | _ => false

def write (d : Directory) (path text : String) : Except FileFault Directory :=
  match d.find path with
  | .file p _ | .free p => .ok (d.put p text)
  | .directory | .freeDirectory => .error .isDirectory
  | .fault f => .error f

/-- A directory as the machine that a command runs on. -/
def host : Host (StateM Directory) where
  read path := return (← get).read path
  has path := return (← get).has path
  write path text := do
    match (← get).write path text with
    | .ok d => set d; return .ok ()
    | .error f => return .error f
  input := return .ok (← get).input

end Directory

end Laconic.CommandLine
