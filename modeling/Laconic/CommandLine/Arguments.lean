import Laconic.Options.Output

/-!
# Arguments

An argument is a switch, a setting with its value, or the path of an input.  A
switch or setting has a long name after two hyphens, and some have a letter after
one; letters may stand together.  The value of a setting is the next argument, or
follows in the same one.  After `--` all arguments are inputs.
-/

namespace Laconic.CommandLine

structure Invocation where
  inputs : List String := []
  output : Option String := none
  config : Option String := none
  noCompress : Bool := false
  noRename : Bool := false
  renameProperties : Bool := false
  toplevel : Bool := false
  module : Bool := false
  ie8 : Bool := false
  safari10 : Bool := false
  beautify : Bool := false
  comments : Option CommentFilter := none
  ecma : Option Nat := none
  preamble : Option String := none
  sourceMap : Option String := none
  includeSources : Bool := false
  inputMap : Option String := none
  nameCache : Option String := none
  warn : Bool := false
  verbose : Bool := false

inductive Request where
  | run (i : Invocation)
  | version
  | help
  /-- The arguments make no sense. -/
  | misuse

/-! ## Switches and settings -/

/-- A switch, which may be given once. -/
structure Switch where
  long : String
  short : Option Char := none
  isOn : Invocation → Bool
  turnOn : Invocation → Invocation

def switches : List Switch := [
  ⟨"no-compress", none, (·.noCompress), fun i => { i with noCompress := true }⟩,
  ⟨"no-mangle", none, (·.noRename), fun i => { i with noRename := true }⟩,
  ⟨"mangle-props", none, (·.renameProperties), fun i => { i with renameProperties := true }⟩,
  ⟨"toplevel", none, (·.toplevel), fun i => { i with toplevel := true }⟩,
  ⟨"module", none, (·.module), fun i => { i with module := true }⟩,
  ⟨"ie8", none, (·.ie8), fun i => { i with ie8 := true }⟩,
  ⟨"safari10", none, (·.safari10), fun i => { i with safari10 := true }⟩,
  ⟨"beautify", some 'b', (·.beautify), fun i => { i with beautify := true }⟩,
  ⟨"source-map-include-sources", none, (·.includeSources), fun i =>
    { i with includeSources := true }⟩,
  ⟨"warn", none, (·.warn), fun i => { i with warn := true }⟩,
  ⟨"verbose", some 'v', (·.verbose), fun i => { i with verbose := true }⟩]

/-- Turns a switch on, unless it is on. -/
def Switch.set? (s : Switch) (i : Invocation) : Option Invocation :=
  if s.isOn i then none else some (s.turnOn i)

/-- A setting, which may be given once. -/
structure Setting where
  long : String
  short : Option Char := none
  isGiven : Invocation → Bool
  give : Invocation → String → Option Invocation

def path? (text : String) : Option String := if text.isEmpty then none else some text

/-- A whole number with or without a sign. -/
def integer? (text : String) : Option Int :=
  let (sign, digits) : Int × List Char := match text.toList with
    | '-' :: rest => (-1, rest)
    | '+' :: rest => (1, rest)
    | cs => (1, cs)
  if digits.isEmpty || !digits.all Char.isDigit then none
  else some (sign * digits.foldl (fun n c => 10 * n + (c.toNat - '0'.toNat : Nat)) 0)

/-- The year or number of an edition of the language. -/
def edition? (text : String) : Option Nat :=
  (integer? text).bind fun z => if 0 ≤ z && z < (twoPow 32 : Nat) then some z.toNat else none

def settings : List Setting := [
  ⟨"output", some 'o', (·.output.isSome), fun i v =>
    (path? v).map fun v => { i with output := some v }⟩,
  ⟨"config", none, (·.config.isSome), fun i v =>
    (path? v).map fun v => { i with config := some v }⟩,
  ⟨"comments", none, (·.comments.isSome), fun i v =>
    (CommentFilter.ofJson? (.str v)).map fun v => { i with comments := some v }⟩,
  ⟨"ecma", none, (·.ecma.isSome), fun i v =>
    (edition? v).map fun v => { i with ecma := some v }⟩,
  ⟨"preamble", none, (·.preamble.isSome), fun i v => some { i with preamble := some v }⟩,
  ⟨"source-map", none, (·.sourceMap.isSome), fun i v =>
    (path? v).map fun v => { i with sourceMap := some v }⟩,
  ⟨"in-source-map", none, (·.inputMap.isSome), fun i v =>
    (path? v).map fun v => { i with inputMap := some v }⟩,
  ⟨"name-cache", none, (·.nameCache.isSome), fun i v =>
    (path? v).map fun v => { i with nameCache := some v }⟩]

def Setting.set? (s : Setting) (i : Invocation) (value : String) : Option Invocation :=
  if s.isGiven i then none else s.give i value

/-! ## Reading -/

/-- What one argument comes to. -/
inductive Step where
  | go (i : Invocation)
  /-- The next argument is the value of a setting. -/
  | value (i : Invocation) (s : Setting)
  | stop (r : Request)

/-- Goes on, or stops because the arguments make no sense. -/
def Step.ofOption : Option Invocation → Step
  | some i => .go i
  | none => .stop .misuse

/-- Splits an argument at the first `=`. -/
def splitValue (text : String) : String × Option String :=
  let name := text.toList.takeWhile (· != '=')
  match text.toList.dropWhile (· != '=') with
  | [] => (text, none)
  | _ :: value => (String.ofList name, some (String.ofList value))

/-- Reads an argument with a long name. -/
def longStep (i : Invocation) (text : String) : Step :=
  let (name, value) := splitValue text
  match switches.find? (·.long == name), settings.find? (·.long == name), value with
  | some s, _, none => .ofOption (s.set? i)
  | none, some s, some v => .ofOption (s.set? i v)
  | none, some s, none => .value i s
  | none, none, none =>
    if name == "version" then .stop .version
    else if name == "help" then .stop .help else .stop .misuse
  | _, _, _ => .stop .misuse

/-- Reads letters that stand together. -/
def letterSteps (i : Invocation) : List Char → Step
  | [] => .go i
  | c :: rest =>
    match switches.find? (·.short == some c), settings.find? (·.short == some c) with
    | some s, _ =>
      match s.set? i with
      | some i => letterSteps i rest
      | none => .stop .misuse
    | none, some s =>
      match rest with
      | [] => .value i s
      | '=' :: value => .ofOption (s.set? i (String.ofList value))
      | value => .ofOption (s.set? i (String.ofList value))
    | none, none =>
      if c == 'V' then .stop .version else if c == 'h' then .stop .help else .stop .misuse

def addInputs (i : Invocation) : List String → Request
  | [] => .run i
  | text :: rest =>
    match path? text with
    | some p => addInputs { i with inputs := i.inputs ++ [p] } rest
    | none => .misuse

/-- Whether an argument is neither a value nor an input. -/
def isOption (text : String) : Bool := text.startsWith "-" && text != "-"

/-- Reads one argument other than `--`. -/
def step (i : Invocation) (text : String) : Step :=
  match text.toList with
  | '-' :: '-' :: rest => longStep i (String.ofList rest)
  | '-' :: c :: rest => letterSteps i (c :: rest)
  | _ => .ofOption ((path? text).map fun p => { i with inputs := i.inputs ++ [p] })

def readArguments (i : Invocation) : List String → Request
  | [] => .run i
  | text :: rest =>
    if text == "--" then addInputs i rest
    else
      match step i text with
      | .stop r => r
      | .go i => readArguments i rest
      | .value i s =>
        match rest with
        | [] => .misuse
        | value :: rest =>
          if isOption value then .misuse
          else
            match s.set? i value with
            | some i => readArguments i rest
            | none => .misuse

end Laconic.CommandLine
