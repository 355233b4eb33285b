import ManifestShell.Text.Basic

/-! What can be asked for on the command line, and how its levels are read: the program itself, or
one of its subcommands.
An option that takes a value waits for the next argument unless the value is attached.  What was
given for it is checked only when the next thing is read, so an argument that nobody knows is
reported first. -/
namespace ManifestShell

inductive Subcommand where
  /-- List the completions of one line. -/
  | complete (line : Text) (format : Option Text)
  | version
  /-- Print what a shell needs in order to complete query lines. -/
  | completion (shell : Text)
  | config (showSettings validate : Bool)
  deriving DecidableEq, Repr

structure Arguments where
  config : Option Text := none
  noColor : Bool := false
  quiet : Bool := false
  verbose : Bool := false
  veryVerbose : Bool := false
  root : Option Text := none
  bindings : List Text := []
  functions : List Text := []
  document : Option Text := none
  children : List Text := []
  command : Option Subcommand := none
  deriving DecidableEq, Repr

/-- Why a command line is not carried out.  Asking for help or for the version is among the
reasons. -/
inductive UsageError where
  | repeatedOption
  | unknownArgument
  | unknownCommand
  | missingArgument
  | missingValue
  | needlessValue
  | helpWanted
  | versionWanted
  deriving DecidableEq, Repr

def UsageError.message : UsageError → Text
  | repeatedOption => "an option that counts once is given twice"
  | unknownArgument => "an argument is not known"
  | unknownCommand => "a subcommand is not known"
  | missingArgument => "an argument is missing"
  | missingValue => "an option lacks its value"
  | needlessValue => "an option takes no value"
  | helpWanted => "help is wanted"
  | versionWanted => "the version is wanted"

/-! ### Levels -/

inductive Switch where
  | noColor
  | quiet
  | verbose
  | veryVerbose
  | showSettings
  | validate
  deriving DecidableEq, Repr

inductive Parameter where
  | config
  | root
  | bind
  | function
  | document
  | child
  | format
  deriving DecidableEq, Repr

namespace Parameter

def repeatable : Parameter → Bool
  | bind | function | child => true
  | _ => false

/-- Whether the value is a path, which is never empty. -/
def isPath : Parameter → Bool
  | config | root => true
  | _ => false

end Parameter

inductive OptionKind where
  | switch (s : Switch)
  | parameter (p : Parameter)
  | help
  | version
  deriving DecidableEq, Repr

/-- What may be written on one level of the command line. -/
structure Level where
  longs : List (Text × OptionKind)
  shorts : List (Char × OptionKind)
  commands : List Text := []
  /-- How many arguments there are besides the options. -/
  wordCount : Nat := 0
  /-- Whether a word may look like an option that the level does not know. -/
  dashedWords : Bool := false

structure Given where
  switches : List Switch := []
  values : List (Parameter × Text) := []
  words : List Text := []
  /-- The last option with a value, as long as the value is missing or not yet checked. -/
  pending : Option (Parameter × Option Text) := none

namespace Given

def waiting? (g : Given) : Option Parameter :=
  match g.pending with
  | some (p, none) => some p
  | _ => none

def addValue (g : Given) (p : Parameter) (v : Text) : Except UsageError Given :=
  if !p.repeatable && g.values.any fun e => e.1 = p then .error .repeatedOption
  else if p.isPath && v.isEmpty then .error .missingValue
  else .ok { g with values := g.values ++ [(p, v)] }

/-- Checks the last option, if it has not been checked. -/
def settle (g : Given) : Except UsageError Given :=
  match g.pending with
  | none => .ok g
  | some (_, none) => .error .missingValue
  | some (p, some v) => { g with pending := none }.addValue p v

def addSwitch (g : Given) (s : Switch) : Except UsageError Given := do
  let g ← g.settle
  if s ∈ g.switches then .error .repeatedOption
  else return { g with switches := g.switches ++ [s] }

/-- Takes over an option together with its value, if that is attached. -/
def addParameter (g : Given) (p : Parameter) (attached : Option Text) :
    Except UsageError Given := do
  let g ← g.settle
  match attached with
  | some v => g.addValue p v
  | none => return { g with pending := some (p, none) }

def addWord (g : Given) (w : Text) : Except UsageError Given := do
  let g ← g.settle
  return { g with words := g.words ++ [w] }

/-- Help and version end the reading. -/
def stop (g : Given) (e : UsageError) : Except UsageError Given := do
  let _ ← g.settle
  .error e

def value? (g : Given) (p : Parameter) : Option Text := g.values.lookup p

def valuesOf (g : Given) (p : Parameter) : List Text :=
  g.values.filterMap fun e => if e.1 = p then some e.2 else none

def has (g : Given) (s : Switch) : Bool := s ∈ g.switches

end Given

namespace Level

/-- Whether the next word may look like an option. -/
def takesDashed (l : Level) (g : Given) : Bool := l.dashedWords && g.words.length < l.wordCount

/-- Reads what follows two dashes.  There is no result if it is to be read as a value or a word. -/
def readLong (l : Level) (g : Given) (t : Text) : Except UsageError (Option Given) :=
  let name := t.takeWhile (· ≠ '=')
  let attached : Option Text := match t.dropWhile (· ≠ '=') with
    | [] => none
    | _ :: v => some v
  match l.longs.lookup name, attached with
  | some (.parameter p), _ => (g.addParameter p attached).map some
  | some _, some _ => .error .needlessValue
  | some (.switch s), none => (g.addSwitch s).map some
  | some .help, none => (g.stop .helpWanted).map some
  | some .version, none => (g.stop .versionWanted).map some
  | none, _ => if l.takesDashed g then .ok none else .error .unknownArgument

/-- The value attached to a short option, with or without an equals sign. -/
def attachedToShort : Text → Option Text
  | [] => none
  | '=' :: v => some v
  | v => some v

/-- Reads short options that stand together; one with a value is the last of them. -/
def readShorts (l : Level) (g : Given) : Text → Except UsageError Given
  | [] => .ok g
  | c :: cs =>
    match l.shorts.lookup c with
    | some (.parameter p) => g.addParameter p (attachedToShort cs)
    | some (.switch s) => do l.readShorts (← g.addSwitch s) cs
    | some .help => g.stop .helpWanted
    | some .version => g.stop .versionWanted
    | none => .error .unknownArgument

def readShort (l : Level) (g : Given) (t : Text) : Except UsageError (Option Given) :=
  if l.takesDashed g && t.any fun c => (l.shorts.lookup c).isNone then .ok none
  else (l.readShorts g t).map some

/-- Reads an argument as an option. There is no result if it is none. -/
def readOption (l : Level) (g : Given) : Text → Except UsageError (Option Given)
  | '-' :: '-' :: t => l.readLong g t
  | '-' :: c :: t => l.readShort g (c :: t)
  | _ => .ok none

/-- Why a word is one too many.  On a level with subcommands it was meant as one of them. -/
def strayWord (l : Level) (afterDashes : Bool) (w : Text) : UsageError :=
  if l.commands.isEmpty || (afterDashes && l.commands.contains w) then .unknownArgument
  else .unknownCommand

def readWord (l : Level) (afterDashes : Bool) (g : Given) (w : Text) : Except UsageError Given :=
  if g.words.length < l.wordCount then g.addWord w else .error (l.strayWord afterDashes w)

/-- Reads arguments up to a subcommand, which is given with the arguments after it.  After two
dashes alone every argument is a word. -/
def read (l : Level) (afterDashes : Bool) (g : Given) :
    List Text → Except UsageError (Given × Option (Text × List Text))
  | [] => .ok (g, none)
  | a :: as =>
    if afterDashes then do l.read true (← l.readWord true g a) as
    else if g.waiting?.isNone && l.commands.contains a then .ok (g, some (a, as))
    else if a = ['-', '-'] then l.read true g as
    else do
      match ← l.readOption g a with
      | some g => l.read false g as
      | none =>
        match g.waiting? with
        | some p => l.read false { g with pending := some (p, some a) } as
        | none => l.read false (← l.readWord false g a) as

def readAll (l : Level) (args : List Text) : Except UsageError Given := do
  let (g, _) ← l.read false {} args
  let g ← g.settle
  if g.words.length < l.wordCount then .error .missingArgument else return g

end Level

end ManifestShell
