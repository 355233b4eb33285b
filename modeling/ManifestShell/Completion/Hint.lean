import ManifestShell.Completion.Engine
import ManifestShell.Shell.History
import ManifestShell.Text.Basic

/-! What is offered to someone who types: suggestions, which are candidates turned into whole lines,
and hints, which are the rest of a line and shown behind the cursor. -/
namespace ManifestShell

/-! ### Suggestions -/

/-- The line that a candidate stands for.  A candidate that carries the line is taken as it is; any
other replaces the active segment. -/
def replacement (line candidate : Text) : Text :=
  if !line.isEmpty && Text.startsWith line candidate then candidate
  else match Text.splitLast? ':' line with
    | some (before, _) => before ++ ':' :: (Text.dropStart? [':'] candidate).getD candidate
    | none => candidate

/-- The members of a list, each once and in order of first appearance. -/
def distinct (ts : List Text) : List Text :=
  ts.foldl (fun seen t => if seen.contains t then seen else seen ++ [t]) []

/-- A text to put in place of the first bytes of the line. -/
structure Suggestion where
  value : Text
  /-- Start and end of the replaced part, in bytes. -/
  span : Nat × Nat
  appendSpace : Bool
  deriving DecidableEq, Repr

/-- The part of a line before the cursor; a cursor that is not between two characters counts as
standing at the end. -/
def typedPart (line : Text) (pos : Nat) : Text :=
  match Text.cutAtByte? pos line with
  | some (before, _) => before
  | none => line

def suggestions (e : Engine) (c : Context) (line : Text) (pos : Nat) : List Suggestion :=
  let typed := typedPart line pos
  (distinct ((e.candidates typed c).map (replacement typed))).map fun value =>
    ⟨value, (0, Text.byteSize typed), false⟩

/-! ### Hints
A line of the history is preferred; otherwise there is a hint if only one completion extends the
line. -/

namespace Hint

def fromHistory? (h : History) (line : Text) : Option Text :=
  match (h.newest? line).bind (Text.dropStart? line) with
  | some (c :: cs) => some (c :: cs)
  | _ => none

/-- The rest of the only completion that is longer than the line and begins with it. -/
def fromCompletion? (e : Engine) (c : Context) (line : Text) : Option Text :=
  let rests := (e.candidates line c).filterMap fun cand =>
    match Text.dropStart? line (replacement line cand) with
    | some (d :: ds) => some (d :: ds)
    | _ => none
  match rests with
  | [] => none
  | only :: others => if others.all (· = only) then some only else none

def find (e : Engine) (c : Context) (h : History) (line : Text) (pos : Nat) : Text :=
  if pos ≠ Text.byteSize line ∨ Text.blank line then []
  else ((fromHistory? h line).or (fromCompletion? e c line)).getD []

/-- The hint up to its first colon or blank, which is included. -/
def firstToken : Text → Text
  | [] => []
  | c :: cs => if c = ':' ∨ isBlank c then [c] else c :: firstToken cs

/-- The hint as the terminal shows it: in italic dark gray, if in color at all. -/
def paint (color : Bool) (hint : Text) : Text :=
  if color && !hint.isEmpty then "\x1b[3;90m".toList ++ hint ++ "\x1b[0m".toList else hint

end Hint

/-- Shows the hints of an engine, and keeps the last one until it is accepted. -/
structure Hinter where
  engine : Engine
  /-- The kept hint; empty if there was none. -/
  current : Text

namespace Hinter

def new (e : Engine) : Hinter := ⟨e, []⟩

/-- What to show behind a line.  The hint that was kept is forgotten, also if there is no new one. -/
def handle (k : Hinter) (c : Context) (h : History) (line : Text) (pos : Nat) (color : Bool) :
    Hinter × Text :=
  let cleared := { k with current := [] }
  let hint := Hint.find k.engine c h line pos
  if hint.isEmpty then (cleared, [])
  else ({ cleared with current := hint }, Hint.paint color hint)

def nextToken (k : Hinter) : Text := Hint.firstToken k.current

def fullHint (k : Hinter) : Text := k.current

end Hinter

end ManifestShell
