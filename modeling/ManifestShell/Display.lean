import ManifestShell.Completion.Engine
import ManifestShell.Text.Basic

/-! What the shell prints: candidates, reports of sources and listings of variables, as plain lines
or as JSON.  JSON is never painted. -/
namespace ManifestShell

/-! ### Styles -/

/-- Escape, a bracket, the code of the style and the letter `m`. -/
def styleSequence (code : Text) : Text := "\x1b[".toList ++ code ++ ['m']

def paint (code : Text) (t : Text) : Text := styleSequence code ++ t ++ styleSequence "0"

/-- Paints texts by what they are, or leaves them alone. -/
structure Painter where
  enabled : Bool
  deriving DecidableEq, Repr

namespace Painter

def apply (p : Painter) (code : Text) (t : Text) : Text := if p.enabled then paint code t else t

/-- Variables are cyan, selectors with a colon yellow, predicates green, and the rest is plain. -/
def candidate (p : Painter) (t : Text) : Text :=
  if Text.startsWith "$" t then p.apply "36" t
  else if Text.startsWith ":" t then p.apply "33" t
  else if Text.startsWith "[" t || Text.startsWith "**" t then p.apply "32" t
  else t

def heading (p : Painter) (t : Text) : Text := p.apply "1" t

def dim (p : Painter) (t : Text) : Text := p.apply "2" t

def error (p : Painter) (t : Text) : Text := p.apply "31" t

end Painter

/-! ### Output -/

structure Printer where
  format : OutputFormat
  color : Bool
  deriving DecidableEq, Repr

namespace Printer

def ofSettings (s : DisplaySettings) : Printer := ⟨s.format, s.colorOutput⟩

def painter (p : Printer) : Painter := ⟨p.color && p.format == .plain⟩

def texts (ts : List Text) : Json := .arr (ts.map .str)

def candidatesJson (line : Text) (candidates : List Text) : Json :=
  .obj [("candidates", texts candidates), ("input", .str line)]

def candidates (p : Printer) (line : Text) (cs : List Text) : Text :=
  match p.format with
  | .json => (candidatesJson line cs).pretty
  | .plain =>
    if cs.isEmpty then p.painter.dim "(no candidates)"
    else Text.joinLines (cs.map p.painter.candidate)

def reportJson (r : Report) : Json :=
  match r.result with
  | .ok cs => .obj [("candidates", texts cs), ("source", .str r.source)]
  | .error e => .obj [("error", .str e.message), ("source", .str r.source)]

def reportsJson (line : Text) (rs : List Report) : Json :=
  .obj [("input", .str line), ("sources", .arr (rs.map reportJson))]

def reportHead (p : Printer) (r : Report) : Text :=
  p.painter.heading r.source ++ ' ' :: match r.result with
    | .ok cs => p.painter.dim ('(' :: Text.ofNat cs.length ++ [')'])
    | .error e => p.painter.error ("failed: ".toList ++ e.message)

def reportText (p : Printer) (r : Report) : Text :=
  p.reportHead r ++ r.candidates.flatMap fun c => "\n  ".toList ++ p.painter.candidate c

def reports (p : Printer) (line : Text) (rs : List Report) : Text :=
  match p.format with
  | .json => (reportsJson line rs).pretty
  | .plain => Text.joinLines (rs.map p.reportText)

def bindingText (p : Printer) (b : Text × Json) : Text :=
  p.painter.candidate ('$' :: b.1) ++ " = ".toList ++ b.2.compact

def bindings (p : Printer) (bs : List (Text × Json)) : Text :=
  match p.format with
  | .json => (Json.ofMembers bs).pretty
  | .plain =>
    if bs.isEmpty then p.painter.dim "(no bindings)"
    else Text.joinLines (bs.map p.bindingText)

end Printer

end ManifestShell
