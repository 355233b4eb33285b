import ManifestShell.Completion.Context
import ManifestShell.Json.Printer
import ManifestShell.Query
import ManifestShell.Settings.Basic
import ManifestShell.Text.Basic

/-! The completion engine: it asks its sources in order and ranks what they offer.
A source that fails is reported and contributes nothing.  A source that breaks down leaves nothing
to report, and then there are no candidates at all. -/
namespace ManifestShell

/-! ### Sources -/

structure Source where
  name : Text
  offer : Text → Context → Reply (List Text)

namespace Source

def grammar : Source := ⟨"grammar", fun line _ => .answer (Query.vocabulary line)⟩

def variableForms (c : Context) : List Text := c.bindings.keys.map ('$' :: ·)

def functionForms (c : Context) : List Text := c.functions.keys.map fun n => '$' :: n ++ ['(']

def bindings : Source := ⟨"bindings", fun _ c => .answer (variableForms c ++ functionForms c)⟩

def tagForms (tag : Text) : List Text :=
  ["[name=\"".toList ++ tag ++ "\"]".toList, "**[name=\"".toList ++ tag ++ "\"]".toList]

def documentForms : Option Document → Reply (List Text)
  | none => .answer []
  | some d =>
    match d.children with
    | .answer nodes => .answer ((Document.distinctNames nodes).flatMap tagForms)
    | .failure e => .failure e
    | .breakdown => .breakdown

def document : Source := ⟨"document", fun _ c => documentForms c.document⟩

/-- The pattern of everything below what begins with a path. -/
def deepPattern (typed : Text) : Text :=
  if typed.getLast? = some '/' then typed ++ ['*', '*'] else typed ++ "*/**".toList

/-- The entries that begin with a path, or those below such entries if there are none. -/
def pathEntries (files : FileSystem) (limit : Nat) (typed : Text) :
    Except SourceError (List Text) :=
  match files.glob (typed ++ ['*']) limit with
  | .error e => .error e
  | .ok [] => files.glob (deepPattern typed) limit
  | .ok hits => .ok hits

/-- The line with an entry in place of the typed path; one that cannot be looked at is left out. -/
def pathForm (files : FileSystem) (before after entry : Text) : Option Text :=
  match files.kind entry with
  | .ok .directory => some (before ++ entry ++ '/' :: after)
  | .ok .file => some (before ++ entry ++ after)
  | .error _ => none

def pathForms (files : FileSystem) (limit : Nat) (line : Text) : Except SourceError (List Text) :=
  match Query.importSpan? line with
  | none => .ok []
  | some (before, typed, after) =>
    (pathEntries files limit typed).map fun es => es.filterMap (pathForm files before after)

def path (limit : Nat) : Source :=
  ⟨"path", fun line c =>
    match pathForms c.files limit line with
    | .ok forms => .answer forms
    | .error e => .failure e⟩

def contextual : Source := ⟨"contextual", fun line _ => .answer (Query.continuations line)⟩

end Source

/-! ### Ranking -/

/-- A candidate fits the active segment if it begins with it, either right away or after a colon. -/
def fits (active candidate : Text) : Bool :=
  Text.startsWith active candidate || Text.startsWith (':' :: active) candidate

/-- The candidates that fit, or all of them if none fits and that is wanted, in ascending order and
each once. -/
def rank (active : Text) (fallbackToAll : Bool) (candidates : List Text) : List Text :=
  let fitting := candidates.filter (fits active)
  if !fitting.isEmpty then Text.ascending fitting
  else if fallbackToAll then Text.ascending candidates
  else []

/-! ### Engines -/

structure Report where
  source : Text
  result : Except SourceError (List Text)

def Report.candidates (r : Report) : List Text :=
  match r.result with
  | .ok cs => cs
  | .error _ => []

structure Engine where
  sources : List Source
  fallbackToAll : Bool

namespace Engine

/-- The sources that the settings ask for, in order of priority. -/
def ofSettings (s : CompletionSettings) : Engine where
  sources :=
    [Source.grammar, Source.bindings] ++
    (if s.documentCompletion then [Source.document] else []) ++
    (if s.pathCompletion then [Source.path s.maxPathMatches] else []) ++
    [Source.contextual]
  fallbackToAll := s.fallbackToAll

def push (e : Engine) (s : Source) : Engine := { e with sources := e.sources ++ [s] }

def sourceNames (e : Engine) : List Text := e.sources.map Source.name

/-- One report for each source, unless one of them breaks down. -/
def collect (e : Engine) (line : Text) (c : Context) : Option (List Report) :=
  e.sources.mapM fun s =>
    match s.offer line c with
    | .answer cs => some ⟨s.name, .ok cs⟩
    | .failure err => some ⟨s.name, .error err⟩
    | .breakdown => none

def candidates (e : Engine) (line : Text) (c : Context) : List Text :=
  match e.collect line c with
  | some reports =>
    rank (Query.active line) e.fallbackToAll (reports.flatMap Report.candidates)
  | none => []

def complete (e : Engine) (line : Text) (c : Context) : List Text × Text :=
  (e.candidates line c, line)

def describe (e : Engine) : Text :=
  "CompletionEngine \x7b sources: [".toList ++
    ", ".toList.intercalate (e.sourceNames.map Json.quote) ++
    "], fallback_to_all: ".toList ++ boolText e.fallbackToAll ++ " \x7d".toList

end Engine

end ManifestShell
