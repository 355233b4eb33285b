import ManifestShell.Files
import ManifestShell.Settings.Basic

/-! The history of entered lines, the newest last, and the file that may hold it. -/
namespace ManifestShell

structure History where
  capacity : Nat
  entries : List Text
  deriving DecidableEq, Repr

namespace History

/-- The largest number of a machine word is no capacity. -/
def new (capacity : Nat) : Except ShellError History :=
  if capacity = Settings.maxSizeValue then
    .error (.other
      "Cannot create history: error within history: History capacity too large to be addressed safely")
  else .ok ⟨capacity, []⟩

/-- Adds a line, unless it is empty or equal to the newest one.  A full history loses its oldest
line. -/
def remember (h : History) (line : Text) : History :=
  if line.isEmpty ∨ h.entries.getLast? = some line ∨ h.capacity = 0 then h
  else
    let kept := if h.entries.length = h.capacity then h.entries.drop 1 else h.entries
    { h with entries := kept ++ [line] }

def newest? (h : History) (start : Text) : Option Text :=
  h.entries.reverse.find? (Text.startsWith start)

def dropReturn (l : Text) : Text := if l.getLast? = some '\r' then l.dropLast else l

def fileLines (t : Text) : List Text :=
  let pieces := Text.splitOn '\n' t
  let last := pieces.getLastD []
  pieces.dropLast.map dropReturn ++ if last.isEmpty then [] else [last]

def lineBreakMark : Text := "<\\n>"

def decodeLine : Text → Text
  | [] => []
  | '<' :: '\\' :: 'n' :: '>' :: cs => '\n' :: decodeLine cs
  | c :: cs => c :: decodeLine cs

def encodeLine (t : Text) : Text := t.flatMap fun c => if c = '\n' then lineBreakMark else [c]

def fileText (entries : List Text) : Text := entries.flatMap fun l => encodeLine l ++ ['\n']

/-- Reads the history in a file, which is made if it is missing and cut to the newest entries if it
has too many. -/
def openFile (d : Disk) (capacity : Nat) (path : Text) : Disk × Except OsError History :=
  let (d, made) := match Disk.parent? path with
    | some parent => d.makeDirectories parent
    | none => (d, .ok ())
  match made with
  | .error e => (d, .error e)
  | .ok () =>
    match d.openFile path with
    | .error e => (d, .error e)
    | .ok (d, names) =>
      match d.node? names with
      | some (.file (.text t)) =>
        let entries := (fileLines t).map decodeLine
        if capacity < entries.length then
          let kept := entries.drop (entries.length - capacity)
          (d.put names (.file (.text (fileText kept))), .ok ⟨capacity, kept⟩)
        else (d, .ok ⟨capacity, entries⟩)
      | _ => (d, .error .notUtf8)

/-- The history that the settings ask for.  If its file cannot be used, it is held in memory. -/
def ofSettings (d : Disk) (s : HistorySettings) : Disk × Except ShellError History :=
  if s.persist then
    match new s.maxSize with
    | .error e =>
      match Disk.parent? s.filePath with
      | some parent => ((d.makeDirectories parent).1, .error e)
      | none => (d, .error e)
    | .ok fresh =>
      match openFile d s.maxSize s.filePath with
      | (d, .ok h) => (d, .ok h)
      | (d, .error _) => (d, .ok fresh)
  else (d, new s.maxSize)

end History
end ManifestShell
