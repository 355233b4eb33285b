import ManifestShell.Error
import ManifestShell.Glob
import ManifestShell.Table

/-! File systems: what completion asks of them, and the two kinds there are.
One is given by a listing of its paths, the other is a directory of a disk. -/
namespace ManifestShell

inductive EntryKind where
  | file
  | directory
  deriving DecidableEq, Repr

/-- Paths are relative to the root of the file system, in the form in which they are typed. -/
structure FileSystem where
  /-- The entries that match a pattern, at most as many as the limit says. -/
  glob : Text → Nat → Except SourceError (List Text)
  kind : Text → Except SourceError EntryKind

/-! ### Listings
Declaring a path also declares the directories above it, unless they are declared already; declaring
it again replaces its kind. -/

structure Listing where
  entries : Table EntryKind

namespace Listing

def empty : Listing := ⟨Table.empty⟩

/-- The parts of a path before each of its separators, the shortest first and the empty one left
out. -/
def ancestors (path : Text) : List Text := go [] path
where
  /-- `before` is the part of the path that was passed already. -/
  go (before : Text) : Text → List Text
    | [] => []
    | c :: cs =>
      if c = '/' ∧ before ≠ [] then before :: go (before ++ [c]) cs else go (before ++ [c]) cs

def declareAncestors (l : Listing) (path : Text) : Listing :=
  ⟨(ancestors path).foldl (fun t p => t.insertIfNew p .directory) l.entries⟩

def addFile (l : Listing) (path : Text) : Listing :=
  ⟨(l.declareAncestors path).entries.insert path .file⟩

def dropTrailingSeparators (path : Text) : Text := (path.reverse.dropWhile (· == '/')).reverse

def addDirectory (l : Listing) (path : Text) : Listing :=
  let path := dropTrailingSeparators path
  ⟨(l.declareAncestors path).entries.insert path .directory⟩

inductive Declaration where
  | file (path : Text)
  | directory (path : Text)

def declare (l : Listing) : Declaration → Listing
  | .file path => l.addFile path
  | .directory path => l.addDirectory path

def ofDeclarations (ds : List Declaration) : Listing := ds.foldl declare empty

def glob (l : Listing) (pattern : Text) (limit : Nat) : Except SourceError (List Text) :=
  match Glob.parse pattern with
  | .error e => .error (.pattern e.message)
  | .ok tokens => .ok ((l.entries.keys.filter (Glob.matchesText tokens)).take limit)

def kind (l : Listing) (path : Text) : Except SourceError EntryKind :=
  match l.entries.find? (dropTrailingSeparators path) with
  | some k => .ok k
  | none => .error (.entry path "no such entry")

def fileSystem (l : Listing) : FileSystem := ⟨l.glob, l.kind⟩

end Listing

/-! ### Disks
A path is looked up component by component; everything before a separator has to be a directory.
There are no links, so an entry is determined by the names that lead to it from the top. -/

/-- What a file holds, as far as it can be read as text. -/
inductive Content where
  | text (t : Text)
  | binary
  deriving DecidableEq, Repr

/-- The entries of a directory are in ascending order of their names. -/
inductive DiskNode where
  | file (content : Content)
  | directory (entries : List (Text × DiskNode))

structure Disk where
  top : List (Text × DiskNode)
  /-- Names from the top to the working directory. -/
  workingDirectory : List Text

namespace DiskNode

def isDirectory : DiskNode → Bool
  | file _ => false
  | directory _ => true

def kind : DiskNode → EntryKind
  | file _ => .file
  | directory _ => .directory

def find? : List Text → DiskNode → Option DiskNode
  | [], n => some n
  | _ :: _, file _ => none
  | name :: names, directory es => (Entries.find? name es).bind (find? names)

/-- Replaces what the names lead to; directories on the way that are not there yet are made. -/
def put (new : DiskNode) : List Text → DiskNode → DiskNode
  | [], _ => new
  | name :: names, file _ => directory [(name, put new names (directory []))]
  | name :: names, directory es =>
    directory (Entries.insert name (put new names ((Entries.find? name es).getD (directory []))) es)

end DiskNode

namespace Disk

def node? (d : Disk) (names : List Text) : Option DiskNode :=
  DiskNode.find? names (.directory d.top)

def put (d : Disk) (names : List Text) (n : DiskNode) : Disk :=
  match DiskNode.put n names (.directory d.top) with
  | .directory es => { d with top := es }
  | .file _ => d

def isAbsolute (path : Text) : Bool := path.head? == some '/'

def base (d : Disk) (path : Text) : List Text := if isAbsolute path then [] else d.workingDirectory

/-- Goes from a directory to the place that one component names. -/
def enter (d : Disk) (place : List Text) (component : Text) : Except OsError (List Text) :=
  match d.node? place with
  | none => .error .noEntry
  | some (.file _) => .error .notDirectory
  | some (.directory es) =>
    if component = [] ∨ component = ['.'] then .ok place
    else if component = ['.', '.'] then .ok place.dropLast
    else if 255 < Text.byteSize component then .error .nameTooLong
    else if (Entries.find? component es).isSome then .ok (place ++ [component])
    else .error .noEntry

def locate (d : Disk) (path : Text) : Except OsError (List Text) :=
  if path.isEmpty then .error .noEntry
  else if path.contains (Char.ofNat 0) then .error .embeddedNul
  else if 4096 ≤ Text.byteSize path then .error .nameTooLong
  else (Text.splitOn '/' path).foldlM d.enter (d.base path)

def lookup (d : Disk) (path : Text) : Except OsError DiskNode := do
  let names ← d.locate path
  match d.node? names with
  | some n => .ok n
  | none => .error .noEntry

def kind (d : Disk) (path : Text) : Except OsError EntryKind := (d.lookup path).map DiskNode.kind

def exists? (d : Disk) (path : Text) : Bool := (d.lookup path).toOption.isSome

def isDirectory (d : Disk) (path : Text) : Bool :=
  match d.lookup path with
  | .ok n => n.isDirectory
  | .error _ => false

def names (d : Disk) (path : Text) : List Text :=
  match d.lookup path with
  | .ok (.directory es) => es.map Prod.fst
  | _ => []

def readText (d : Disk) (path : Text) : Except OsError Text := do
  match ← d.lookup path with
  | .directory _ => .error .isDirectory
  | .file .binary => .error .notUtf8
  | .file (.text t) => .ok t

/-- A path followed by another; an absolute one replaces what is before it. -/
def join (path next : Text) : Text :=
  if isAbsolute next then next
  else if path.isEmpty ∨ path.getLast? = some '/' then path ++ next
  else path ++ '/' :: next

/-- The components of a path without the empty ones and without single dots, except one at the
start. -/
def components (path : Text) : List Text :=
  let parts := Text.splitOn '/' path
  let keep := fun p : Text => p ≠ [] ∧ p ≠ ['.']
  match parts with
  | ['.'] :: rest => ['.'] :: rest.filter (fun p => decide (keep p))
  | _ => parts.filter fun p => decide (keep p)

def parent? (path : Text) : Option Text :=
  match components path with
  | [] => none
  | cs =>
    let up := ['/'].intercalate cs.dropLast
    some (if isAbsolute path then '/' :: up else up)

/-- Makes a directory and those above it that are missing.  What was made before an obstacle was met
stays. -/
def makeDirectories (d : Disk) (path : Text) : Disk × Except OsError Unit :=
  go d (d.base path) (components path)
where
  /-- Goes on from a place. -/
  go (d : Disk) (place : List Text) : List Text → Disk × Except OsError Unit
    | [] => (d, .ok ())
    | c :: cs =>
      match d.enter place c with
      | .ok next =>
        if (d.node? next).any DiskNode.isDirectory then go d next cs
        else (d, .error .alreadyThere)
      | .error .noEntry => go (d.put (place ++ [c]) (.directory [])) (place ++ [c]) cs
      | .error e => (d, .error e)

def openFile (d : Disk) (path : Text) : Except OsError (Disk × List Text) :=
  match d.locate path with
  | .ok names =>
    if (d.node? names).any DiskNode.isDirectory then .error .isDirectory else .ok (d, names)
  | .error .noEntry =>
    match components path with
    | [] => .error .noEntry
    | cs =>
      if path.getLast? = some '/' then .error .isDirectory
      else do
        let place ← cs.dropLast.foldlM d.enter (d.base path)
        let names := place ++ (cs.getLast?).toList
        .ok (d.put names (.file (.text [])), names)
  | .error e => .error e

end Disk

/-! ### Patterns on a disk
The pattern is cut at its separators and followed part by part.  Results are spelled as the pattern
spells them: a part without wildcards is taken as it is written, every other part is replaced by the
names it matches, in ascending order and a directory before what is in it. -/

namespace Disk

open Glob

/-- Whether a path is a spelling of the working directory by a single dot. -/
def isDot (path : Text) : Bool := components path == [['.']]

/-- The path of an entry of a directory; a single dot is left out. -/
def child (path name : Text) : Text := if isDot path then name else join path name

mutual

/-- All entries below a directory with their paths, each directory followed by its contents. -/
def descend (path : Text) : List (Text × DiskNode) → List (Text × Text)
  | [] => []
  | (name, n) :: es =>
    (child path name, name) :: descendNode (child path name) n ++ descend path es

def descendNode (path : Text) : DiskNode → List (Text × Text)
  | .file _ => []
  | .directory es => descend path es

end

def below (d : Disk) (path : Text) : List (Text × Text) :=
  match d.lookup path with
  | .ok n => descendNode path n
  | .error _ => []

/-- The directories `..` and `.` that a part matches; it has to begin with a dot of its own. -/
def dotEntries (part : List Token) (path : Text) : List Text :=
  if part.head? = some (.char '.') then
    ([['.', '.'], ['.']].filter (matchesText part)).map (join path)
  else []

def present (d : Disk) (path name : Text) : Bool :=
  if name = ['.'] ∨ name = ['.', '.'] then d.isDirectory path else d.exists? (child path name)

def walk (d : Disk) : List (List Token) → Text → List Text
  | [], path => [path]
  | part :: rest, path =>
    if part = [.anyComponents] then
      match rest with
      | [] => ((d.below path).map Prod.fst).filter d.isDirectory
      | next :: rest =>
        (d.below path).flatMap fun e => if matchesText next e.2 then walk d rest e.1 else []
    else match literal? part with
      | some name => if d.present path name then walk d rest (child path name) else []
      | none =>
        if d.isDirectory path then
          (dotEntries part path).flatMap (walk d rest) ++
            (d.names path).flatMap fun name =>
              if matchesText part name then walk d rest (child path name) else []
        else []

/-- Parts that stand for any number of components count once. -/
def collapse : List (List Token) → List (List Token)
  | [] => []
  | part :: rest =>
    match collapse rest with
    | next :: rest' =>
      if part = [.anyComponents] ∧ next = [.anyComponents] then next :: rest'
      else part :: next :: rest'
    | [] => [part]

/-- The texts between separators; a separator at the end has nothing after it. -/
def patternParts (pattern : Text) : List Text :=
  let parts := Text.splitOn '/' pattern
  if parts.getLast? = some [] then parts.dropLast else parts

/-- Expands a pattern.  It has to be valid as a whole, and then each of its parts has to be. -/
def expand (d : Disk) (pattern : Text) : Except PatternError (List Text) := do
  let _ ← Glob.parse pattern
  let relative := if isAbsolute pattern then pattern.drop 1 else pattern
  let parts := if relative.isEmpty then [[]] else patternParts relative
  let tokens ← parts.mapM Glob.parse
  let paths := d.walk (collapse tokens) (if isAbsolute pattern then ['/'] else ['.'])
  return if pattern.getLast? = some '/' then paths.filter d.isDirectory else paths

end Disk

structure DiskView where
  disk : Disk
  root : Text

namespace DiskView

def rootText (v : DiskView) : Text :=
  if v.root.getLast? = some '/' then v.root else v.root ++ ['/']

def glob (v : DiskView) (pattern : Text) (limit : Nat) : Except SourceError (List Text) :=
  let absolute := Disk.isAbsolute pattern
  let full := if absolute then pattern else Glob.escape v.rootText ++ pattern
  match v.disk.expand full with
  | .error e => .error (.pattern e.message)
  | .ok paths =>
    .ok ((paths.take limit).map fun p =>
      if absolute then p else (Text.dropStart? v.rootText p).getD p)

def kind (v : DiskView) (path : Text) : Except SourceError EntryKind :=
  match v.disk.kind (Disk.join v.root path) with
  | .ok k => .ok k
  | .error e => .error (.entry path e.message)

def fileSystem (v : DiskView) : FileSystem := ⟨v.glob, v.kind⟩

def ofWorkingDirectory (d : Disk) : DiskView :=
  ⟨d, '/' :: ['/'].intercalate d.workingDirectory⟩

end DiskView

end ManifestShell
