import ManifestShell.Error
import ManifestShell.Files
import ManifestShell.Json.Parser
import ManifestShell.Json.Printer

/-! What completion may look at besides the line: variables, functions, the loaded document and the
file system. -/
namespace ManifestShell

/-! ### Documents -/

/-- How a question to something outside the shell ends: with an answer, with an error, or with a
breakdown that leaves nothing to report. -/
inductive Reply (α : Type) where
  | answer (a : α)
  | failure (e : SourceError)
  | breakdown

/-- An element has a name or is anonymous.  Of the other two kinds of node the children cannot be
had: asking for them is an error, or does not end well. -/
inductive Document where
  | element (name : Option Text) (children : List Document)
  | unreadable (name : Option Text) (reason : Text)
  | broken

namespace Document

instance : Inhabited Document := ⟨broken⟩

def name : Document → Option Text
  | element name _ => name
  | unreadable name _ => name
  | broken => none

def children : Document → Reply (List Document)
  | element _ children => .answer children
  | unreadable _ reason => .failure (.document reason)
  | broken => .breakdown

def ofTags (root : Text) (tags : List Text) : Document :=
  element (some root) (tags.map fun t => element (some t) [])

/-- The names among the given nodes, each once and in order of first appearance. -/
def distinctNames (nodes : List Document) : List Text :=
  nodes.foldl (fun seen n =>
    match n.name with
    | some t => if t ∈ seen then seen else seen ++ [t]
    | none => seen) []

end Document

/-! ### Functions and contexts -/

structure QueryFunction where
  name : Text
  signature : Option Text
  deriving DecidableEq, Repr

abbrev Bindings := Table Json

abbrev Functions := Table QueryFunction

namespace Functions

def register (fs : Functions) (f : QueryFunction) : Functions := fs.insert f.name f

/-- A later function replaces an earlier one of the same name. -/
def ofList (fs : List QueryFunction) : Functions := fs.foldl register Table.empty

end Functions

structure Context where
  bindings : Bindings
  functions : Functions
  document : Option Document
  files : FileSystem

def boolText (b : Bool) : Text := if b then "true" else "false"

def Context.describe (c : Context) : Text :=
  "CompletionContext \x7b bindings: ".toList ++ Text.ofNat c.bindings.size ++
    ", functions: ".toList ++ Text.ofNat c.functions.size ++
    ", document: ".toList ++ boolText c.document.isSome ++ ", .. \x7d".toList

/-! ### Functions described in JSON -/

namespace QueryFunction

/-- Reads the value of a member; one that is not known is passed over. -/
def recordMember (name : Text) : Json.Reader (Option Json) := fun t =>
  if name = "name".toList ∨ name = "signature".toList then
    (Json.value Json.maxDepth t).map fun p => (some p.1, p.2)
  else (Json.skip t).map fun p => (none, p.2)

def signatureOf? : Option Json → Option (Option Text)
  | none => some none
  | some .null => some none
  | some (.str t) => some (some t)
  | some _ => none

def ofParts? (name signature : Option Json) : Option QueryFunction :=
  match name, signatureOf? signature with
  | some (.str n), some s => some ⟨n, s⟩
  | _, _ => none

def valuesOf (name : Text) (ms : List (Text × Option Json)) : List Json :=
  ms.filterMap fun m => if m.1 = name then m.2 else none

/-- The function that an object describes, in which no known member occurs twice. -/
def ofMembers? (ms : List (Text × Option Json)) : Option QueryFunction :=
  let names := valuesOf "name" ms
  let signatures := valuesOf "signature" ms
  if 1 < names.length ∨ 1 < signatures.length then none
  else ofParts? names.head? signatures.head?

def ofItems? (items : List Json) : Option QueryFunction :=
  if 2 < items.length then none else ofParts? items[0]? items[1]?

def parse? (t : Text) : Option QueryFunction :=
  match Json.skipSpace t with
  | '[' :: cs => (Json.whole? (Json.arrayFrom (Json.value Json.maxDepth)) cs).bind ofItems?
  | '\x7b' :: cs => (Json.whole? (Json.objectFrom recordMember) cs).bind ofMembers?
  | _ => none

end QueryFunction

end ManifestShell
