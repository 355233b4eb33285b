import ManifestShell.Text.Basic
import ManifestShell.Text.Word

/-! Query lines and their segments.
A line is cut at its colons; the last piece is the active segment, which is still being typed, and
the pieces before it are committed. -/
namespace ManifestShell

namespace Query

def committed (line : Text) : List Text := (Text.splitOn ':' line).dropLast

def active (line : Text) : Text := (Text.splitOn ':' line).getLastD []

def join (segments : List Text) : Text := [':'].intercalate segments

def committedText (line : Text) : Text := join (committed line)

theorem committed_append_active (line : Text) :
    committed line ++ [active line] = Text.splitOn ':' line := by
  have h := Text.splitOn_ne_nil ':' line
  rw [committed, active, List.getLastD_eq_getLast?, List.getLast?_eq_some_getLast h]
  exact List.dropLast_concat_getLast h

end Query

/-! ### Positions
Several positions can hold at once.  Each is recognised on its own, from the whole line or from the
active segment alone. -/

namespace Query

inductive Position where
  /-- The start of a query, where `:root` may be written. -/
  | root
  /-- Inside an open bracket of the active segment. -/
  | bracketPredicate
  /-- Where a type cast or type test may follow the stem. -/
  | typeCast (stem : Text)
  /-- Inside an import; the typed path and the parts of the line around it. -/
  | importPath (before typed after : Text)
  /-- After a `children` accessor; `indexed` says that an index may follow. -/
  | ordinalAccessor (indexed : Bool)
  /-- The line has a deep descendant marker. -/
  | deepDescendant
  /-- The line has an open bracket. -/
  | insideBracket
  deriving DecidableEq, Repr

/-- The text without its first character, if that is `c`. -/
def dropChar (c : Char) : Text → Text
  | [] => []
  | d :: ds => if d = c then ds else d :: ds

/-- A colon and then some of the letters of `root`, in order, and nothing else. -/
def isRootStart (line : Text) : Bool :=
  ("root".toList.foldl (fun t c => dropChar c t) (dropChar ':' line)).isEmpty

def atRoot (line : Text) : Bool := (active line).getLast? != some '.' && isRootStart line

/-- Whether two characters are the same but for case; the long s is a form of s. -/
def sameLetter (lower c : Char) : Bool :=
  c.toLower == lower || (lower == 's' && c.toNat == 0x17F)

def dropKeyword? : Text → Text → Option Text
  | [], t => some t
  | _ :: _, [] => none
  | k :: ks, c :: cs => if sameLetter k c then dropKeyword? ks cs else none

def bracketKeywords : List Text := ["is", "attributes", "children", "name", "text"]

/-- Blanks and then the last line of the text. -/
def isLastLine (t : Text) : Bool := !(Text.trimStart t).contains '\n'

/-- What may follow an opening bracket: a keyword or none, blanks, and the last line of the text. -/
def isPredicateTail (t : Text) : Bool :=
  isLastLine t || bracketKeywords.any fun k => (dropKeyword? k t).any isLastLine

def inBracketPredicate (activeSegment : Text) : Bool :=
  (Text.tails activeSegment).any fun t =>
    match t with
    | '[' :: cs => isPredicateTail cs
    | _ => false

/-- The letters `as` or `is` with a blank after them. -/
def isCastClause : Text → Bool
  | c :: 's' :: b :: _ => (c == 'a' || c == 'i') && isBlank b
  | _ => false

def hasCastClause (activeSegment : Text) : Bool := (Text.tails activeSegment).any isCastClause

/-- The word `as` or `is`, after which no line ends. -/
def isCastKeyword : Text → Bool
  | c :: 's' :: cs => (c == 'a' || c == 'i') && !cs.head?.any isWordChar && !cs.contains '\n'
  | _ => false

/-- The part of a segment before its first cast keyword; `inWord` says that a word character stands
before the segment. -/
def beforeCast (inWord : Bool) : Text → Text
  | [] => []
  | c :: cs =>
    if !inWord && isCastKeyword (c :: cs) then [] else c :: beforeCast (isWordChar c) cs

def castStem (line : Text) : Text :=
  let kept := beforeCast false (active line)
  if (committed line).isEmpty then kept else committedText line ++ ':' :: kept

def allowsCast (line : Text) : Bool :=
  Text.endsWithChar isBlank line || hasCastClause (active line)

def castStem? (line : Text) : Option Text :=
  if allowsCast line then some (castStem line) else none

def isQuote (c : Char) : Bool := c == '\'' || c == '"'

/-- The parts of a line before and after its first word that begins with `import`, of which the
first includes these letters. -/
def afterImport? (inWord : Bool) : Text → Option (Text × Text)
  | [] => none
  | c :: cs =>
    match inWord, Text.dropStart? "import" (c :: cs) with
    | false, some rest => some ("import", rest)
    | _, _ => (afterImport? (isWordChar c) cs).map fun p => (c :: p.1, p.2)

/-- Blanks and at most one quote, and the rest. -/
def skipImportLead (t : Text) : Text × Text :=
  let lead := t.takeWhile isBlank
  match t.dropWhile isBlank with
  | c :: cs => if isQuote c then (lead ++ [c], cs) else (lead, c :: cs)
  | [] => (lead, [])

/-- The path typed in an import, between the parts of the line around it.  The path ends at a quote
and does not end in a blank; an empty one does not count. -/
def importSpan? (line : Text) : Option (Text × Text × Text) :=
  match afterImport? false line with
  | none => none
  | some (word, rest) =>
    let (lead, body) := skipImportLead rest
    let captured := body.takeWhile fun c => !isQuote c
    let typed := Text.trimEnd captured
    if typed.isEmpty then none
    else some (word ++ lead, typed, body.drop typed.length)

/-- The path typed in an import and its place in the line, in bytes. -/
def importRange (before typed : Text) : Nat × Nat :=
  (Text.byteSize before, Text.byteSize before + Text.byteSize typed)

def isAccessorChar (c : Char) : Bool := c.isAlpha || c == '-'

/-- The ends of a line that follow the letters `children`. -/
def afterChildren (line : Text) : List Text :=
  (Text.tails line).filterMap (Text.dropStart? "children")

def endsInChildrenColon (line : Text) : Bool :=
  (afterChildren line).any fun t =>
    match t with
    | ':' :: cs => cs.all isAccessorChar
    | _ => false

def endsInChildren (line : Text) : Bool :=
  endsInChildrenColon line || (afterChildren line).any fun t => t.all isAccessorChar

def ordinalIndexed? (line : Text) : Option Bool :=
  if endsInChildren line then some (!endsInChildrenColon line) else none

def hasDeepMarker (line : Text) : Bool := Text.hasPart "**" line

def hasBracket (line : Text) : Bool := line.contains '['

def positions (line : Text) : List Position :=
  (if atRoot line then [.root] else []) ++
  (if inBracketPredicate (active line) then [.bracketPredicate] else []) ++
  (castStem? line).toList.map .typeCast ++
  (importSpan? line).toList.map (fun s => .importPath s.1 s.2.1 s.2.2) ++
  (ordinalIndexed? line).toList.map .ordinalAccessor ++
  (if hasDeepMarker line then [.deepDescendant] else []) ++
  (if hasBracket line then [.insideBracket] else [])

end Query

/-! ### Vocabulary -/

namespace Query

def accessors : List Text := ["name", "text", "children", "attributes", "length"]

def selectors : List Text :=
  [":json", ":keys", ":text", ":attr", ":attrs", ":children", ":nth-child"]

def rootSelector : Text := ":root"

def bracketWords : List Text :=
  ["attributes", "children", "attr(", "name", "text", "import", "is", "is array", "is date",
   "is fragment", "is node", "is number", "is object", "is text", "is string"]

def valueCasts : List Text :=
  ["as", "as array", "as boolean", "as float", "as int", "as json", "as number", "as object",
   "as string", "as false", "as true", "as NaN", "as nan", "as null"]

def nodeCasts : List Text :=
  ["as Date", "as date", "as Document", "as document", "as Fragment", "as fragment", "as Node",
   "as node", "as Text", "as text"]

def shapeCasts : List Text :=
  ["as any", "as camelcase", "as eval", "as keys", "as pascalcase", "as query", "as reversed",
   "as snakecase", "as sorted", "as tuple", "as unique"]

def typeTests : List Text :=
  ["is", "is array", "is date", "is fragment", "is node", "is number", "is object", "is text",
   "is string"]

def typeKeywords : List Text := valueCasts ++ nodeCasts ++ shapeCasts ++ typeTests

def ordinals : List Text :=
  ["first", "second", "third", "fourth", "fifth", "sixth", "seventh", "eighth", "ninth", "tenth"]

def indexForms (line : Text) : List Text :=
  (List.range 10).map fun i => line ++ '[' :: Text.ofNat i ++ [']']

def ordinalForms (line : Text) : List Text :=
  ordinals.map fun o => committedText line ++ ':' :: o

def castForms (stem : Text) : List Text := typeKeywords.map (stem ++ ·)

def Position.words (line : Text) : Position → List Text
  | .root => [rootSelector]
  | .bracketPredicate => bracketWords
  | .typeCast stem => castForms stem
  | .ordinalAccessor indexed => (if indexed then indexForms line else []) ++ ordinalForms line
  | .importPath _ _ _ | .deepDescendant | .insideBracket => []

def vocabulary (line : Text) : List Text :=
  accessors ++ selectors ++ (positions line).flatMap (Position.words line)

def deepTests : List Text := ["**[is node]", "**[is text]", "**[is not empty]"]

def predicateForms : List Text :=
  ["[contains \"text\"]", "[starts with \"prefix\"]", "[ends with \"suffix\"]"]

def continuations (line : Text) : List Text :=
  (if hasDeepMarker line then deepTests else []) ++ (if hasBracket line then predicateForms else [])

end Query

end ManifestShell
