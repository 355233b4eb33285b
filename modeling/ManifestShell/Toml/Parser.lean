import ManifestShell.Toml.Scalar

/-! Reading TOML: one expression a line, which is a header or a key with its value. -/
namespace ManifestShell.Toml

def isBlank (c : Char) : Bool := c == ' ' || c == '\t'

def skipBlank (t : Text) : Text := t.dropWhile isBlank

/-- Skips blanks, line ends and comments.  There is no result when a comment holds a control
character. -/
def skipLines (inComment : Bool) : Text → Option Text
  | [] => some []
  | '\n' :: cs => skipLines false cs
  | '\r' :: '\n' :: cs => skipLines false cs
  | c :: cs =>
    if inComment then if isControl c then none else skipLines true cs
    else if isBlank c then skipLines false cs
    else if c = '#' then skipLines true cs
    else some (c :: cs)

/-- Whether nothing but a comment follows on the line. -/
def atLineEnd (t : Text) : Bool :=
  match skipBlank t with
  | [] | '\n' :: _ | '\r' :: '\n' :: _ | '#' :: _ => true
  | _ => false

def isBareKeyChar (c : Char) : Bool := c.isAlphanum || c == '_' || c == '-'

def keyPart : Reader Text := fun t =>
  match t with
  | '"' :: _ | '\'' :: _ => singleLine t
  | _ =>
    let k := t.takeWhile isBareKeyChar
    if k.isEmpty then none else some (k, t.dropWhile isBareKeyChar)

/-- Reads a key: its parts before the last, and the last.  The number bounds how many there are. -/
def keyParts : Nat → Reader (List Text × Text)
  | 0, _ => none
  | n + 1, t => do
    let (k, rest) ← keyPart (skipBlank t)
    match skipBlank rest with
    | '.' :: cs =>
      let ((path, last), rest) ← keyParts n cs
      return ((k :: path, last), rest)
    | cs => return (([], k), cs)

def key : Reader (List Text × Text) := fun t => keyParts t.length t

def isUnquotedChar (c : Char) : Bool :=
  !(isBlank c || c == '\n' || c == '\r' || c == '#' || c == ',' || c == '=' || c == '\'' ||
    c == '"' || c == '[' || c == ']' || c == '\x7b' || c == '\x7d')

/-- A date may be followed by a blank and then a time. -/
def timeFollows (word rest : Text) : Bool :=
  afterDate? word == some [] &&
    match rest with
    | ' ' :: c :: _ => isDigitBelow 10 c
    | _ => false

def scalar : Reader Toml := fun t =>
  match t with
  | '"' :: _ | '\'' :: _ => (quoted t).map fun p => (str p.1, p.2)
  | _ =>
    let word := t.takeWhile isUnquotedChar
    let rest := t.dropWhile isUnquotedChar
    if timeFollows word rest then
      (unquoted? (word ++ ' ' :: (rest.drop 1).takeWhile isUnquotedChar)).map fun v =>
        (v, (rest.drop 1).dropWhile isUnquotedChar)
    else (unquoted? word).map fun v => (v, rest)

def items (item : Reader Toml) : Nat → Reader (List Toml)
  | 0, _ => none
  | n + 1, t => do
    match ← skipLines false t with
    | ']' :: cs => return ([], cs)
    | t =>
      let (v, rest) ← item t
      match ← skipLines false rest with
      | ',' :: cs =>
        let (vs, rest) ← items item n cs
        return (v :: vs, rest)
      | ']' :: cs => return ([v], cs)
      | _ => none

def assignment (value : Reader Toml) : Reader ((List Text × Text) × Toml) := fun t => do
  let (k, rest) ← key t
  match rest with
  | '=' :: cs =>
    let (v, rest) ← value (skipBlank cs)
    return ((k, v), rest)
  | _ => none

def inlineMembers (value : Reader Toml) : Nat → Members → Reader Members
  | 0, _, _ => none
  | n + 1, ms, t => do
    match ← skipLines false t with
    | '\x7d' :: cs => return (ms, cs)
    | t =>
      let (((path, k), v), rest) ← assignment value t
      let (_, ms) ← addValue path k v .inline ms
      match ← skipLines false rest with
      | ',' :: cs => inlineMembers value n ms cs
      | '\x7d' :: cs => return (ms, cs)
      | _ => none

/-- Reads a value with at most `depth` arrays and inline tables inside each other. -/
def value : Nat → Reader Toml
  | 0, t => scalar t
  | depth + 1, t =>
    match t with
    | '[' :: cs => (items (value depth) (cs.length + 1) cs).map fun p => (arr p.1, p.2)
    | '\x7b' :: cs =>
      (inlineMembers (value depth) (cs.length + 1) [] cs).map fun p => (table .inline p.1, p.2)
    | t => scalar t

def maxDepth : Nat := 80

def headerFrom (repeated : Bool) : Reader Header := fun t => do
  let ((path, last), rest) ← key t
  let rest ← Text.dropStart? (if repeated then "]]" else "]") rest
  return (⟨path, last, repeated⟩, rest)

def expression (d : Draft) : Reader Draft
  | '[' :: '[' :: cs => do
    let (h, rest) ← headerFrom true cs
    return (← d.startSection h, rest)
  | '[' :: cs => do
    let (h, rest) ← headerFrom false cs
    return (← d.startSection h, rest)
  | t => do
    let (((path, k), v), rest) ← assignment (value maxDepth) t
    return (← d.add path k v, rest)

/-- Reads expressions up to the end; the number bounds how many there are. -/
def expressions : Nat → Draft → Text → Option Draft
  | 0, _, _ => none
  | n + 1, d, t => do
    match ← skipLines false t with
    | [] => return d
    | t =>
      let (d, rest) ← expression d t
      if atLineEnd rest then expressions n d rest else none

def dropMark (t : Text) : Text := (Text.dropStart? [Char.ofNat 0xFEFF] t).getD t

def parse? (t : Text) : Option Members :=
  (expressions (t.length + 1) .empty (dropMark t)).map Draft.members

end ManifestShell.Toml
