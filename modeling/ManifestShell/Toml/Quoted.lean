import ManifestShell.Json.Parser

/-! Quoted texts in TOML: between double quotes with escapes, between single quotes as they are,
and either of them over several lines between triple quotes. -/
namespace ManifestShell.Toml

abbrev Reader (α : Type) := Text → Option (α × Text)

/-- Control characters other than the tab; the line feed is one of them. -/
def isControl (c : Char) : Bool := (c.toNat < 32 && c != '\t') || c.toNat == 127

def shortEscape? (c : Char) : Option Char :=
  if c = '"' ∨ c = '\\' then some c
  else if c = 'b' then some (Char.ofNat 8)
  else if c = 't' then some '\t'
  else if c = 'n' then some '\n'
  else if c = 'f' then some (Char.ofNat 12)
  else if c = 'r' then some '\r'
  else if c = 'e' then some (Char.ofNat 27)
  else none

def hexCount? (c : Char) : Option Nat :=
  if c = 'x' then some 2 else if c = 'u' then some 4 else if c = 'U' then some 8 else none

def charOfCode? (n : Nat) : Option Char := if n.isValidChar then some (Char.ofNat n) else none

def prepend (c : Char) (r : Option (Text × Text)) : Option (Text × Text) :=
  r.map fun p => (c :: p.1, p.2)

/-- Where a reader of escapes stands: between characters, after a backslash, before the given number
of digits and one more, among quotes, or at a line that a backslash joins to the next. -/
inductive QuoteState where
  | plain
  | escape
  | code (left : Nat) (read : Nat)
  | quotes (count : Nat)
  | afterReturn
  | joinLine
  | joined

def basicFrom : QuoteState → Reader Text
  | _, [] => none
  | .escape, c :: cs =>
    match shortEscape? c with
    | some d => prepend d (basicFrom .plain cs)
    | none => (hexCount? c).bind fun n => basicFrom (.code (n - 1) 0) cs
  | .code left read, c :: cs =>
    (Json.hexValue? c).bind fun d =>
      match left with
      | 0 => (charOfCode? (16 * read + d)).bind fun ch => prepend ch (basicFrom .plain cs)
      | left + 1 => basicFrom (.code left (16 * read + d)) cs
  | _, c :: cs =>
    if c = '"' then some ([], cs)
    else if c = '\\' then basicFrom .escape cs
    else if isControl c then none
    else prepend c (basicFrom .plain cs)

def literalFrom : Reader Text
  | [] => none
  | c :: cs =>
    if c = '\'' then some ([], cs)
    else if isControl c then none
    else prepend c (literalFrom cs)

/-- The quotes that end a text over several lines: three of them close it, and up to two before
these belong to it. -/
def closing (quote : Char) (count : Nat) (rest : Text) : Text × Text :=
  (List.replicate (count - 3) quote, rest)

def prependAll (t : Text) (r : Option (Text × Text)) : Option (Text × Text) :=
  r.map fun p => (t ++ p.1, p.2)

/-- Blanks may stand between a backslash and the line end, which may begin with a carriage
return. -/
def joinsLine (c : Char) (rest : Text) : Bool :=
  c == ' ' || c == '\t' || (c == '\r' && rest.head? == some '\n')

def multiBasicFrom : QuoteState → Reader Text
  | .quotes count, [] => if 3 ≤ count then some (closing '"' count []) else none
  | _, [] => none
  | .escape, c :: cs =>
    match shortEscape? c with
    | some d => prepend d (multiBasicFrom .plain cs)
    | none =>
      match hexCount? c with
      | some n => multiBasicFrom (.code (n - 1) 0) cs
      | none =>
        if c = '\n' then multiBasicFrom .joined cs
        else if joinsLine c cs then multiBasicFrom .joinLine cs
        else none
  | .code left read, c :: cs =>
    (Json.hexValue? c).bind fun d =>
      match left with
      | 0 => (charOfCode? (16 * read + d)).bind fun ch => prepend ch (multiBasicFrom .plain cs)
      | left + 1 => multiBasicFrom (.code left (16 * read + d)) cs
  | .joinLine, c :: cs =>
    if c = '\n' then multiBasicFrom .joined cs
    else if joinsLine c cs then multiBasicFrom .joinLine cs
    else none
  | .afterReturn, c :: cs => if c = '\n' then prepend c (multiBasicFrom .plain cs) else none
  | .quotes count, c :: cs =>
    if c = '"' then
      if count = 4 then some (closing '"' 5 cs) else multiBasicFrom (.quotes (count + 1)) cs
    else if 3 ≤ count then some (closing '"' count (c :: cs))
    else prependAll (List.replicate count '"') (
      if c = '\\' then multiBasicFrom .escape cs
      else if c = '\r' then prepend c (multiBasicFrom .afterReturn cs)
      else if isControl c && c != '\n' then none
      else prepend c (multiBasicFrom .plain cs))
  | .joined, c :: cs =>
    if c = '\n' ∨ joinsLine c cs then multiBasicFrom .joined cs
    else if c = '"' then multiBasicFrom (.quotes 1) cs
    else if c = '\\' then multiBasicFrom .escape cs
    else if isControl c then none
    else prepend c (multiBasicFrom .plain cs)
  | .plain, c :: cs =>
    if c = '"' then multiBasicFrom (.quotes 1) cs
    else if c = '\\' then multiBasicFrom .escape cs
    else if c = '\r' then prepend c (multiBasicFrom .afterReturn cs)
    else if isControl c && c != '\n' then none
    else prepend c (multiBasicFrom .plain cs)

/-- Reads the rest of a text in triple single quotes; `count` of them were just passed. -/
def multiLiteralFrom (count : Nat) : Reader Text
  | [] => if 3 ≤ count then some (closing '\'' count []) else none
  | c :: cs =>
    if c = '\'' then
      if count = 4 then some (closing '\'' 5 cs) else multiLiteralFrom (count + 1) cs
    else if 3 ≤ count then some (closing '\'' count (c :: cs))
    else prependAll (List.replicate count '\'') (
      if c = '\r' then
        if cs.head? = some '\n' then prepend c (multiLiteralFrom 0 cs) else none
      else if isControl c && c != '\n' then none
      else prepend c (multiLiteralFrom 0 cs))

def dropLineEnd : Text → Text
  | '\n' :: cs => cs
  | '\r' :: '\n' :: cs => cs
  | cs => cs

def singleLine : Reader Text
  | '"' :: cs => if cs.take 2 = ['"', '"'] then none else basicFrom .plain cs
  | '\'' :: cs => if cs.take 2 = ['\'', '\''] then none else literalFrom cs
  | _ => none

def quoted : Reader Text
  | '"' :: '"' :: '"' :: cs => multiBasicFrom .plain (dropLineEnd cs)
  | '\'' :: '\'' :: '\'' :: cs => multiLiteralFrom 0 (dropLineEnd cs)
  | cs => singleLine cs

def longestRun (c : Char) (t : Text) : Nat := go 0 0 t
where
  /-- `run` counts the current run and `best` the longest one so far. -/
  go (run best : Nat) : Text → Nat
    | [] => max run best
    | d :: ds => if d = c then go (run + 1) best ds else go 0 (max run best) ds

/-- Control characters, which can only be written with a backslash. -/
def needsCode (c : Char) : Bool := (c.toNat < 32 && c != '\n') || c.toNat == 127

def upperHexDigit (n : Nat) : Char := (Nat.digitChar (n % 16)).toUpper

def escapeChar (c : Char) : Text :=
  if c.toNat = 8 then "\\b"
  else if c = '\t' then "\\t"
  else if c = '\n' then "\\n"
  else if c.toNat = 12 then "\\f"
  else if c = '\r' then "\\r"
  else if c = '"' then "\\\""
  else if c = '\\' then "\\\\"
  else "\\u00".toList ++ [upperHexDigit (c.toNat / 16), upperHexDigit c.toNat]

/-- Writes a text with backslashes.  Of several quotes in a row, those beyond `allowed` are escaped;
`count` says how many were written. -/
def escapeAll (allowed : Nat) (multiLine : Bool) (count : Nat) : Text → Text
  | [] => []
  | c :: cs =>
    if c = '"' then
      if allowed ≤ count then escapeChar c ++ escapeAll allowed multiLine 0 cs
      else c :: escapeAll allowed multiLine (count + 1) cs
    else if c = '\n' ∧ multiLine then c :: escapeAll allowed multiLine 0 cs
    else if needsCode c ∨ c = '\n' ∨ c = '\\' then
      escapeChar c ++ escapeAll allowed multiLine 0 cs
    else c :: escapeAll allowed multiLine 0 cs

/-- A text between quotes, on a line of its own if it has several lines. -/
def enclose (quotes : Text) (multiLine : Bool) (t body : Text) : Text :=
  quotes ++ (if multiLine && t.contains '\n' then ['\n'] else []) ++ body ++ quotes

/-- Writes a text in the first of the forms that can hold it: double quotes, single quotes, triple
double quotes, triple single quotes, and then double quotes with escapes. -/
def writeText (t : Text) : Text :=
  let codes := t.any needsCode
  let lines := t.contains '\n'
  let slashes := t.contains '\\'
  if !codes && !slashes && !lines && longestRun '"' t = 0 then enclose ['"'] false t t
  else if !codes && !lines && longestRun '\'' t = 0 then enclose ['\''] false t t
  else if !codes && !slashes && longestRun '"' t ≤ 2 then enclose ['"', '"', '"'] true t t
  else if !codes && longestRun '\'' t ≤ 2 then enclose ['\'', '\'', '\''] true t t
  else if lines then enclose ['"', '"', '"'] true t (escapeAll 2 true 0 t)
  else enclose ['"'] false t (escapeAll 0 false 0 t)

end ManifestShell.Toml
