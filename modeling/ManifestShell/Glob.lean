import ManifestShell.Text.Basic

/-! Glob patterns: their tokens, the scanner that turns a text into tokens, and the paths that they
match.
The scanner looks at one character at a time; its state remembers what a token begun earlier still
needs.  Positions in errors count characters. -/
namespace ManifestShell

namespace Glob

inductive Token where
  | char (c : Char)
  /-- One character other than a separator. -/
  | anyChar
  /-- Any run of characters within a component. -/
  | anyRun
  /-- Any number of whole components. -/
  | anyComponents
  /-- One character in one of the ranges. -/
  | oneOf (ranges : List (Char × Char))
  /-- One character in none of the ranges. -/
  | noneOf (ranges : List (Char × Char))
  deriving DecidableEq, Repr

inductive PatternError where
  | tooManyStars (position : Nat)
  | partialComponent (position : Nat)
  | badClass (position : Nat)
  deriving DecidableEq, Repr

namespace PatternError

def position : PatternError → Nat
  | tooManyStars n | partialComponent n | badClass n => n

def reason : PatternError → Text
  | tooManyStars _ => "wildcards are either regular `*` or recursive `**`"
  | partialComponent _ => "recursive wildcards must form a single path component"
  | badClass _ => "invalid range pattern"

def message (e : PatternError) : Text :=
  "Pattern syntax error near position ".toList ++ Text.ofNat e.position ++ ": ".toList ++ e.reason

end PatternError

/-- The ranges that the text between brackets denotes; a hyphen at either end stands for itself. -/
def classRanges : Text → List (Char × Char)
  | a :: '-' :: b :: cs => (a, b) :: classRanges cs
  | a :: cs => (a, a) :: classRanges cs
  | [] => []

/-- What the scanner has seen: nothing pending, one or two stars, or part of a class.  `fresh` says
that the token stands at the start of a component. -/
inductive ScanState where
  | between (fresh : Bool)
  | star (fresh : Bool) (start : Nat)
  | stars (fresh : Bool) (start : Nat)
  | classOpen (start : Nat)
  | classNegated (start : Nat)
  | classBody (start : Nat) (negated : Bool) (body : Text)

def classToken (negated : Bool) (body : Text) : Token :=
  if negated then .noneOf (classRanges body) else .oneOf (classRanges body)

/-- A character with no token pending before it. -/
def scanFresh (fresh : Bool) (pos : Nat) (c : Char) : List Token × ScanState :=
  if c = '?' then ([.anyChar], .between false)
  else if c = '*' then ([], .star fresh pos)
  else if c = '[' then ([], .classOpen pos)
  else ([.char c], .between (c == '/'))

/-- One step of the scanner: the tokens that the character completes, and the next state. -/
def scanStep (pos : Nat) (c : Char) : ScanState → Except PatternError (List Token × ScanState)
  | .between fresh => .ok (scanFresh fresh pos c)
  | .star fresh start =>
    if c = '*' then .ok ([], .stars fresh start)
    else
      let (ts, s) := scanFresh false pos c
      .ok (.anyRun :: ts, s)
  | .stars fresh start =>
    if c = '*' then .error (.tooManyStars (start + 2))
    else if !fresh then .error (.partialComponent (start - 1))
    else if c = '/' then .ok ([.anyComponents], .between true)
    else .error (.partialComponent (start + 2))
  | .classOpen start =>
    if c = '!' then .ok ([], .classNegated start) else .ok ([], .classBody start false [c])
  | .classNegated start => .ok ([], .classBody start true [c])
  | .classBody start negated body =>
    if c = ']' then .ok ([classToken negated body], .between false)
    else .ok ([], .classBody start negated (body ++ [c]))

def scanEnd : ScanState → Except PatternError (List Token)
  | .between _ => .ok []
  | .star _ _ => .ok [.anyRun]
  | .stars fresh start =>
    if fresh then .ok [.anyComponents] else .error (.partialComponent (start - 1))
  | .classOpen start | .classNegated start | .classBody start _ _ => .error (.badClass start)

def scan (s : ScanState) (pos : Nat) : Text → Except PatternError (List Token)
  | [] => scanEnd s
  | c :: cs => do
    let (ts, s) ← scanStep pos c s
    let rest ← scan s (pos + 1) cs
    return ts ++ rest

def parse (pattern : Text) : Except PatternError (List Token) := scan (.between true) 0 pattern

def escape (t : Text) : Text :=
  t.flatMap fun c => if c = '?' ∨ c = '*' ∨ c = '[' ∨ c = ']' then ['[', c, ']'] else [c]

def literal? : List Token → Option Text
  | [] => some []
  | .char c :: ts => (literal? ts).map (c :: ·)
  | _ :: _ => none

end Glob

/-! ### Matching
No wildcard but `**` goes past a separator. -/

namespace Glob

/-- What may be left once a run within a component is taken off. -/
def runTails : Text → List Text
  | [] => [[]]
  | c :: cs => (c :: cs) :: if c = '/' then [] else runTails cs

/-- The ends of a text that begin after a separator, and the empty one. -/
def laterComponents : Text → List Text
  | [] => [[]]
  | c :: cs => if c = '/' then cs :: laterComponents cs else laterComponents cs

/-- What may be left once whole components are taken off. -/
def componentTails (t : Text) : List Text := t :: laterComponents t

def inRanges (ranges : List (Char × Char)) (c : Char) : Bool :=
  ranges.any fun r => r.1 ≤ c && c ≤ r.2

def Token.admits (c : Char) : Token → Bool
  | .char d => c == d
  | .anyChar => c != '/'
  | .oneOf ranges => c != '/' && inRanges ranges c
  | .noneOf ranges => c != '/' && !inRanges ranges c
  | .anyRun | .anyComponents => false

def matchesText : List Token → Text → Bool
  | [], t => t.isEmpty
  | .anyRun :: ts, t => (runTails t).any (matchesText ts)
  | .anyComponents :: ts, t => (componentTails t).any (matchesText ts)
  | _ :: _, [] => false
  | k :: ts, c :: cs => k.admits c && matchesText ts cs

end Glob

end ManifestShell
