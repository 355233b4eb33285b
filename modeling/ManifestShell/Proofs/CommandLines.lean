import Mathlib.Data.List.Infix
import ManifestShell.Completion.Context
import ManifestShell.Proofs.Segments
import ManifestShell.Shell.Command

/-! How commands are written.
A line is a word, and perhaps an argument, with blanks around them and between them.  Each kind of
line that does something to a session is described by its text, and reading a line gives the
corresponding command exactly for the lines of that description. -/
namespace ManifestShell

namespace Text

variable {t u lead trail : Text}

/-- No blank at either end. -/
def Tight (t : Text) : Prop :=
  (∀ c, t.head? = some c → isBlank c = false) ∧ ∀ c, t.getLast? = some c → isBlank c = false

theorem tight_nil : Tight [] := ⟨by simp, by simp⟩

theorem tight_of_notBlank (h : ∀ c ∈ t, isBlank c = false) : Tight t :=
  ⟨fun c hc => h c (List.mem_of_mem_head? hc), fun c hc => h c (List.mem_of_getLast? hc)⟩

theorem blank_iff : blank t = true ↔ ∀ c ∈ t, isBlank c = true := List.all_eq_true

theorem blank_append : blank (t ++ u) = (blank t && blank u) := List.all_append

theorem trimStart_append (h : blank lead = true) (t : Text) :
    trimStart (lead ++ t) = trimStart t :=
  List.dropWhile_append_of_pos (blank_iff.1 h)

theorem trimStart_of_head (h : ∀ c, t.head? = some c → isBlank c = false) : trimStart t = t := by
  cases t with
  | nil => rfl
  | cons c t => simp [trimStart, h c rfl]

theorem trimEnd_eq (t : Text) : trimEnd t = (trimStart t.reverse).reverse := rfl

theorem blank_reverse : blank t.reverse = blank t := by simp [blank]

theorem trimEnd_append (h : blank trail = true) (t : Text) : trimEnd (t ++ trail) = trimEnd t := by
  rw [trimEnd_eq, List.reverse_append, trimStart_append (blank_reverse.trans h), trimEnd_eq]

theorem trimEnd_of_getLast (h : ∀ c, t.getLast? = some c → isBlank c = false) : trimEnd t = t := by
  rw [trimEnd_eq, trimStart_of_head (by simpa using h), List.reverse_reverse]

theorem exists_trimStart (t : Text) : ∃ lead, t = lead ++ trimStart t ∧ blank lead = true ∧
    ∀ c, (trimStart t).head? = some c → isBlank c = false := by
  refine ⟨t.takeWhile isBlank, List.takeWhile_append_dropWhile.symm, List.all_takeWhile,
    fun c hc => ?_⟩
  have hnot := List.head?_dropWhile_not isBlank t
  rwa [show List.dropWhile isBlank t = trimStart t from rfl, hc] at hnot

theorem exists_trimEnd (t : Text) : ∃ trail, t = trimEnd t ++ trail ∧ blank trail = true ∧
    ∀ c, (trimEnd t).getLast? = some c → isBlank c = false := by
  obtain ⟨lead, ht, hlead, hhead⟩ := exists_trimStart t.reverse
  refine ⟨lead.reverse, ?_, blank_reverse.trans hlead, ?_⟩
  · rw [trimEnd_eq, ← List.reverse_append, ← ht, List.reverse_reverse]
  · rw [trimEnd_eq, List.getLast?_reverse]
    exact hhead

/-- Trimming takes off the blanks around a text, and nothing but these. -/
theorem trim_eq_iff : trim t = u ↔ Tight u ∧
    ∃ lead trail, t = lead ++ (u ++ trail) ∧ blank lead = true ∧ blank trail = true := by
  constructor
  · rintro rfl
    obtain ⟨lead, hstart, hlead, hhead⟩ := exists_trimStart t
    obtain ⟨trail, hend, htrail, hlast⟩ := exists_trimEnd (trimStart t)
    refine ⟨⟨fun c hc => hhead c ?_, hlast⟩, lead, trail, ?_, hlead, htrail⟩
    · rw [hend, List.head?_append, show trimEnd (trimStart t) = trim t from rfl, hc]
      rfl
    · rw [trim, ← hend, ← hstart]
  · rintro ⟨⟨hhead, hlast⟩, lead, trail, rfl, hlead, htrail⟩
    rw [trim, trimStart_append hlead]
    cases u with
    | nil =>
      rw [List.nil_append, ← List.append_nil trail, trimStart_append htrail]
      rfl
    | cons c u =>
      rw [trimStart_of_head (by simpa using hhead), trimEnd_append htrail, trimEnd_of_getLast hlast]

theorem trim_of_tight (h : Tight t) : trim t = t :=
  trim_eq_iff.2 ⟨h, [], [], by simp, rfl, rfl⟩

theorem tight_trim (t : Text) : Tight (trim t) := (trim_eq_iff.1 rfl).1

theorem splitFirst?_eq_none_iff {p : Char → Bool} :
    splitFirst? p t = none ↔ ∀ c ∈ t, p c = false := by
  induction t with
  | nil => simp [splitFirst?]
  | cons c t ih => by_cases hc : p c <;> simp [splitFirst?, hc, ih]

theorem splitFirst?_eq_some_iff {p : Char → Bool} {before after : Text} :
    splitFirst? p t = some (before, after) ↔
      ∃ c, t = before ++ c :: after ∧ p c = true ∧ ∀ d ∈ before, p d = false := by
  induction t generalizing before with
  | nil => simp [splitFirst?]
  | cons c t ih =>
    by_cases hc : p c
    · constructor
      · intro h
        obtain ⟨rfl, rfl⟩ : [] = before ∧ t = after := by simpa [splitFirst?, hc] using h
        exact ⟨c, rfl, hc, by simp⟩
      · rintro ⟨d, heq, hd, hbefore⟩
        cases before with
        | nil =>
          obtain ⟨_, rfl⟩ := List.cons.inj heq
          simp [splitFirst?, hc]
        | cons b before =>
          obtain ⟨rfl, _⟩ := List.cons.inj heq
          simp [hbefore c List.mem_cons_self] at hc
    · constructor
      · intro h
        simp only [splitFirst?, hc, Bool.false_eq_true, if_false] at h
        obtain ⟨⟨b, a⟩, hq, hpair⟩ := Option.map_eq_some_iff.1 h
        obtain ⟨rfl, rfl⟩ : c :: b = before ∧ a = after := by simpa using hpair
        obtain ⟨d, rfl, hd, hb⟩ := ih.1 hq
        exact ⟨d, rfl, hd, List.forall_mem_cons.2 ⟨by simpa using hc, hb⟩⟩
      · rintro ⟨d, heq, hd, hbefore⟩
        cases before with
        | nil =>
          obtain ⟨rfl, _⟩ := List.cons.inj heq
          exact absurd hd hc
        | cons b before =>
          obtain ⟨rfl, ht⟩ := List.cons.inj heq
          have hrest := ih.2 ⟨d, ht, hd, fun x hx => hbefore x (List.mem_cons_of_mem _ hx)⟩
          simp [splitFirst?, hc, hrest]

end Text

namespace Command

open Text

variable {line word arg : Text}

/-- The line is a word and an argument, which may be missing, with blanks around and between
them. -/
structure Written (line word arg : Text) : Prop where
  word_ne_nil : word ≠ []
  word_not_blank : ∀ c ∈ word, isBlank c = false
  arg_tight : Tight arg
  spelled : ∃ lead gap trail, line = lead ++ (word ++ (gap ++ (arg ++ trail))) ∧
    blank lead = true ∧ blank gap = true ∧ blank trail = true ∧ (gap = [] → arg = [])

theorem firstWord_of_notBlank (h : ∀ c ∈ word, isBlank c = false) :
    firstWord word = (word, []) := by
  simp [firstWord, splitFirst?_eq_none_iff.2 h]

theorem firstWord_append {b : Char} (h : ∀ c ∈ word, isBlank c = false) (hb : isBlank b = true)
    (rest : Text) : firstWord (word ++ b :: rest) = (word, trim rest) := by
  simp [firstWord, splitFirst?_eq_some_iff.2 ⟨b, rfl, hb, h⟩]

theorem firstWord_cases (t : Text) :
    (∀ c ∈ t, isBlank c = false) ∨
      ∃ word b rest, t = word ++ b :: rest ∧ isBlank b = true ∧ ∀ c ∈ word, isBlank c = false := by
  cases h : splitFirst? isBlank t with
  | none => exact Or.inl (splitFirst?_eq_none_iff.1 h)
  | some q =>
    obtain ⟨b, ht, hb, hword⟩ := splitFirst?_eq_some_iff.1 h
    exact Or.inr ⟨q.1, b, q.2, ht, hb, hword⟩

theorem firstWord_trim_iff (hne : word ≠ []) :
    firstWord (trim line) = (word, arg) ↔ Written line word arg := by
  constructor
  · intro h
    obtain ⟨htight, lead, trail, hline, hlead, htrail⟩ := trim_eq_iff.1 (rfl : trim line = _)
    rcases firstWord_cases (trim line) with hword | ⟨w, b, rest, ht, hb, hw⟩
    · rw [firstWord_of_notBlank hword] at h
      obtain ⟨rfl, rfl⟩ : trim line = word ∧ [] = arg := by simpa using h
      exact ⟨hne, hword, tight_nil, lead, [], trail, hline, hlead, rfl, htrail, fun _ => rfl⟩
    · rw [ht, firstWord_append hw hb] at h
      obtain ⟨rfl, rfl⟩ : w = word ∧ trim rest = arg := by simpa using h
      obtain ⟨_, lead', trail', hrest, hlead', htrail'⟩ := trim_eq_iff.1 (rfl : trim rest = _)
      refine ⟨hne, hw, tight_trim rest, lead, b :: lead', trail' ++ trail, ?_, hlead, ?_, ?_,
        by simp⟩
      · conv_lhs => rw [hline, ht, hrest]
        simp
      · simpa [blank, hb] using hlead'
      · rw [blank_append, htrail', htrail]
        rfl
  · rintro ⟨_, hword, htight, lead, gap, trail, rfl, hlead, hgap, htrail, hnil⟩
    by_cases harg : arg = []
    · have htrim : trim (lead ++ (word ++ (gap ++ (arg ++ trail)))) = word := by
        refine trim_eq_iff.2
          ⟨tight_of_notBlank hword, lead, gap ++ trail, by simp [harg], hlead, ?_⟩
        rw [blank_append, hgap, htrail]
        rfl
      rw [htrim, firstWord_of_notBlank hword, harg]
    · obtain ⟨b, gap, rfl⟩ := List.exists_cons_of_ne_nil fun h => harg (hnil h)
      obtain ⟨hb, hgap⟩ : isBlank b = true ∧ blank gap = true := by simpa [blank] using hgap
      have htrim : trim (lead ++ (word ++ (b :: gap ++ (arg ++ trail)))) =
          word ++ b :: (gap ++ arg) := by
        refine trim_eq_iff.2 ⟨⟨fun c hc => ?_, fun c hc => ?_⟩, lead, trail, by simp, hlead, htrail⟩
        · rw [List.head?_append_of_ne_nil _ hne] at hc
          exact hword c (List.mem_of_mem_head? hc)
        · refine htight.2 c ?_
          rwa [List.getLast?_append_of_ne_nil _ (by simp), ← List.cons_append,
            List.getLast?_append_of_ne_nil _ harg] at hc
      have hrest : trim (gap ++ arg) = arg :=
        trim_eq_iff.2 ⟨htight, gap, [], by simp, hgap, rfl⟩
      rw [htrim, firstWord_append hword hb, hrest]

theorem Written.inj {word' arg' : Text} (h : Written line word arg)
    (h' : Written line word' arg') : word = word' ∧ arg = arg' := by
  have heq := (firstWord_trim_iff h.word_ne_nil).2 h
  rw [(firstWord_trim_iff h'.word_ne_nil).2 h'] at heq
  simpa [eq_comm] using heq

theorem Written.isPrefix (h : Written line word arg) : word <+: trim line := by
  have heq := (firstWord_trim_iff h.word_ne_nil).2 h
  rcases firstWord_cases (trim line) with hword | ⟨w, b, rest, ht, hb, hw⟩
  · rw [firstWord_of_notBlank hword] at heq
    rw [(Prod.mk.inj heq).1]
  · rw [ht, firstWord_append hw hb] at heq
    rw [ht, (Prod.mk.inj heq).1]
    exact List.prefix_append _ _

theorem written_nil_iff (hne : word ≠ []) (hword : ∀ c ∈ word, isBlank c = false) :
    Written line word [] ↔ trim line = word := by
  rw [← firstWord_trim_iff hne]
  constructor
  · intro h
    rcases firstWord_cases (trim line) with hw | ⟨w, b, rest, ht, hb, hw⟩
    · rw [firstWord_of_notBlank hw] at h
      exact (Prod.mk.inj h).1
    · -- a blank with nothing behind it would be at the end
      rw [ht, firstWord_append hw hb] at h
      obtain ⟨_, lead, trail, hrest, hlead, htrail⟩ := trim_eq_iff.1 (Prod.mk.inj h).2
      have hblank : ∀ c ∈ b :: rest, isBlank c = true := by
        rw [hrest, List.nil_append]
        refine List.forall_mem_cons.2 ⟨hb, blank_iff.1 ?_⟩
        rw [blank_append, hlead, htrail]
        rfl
      have hlast := (tight_trim line).2 ((b :: rest).getLast (by simp)) (by
        rw [ht, List.getLast?_append_of_ne_nil _ (by simp), List.getLast?_eq_some_getLast])
      rw [hblank _ (List.getLast_mem _)] at hlast
      simp at hlast
  · rintro rfl
    exact firstWord_of_notBlank hword

def exitWords : List Text := ["exit", "quit", ".exit", ".quit"]

theorem exitWords_not_blank : ∀ w ∈ exitWords, w ≠ [] ∧ ∀ c ∈ w, isBlank c = false := by
  have hall : exitWords.all (fun w => !w.isEmpty && w.all fun c => !isBlank c) = true := by decide
  simpa using hall

def ExitLine (line : Text) : Prop := ∃ w ∈ exitWords, Written line w []

theorem exitLine_iff : ExitLine line ↔ trim line ∈ exitWords := by
  constructor
  · rintro ⟨w, hw, h⟩
    obtain ⟨hne, hblank⟩ := exitWords_not_blank w hw
    rwa [(written_nil_iff hne hblank).1 h]
  · intro hw
    obtain ⟨hne, hblank⟩ := exitWords_not_blank _ hw
    exact ⟨_, hw, (written_nil_iff hne hblank).2 rfl⟩

/-- The line is a query: blanks apart, it does not begin with a dot and is no word that ends the
session. -/
def QueryLine (line : Text) : Prop :=
  (trim line).head? ≠ some '.' ∧ trim line ≠ "exit" ∧ trim line ≠ "quit"

theorem startsWith_dot_iff {t : Text} : startsWith "." t = true ↔ t.head? = some '.' := by
  rw [startsWith_iff]
  constructor
  · rintro ⟨rest, rfl⟩
    rfl
  · intro h
    obtain ⟨rest, rfl⟩ := List.head?_eq_some_iff.1 h
    exact ⟨rest, rfl⟩

theorem queryLine_iff : QueryLine line ↔ isCommand (trim line) = false := by
  rw [← Bool.not_eq_true, isCommand, Bool.or_eq_true, startsWith_dot_iff, isExitWord]
  simp [QueryLine]

/-- What the command of a given name makes of its argument. -/
def dispatch (line word arg : Text) : Except CommandError Command :=
  if word = ".help".toList then .ok .help
  else if word = ".bindings".toList then .ok .bindings
  else if word = ".bind".toList then parseBind arg
  else if word = ".unbind".toList then (variableName arg).map .unbind
  else if word = ".document".toList then .ok (parseDocument arg)
  else if word = ".sources".toList then .ok (.sources (sourcesLine line))
  else .error (.unknown word)

theorem parse_eq (line : Text) :
    parse line = if isCommand (trim line) = false then .ok (.complete line)
      else if trim line ∈ exitWords then .ok .exit
      else dispatch line (firstWord (trim line)).1 (firstWord (trim line)).2 := by
  have hexit : (isExitWord (trim line) || decide (trim line = ".exit".toList) ||
      decide (trim line = ".quit".toList)) = true ↔ trim line ∈ exitWords := by
    simp only [isExitWord, exitWords, Bool.or_eq_true, decide_eq_true_eq, List.mem_cons,
      List.not_mem_nil, or_false, or_assoc]
  unfold parse
  simp only [hexit, Bool.not_eq_true']
  rfl

theorem parse_of_queryLine (h : QueryLine line) : parse line = .ok (.complete line) := by
  rw [parse_eq, if_pos (queryLine_iff.1 h)]

theorem not_queryLine_of_exitLine (h : ExitLine line) : ¬ QueryLine line := by
  have hw := exitLine_iff.1 h
  rintro ⟨hdot, hexit, hquit⟩
  simp only [exitWords, List.mem_cons, List.not_mem_nil, or_false] at hw
  rcases hw with hw | hw | hw | hw
  · exact hexit hw
  · exact hquit hw
  · exact hdot (hw ▸ rfl)
  · exact hdot (hw ▸ rfl)

theorem parse_of_exitLine (h : ExitLine line) : parse line = .ok .exit := by
  have hcommand := mt queryLine_iff.2 (not_queryLine_of_exitLine h)
  rw [parse_eq, if_neg hcommand, if_pos (exitLine_iff.1 h)]

theorem parse_of_written (h : Written line word arg) (hdot : word.head? = some '.')
    (hexit : ¬ ExitLine line) : parse line = dispatch line word arg := by
  have hcommand : ¬ isCommand (trim line) = false := by
    rw [← queryLine_iff]
    rintro ⟨hhead, _⟩
    obtain ⟨rest, hrest⟩ := h.isPrefix
    rw [← hrest, List.head?_append_of_ne_nil _ h.word_ne_nil] at hhead
    exact hhead hdot
  rw [parse_eq, if_neg hcommand, if_neg (mt exitLine_iff.2 hexit),
    (firstWord_trim_iff h.word_ne_nil).2 h]

/-- Every line is a query, ends the session, or is a command with its argument. -/
theorem line_cases (line : Text) : QueryLine line ∨ ExitLine line ∨
    ∃ word arg, Written line word arg ∧ word.head? = some '.' ∧ ¬ ExitLine line := by
  by_cases hexit : ExitLine line
  · exact Or.inr (Or.inl hexit)
  by_cases hquery : QueryLine line
  · exact Or.inl hquery
  have hdot : (trim line).head? = some '.' := by
    by_contra hdot
    refine hquery ⟨hdot, fun hw => hexit ?_, fun hw => hexit ?_⟩ <;>
    · rw [exitLine_iff, hw]
      decide
  have hhead : (firstWord (trim line)).1.head? = some '.' := by
    rcases firstWord_cases (trim line) with hw | ⟨w, b, rest, ht, hb, hw⟩
    · rwa [firstWord_of_notBlank hw]
    · rw [ht, firstWord_append hw hb]
      cases w with
      | nil =>
        rw [ht] at hdot
        obtain rfl : b = '.' := by simpa using hdot
        exact absurd hb (by decide)
      | cons c w => simpa [ht] using hdot
  have hne : (firstWord (trim line)).1 ≠ [] := fun h => by simp [h] at hhead
  exact Or.inr (Or.inr ⟨_, _, (firstWord_trim_iff hne).1 rfl, hhead, hexit⟩)

/-- A letter or underscore, and then letters, digits, underscores and hyphens. -/
def IsName (n : Text) : Prop :=
  ∃ c cs, n = c :: cs ∧ ('A' ≤ c ∧ c ≤ 'Z' ∨ 'a' ≤ c ∧ c ≤ 'z' ∨ c = '_') ∧
    ∀ d ∈ cs, 'A' ≤ d ∧ d ≤ 'Z' ∨ 'a' ≤ d ∧ d ≤ 'z' ∨ '0' ≤ d ∧ d ≤ '9' ∨ d = '_' ∨ d = '-'

theorem isVariableName_iff {n : Text} : isVariableName n = true ↔ IsName n := by
  have halpha (c : Char) : c.isAlpha = true ↔ 'A' ≤ c ∧ c ≤ 'Z' ∨ 'a' ≤ c ∧ c ≤ 'z' := by
    have hranges : c.isAlpha = (decide ('A' ≤ c ∧ c ≤ 'Z') ||
        (decide ('a' ≤ c) && decide (c ≤ 'z'))) := rfl
    simp [hranges]
  have hdigit (c : Char) : c.isDigit = true ↔ '0' ≤ c ∧ c ≤ '9' := by
    simp [Char.isDigit, Char.le_def]
  cases n with
  | nil => simp [isVariableName, IsName]
  | cons c cs =>
    simp only [isVariableName, isNameStart, isNameChar, Char.isAlphanum, Bool.and_eq_true,
      Bool.or_eq_true, List.all_eq_true, halpha, hdigit, beq_iff_eq, IsName, or_assoc]
    constructor
    · exact fun h => ⟨c, cs, rfl, h⟩
    · rintro ⟨_, _, heq, h⟩
      obtain ⟨rfl, rfl⟩ := List.cons.inj heq
      exact h

theorem IsName.ne_dollar {n : Text} (h : IsName n) : n.head? ≠ some '$' := by
  obtain ⟨c, cs, rfl, hc, _⟩ := h
  rintro hd
  obtain rfl : c = '$' := by simpa using hd
  exact absurd hc (by decide)

/-- How a variable is written: by its name, which may have a dollar sign before it. -/
inductive Names : Text → Text → Prop
  | plain {n : Text} (h : IsName n) : Names n n
  | dollar {n : Text} (h : IsName n) : Names ('$' :: n) n

theorem variableName_eq_ok_iff {t n : Text} : variableName t = .ok n ↔ Names t n := by
  by_cases hd : t.head? = some '$'
  · obtain ⟨rest, rfl⟩ := List.head?_eq_some_iff.1 hd
    have hdrop : dropStart? ['$'] ('$' :: rest) = some rest := dropStart?_eq_some_iff.2 rfl
    simp only [variableName, hdrop, Option.getD_some]
    constructor
    · intro h
      split_ifs at h with hname
      obtain rfl := Except.ok.inj h
      exact .dollar (isVariableName_iff.1 hname)
    · intro h
      cases h with
      | plain h => exact absurd rfl h.ne_dollar
      | dollar h => rw [if_pos (isVariableName_iff.2 h)]
  · have hdrop : dropStart? ['$'] t = none := by
      cases h : dropStart? ['$'] t with
      | none => rfl
      | some rest =>
        rw [dropStart?_eq_some_iff.1 h] at hd
        exact absurd rfl hd
    simp only [variableName, hdrop, Option.getD_none]
    constructor
    · intro h
      split_ifs at h with hname
      obtain rfl := Except.ok.inj h
      exact .plain (isVariableName_iff.1 hname)
    · intro h
      cases h with
      | plain h => rw [if_pos (isVariableName_iff.2 h)]
      | dollar h => exact absurd rfl hd

/-- The value that a text stands for: no text for null, JSON for its value, and any other text for
itself. -/
def valueOf (t : Text) : Json :=
  if t = [] then .null
  else match Json.parse? t with
    | some v => v
    | none => .str t

theorem valueOf_eq (t : Text) : valueOf t = if t = [] then .null else Json.parseOrText t := by
  rw [valueOf, Json.parseOrText]
  cases Json.parse? t <;> rfl

def BindLine (line n : Text) (v : Json) : Prop :=
  ∃ arg var text, Written line ".bind" arg ∧ Written arg var text ∧ Names var n ∧ v = valueOf text

def UnbindLine (line n : Text) : Prop := ∃ var, Written line ".unbind" var ∧ Names var n

/-- The document with the given words: the root and the tags below it, or none at all. -/
def documentOf : List Text → Option Document
  | [] => none
  | root :: tags => some (Document.ofTags root tags)

def DocumentLine (line : Text) (d : Option Document) : Prop :=
  ∃ arg, Written line ".document" arg ∧ d = documentOf (words arg)

theorem Names.isName {t n : Text} (h : Names t n) : IsName n := by
  cases h with
  | plain h => exact h
  | dollar h => exact h

theorem Names.ne_nil {t n : Text} (h : Names t n) : t ≠ [] := by
  cases h with
  | plain h =>
    obtain ⟨c, cs, rfl, _⟩ := h
    simp
  | dollar => simp

theorem parseBind_eq_ok_iff {cmd : Command} (harg : Tight arg) :
    parseBind arg = .ok cmd ↔
      ∃ var text n, Written arg var text ∧ Names var n ∧ cmd = .bind n (valueOf text) := by
  have hparse : parseBind arg = (variableName (firstWord arg).1).map fun n =>
      .bind n (valueOf (firstWord arg).2) := by
    simp only [parseBind, valueOf_eq, List.isEmpty_iff]
  have hfirst {var text : Text} (hne : var ≠ []) :
      firstWord arg = (var, text) ↔ Written arg var text := by
    rw [← firstWord_trim_iff hne, trim_of_tight harg]
  rw [hparse]
  constructor
  · intro h
    cases hname : variableName (firstWord arg).1 with
    | error e => simp [hname, Except.map] at h
    | ok n =>
      have hnames := variableName_eq_ok_iff.1 hname
      refine ⟨(firstWord arg).1, (firstWord arg).2, n, (hfirst hnames.ne_nil).1 rfl, hnames, ?_⟩
      simpa [hname, Except.map] using h.symm
  · rintro ⟨var, text, n, hw, hnames, rfl⟩
    rw [(hfirst hnames.ne_nil).2 hw, variableName_eq_ok_iff.2 hnames]
    rfl

/-- The grammar of lines: which lines stand for a command. -/
inductive Reads (line : Text) : Command → Prop
  | query (h : QueryLine line) : Reads line (.complete line)
  | exit (h : ExitLine line) : Reads line .exit
  | help {arg : Text} (h : Written line ".help" arg) : Reads line .help
  | bindings {arg : Text} (h : Written line ".bindings" arg) : Reads line .bindings
  | bind {n : Text} {v : Json} (h : BindLine line n v) : Reads line (.bind n v)
  | unbind {n : Text} (h : UnbindLine line n) : Reads line (.unbind n)
  | document {arg root : Text} {tags : List Text} (h : Written line ".document" arg)
      (hwords : words arg = root :: tags) : Reads line (.document root tags)
  | clearDocument {arg : Text} (h : Written line ".document" arg) (hwords : words arg = []) :
      Reads line .clearDocument
  | sources {arg : Text} (h : Written line ".sources" arg) :
      Reads line (.sources (sourcesLine line))

theorem not_exitLine_of_written (h : Written line word arg) (hw : word ∉ exitWords) :
    ¬ ExitLine line := by
  rintro ⟨w, hmem, hexit⟩
  exact hw ((h.inj hexit).1 ▸ hmem)

theorem reads_of_dispatch {cmd : Command} (h : Written line word arg)
    (hcmd : dispatch line word arg = .ok cmd) : Reads line cmd := by
  unfold dispatch at hcmd
  split_ifs at hcmd with h₁ h₂ h₃ h₄ h₅ h₆
  · exact Except.ok.inj hcmd ▸ .help (h₁ ▸ h)
  · exact Except.ok.inj hcmd ▸ .bindings (h₂ ▸ h)
  · obtain ⟨var, text, n, hw, hnames, rfl⟩ := (parseBind_eq_ok_iff h.arg_tight).1 hcmd
    exact .bind ⟨arg, var, text, h₃ ▸ h, hw, hnames, rfl⟩
  · cases hname : variableName arg with
    | error e => simp [hname, Except.map] at hcmd
    | ok n =>
      obtain rfl : Command.unbind n = cmd := by simpa [hname, Except.map] using hcmd
      exact .unbind ⟨arg, h₄ ▸ h, variableName_eq_ok_iff.1 hname⟩
  · obtain rfl := Except.ok.inj hcmd
    unfold parseDocument
    split
    · rename_i root tags hwords
      exact .document (h₅ ▸ h) hwords
    · rename_i hwords
      exact .clearDocument (h₅ ▸ h) hwords
  · exact Except.ok.inj hcmd ▸ .sources (h₆ ▸ h)

/-- A line is read as a command exactly if it is written as one. -/
theorem parse_eq_ok_iff {cmd : Command} : parse line = .ok cmd ↔ Reads line cmd := by
  have hdispatch {word arg : Text} (h : Written line word arg) (hdot : word.head? = some '.')
      (hw : word ∉ exitWords) : parse line = dispatch line word arg :=
    parse_of_written h hdot (not_exitLine_of_written h hw)
  constructor
  · intro hcmd
    rcases line_cases line with h | h | ⟨word, arg, h, hdot, hexit⟩
    · rw [parse_of_queryLine h] at hcmd
      exact Except.ok.inj hcmd ▸ .query h
    · rw [parse_of_exitLine h] at hcmd
      exact Except.ok.inj hcmd ▸ .exit h
    · rw [parse_of_written h hdot hexit] at hcmd
      exact reads_of_dispatch h hcmd
  · intro hcmd
    cases hcmd with
    | query h => exact parse_of_queryLine h
    | exit h => exact parse_of_exitLine h
    | help h => rw [hdispatch h (by decide) (by decide)]; rfl
    | bindings h => rw [hdispatch h (by decide) (by decide)]; rfl
    | bind h =>
      obtain ⟨arg, var, text, h, hw, hnames, rfl⟩ := h
      rw [hdispatch h (by decide) (by decide)]
      exact (parseBind_eq_ok_iff h.arg_tight).2 ⟨var, text, _, hw, hnames, rfl⟩
    | unbind h =>
      obtain ⟨var, h, hnames⟩ := h
      rw [hdispatch h (by decide) (by decide)]
      change (variableName var).map Command.unbind = _
      rw [variableName_eq_ok_iff.2 hnames]
      rfl
    | document h hwords =>
      rw [hdispatch h (by decide) (by decide)]
      change Except.ok (parseDocument _) = _
      rw [parseDocument, hwords]
    | clearDocument h hwords =>
      rw [hdispatch h (by decide) (by decide)]
      change Except.ok (parseDocument _) = _
      rw [parseDocument, hwords]
    | sources h => rw [hdispatch h (by decide) (by decide)]; rfl

end Command
end ManifestShell
