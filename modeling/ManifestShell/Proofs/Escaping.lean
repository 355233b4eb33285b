import Mathlib.Data.List.Basic
import ManifestShell.Glob
import ManifestShell.Proofs.Segments

/-! Escaped texts as patterns.
An escaped text is always a valid pattern, it matches the text itself and nothing else, and it is
cut at the same separators.  What follows an escaped text is scanned as if nothing stood before it. -/
namespace ManifestShell.Glob

/-- The characters that have a meaning of their own in a pattern. -/
def IsWild (c : Char) : Prop := c = '?' ∨ c = '*' ∨ c = '[' ∨ c = ']'

instance (c : Char) : Decidable (IsWild c) :=
  inferInstanceAs (Decidable (c = '?' ∨ c = '*' ∨ c = '[' ∨ c = ']'))

def exactToken (c : Char) : Token := if IsWild c then .oneOf [(c, c)] else .char c

def escapeChar (c : Char) : Text := if IsWild c then ['[', c, ']'] else [c]

@[simp] theorem escape_nil : escape [] = [] := rfl

@[simp] theorem escape_cons (c : Char) (t : Text) :
    escape (c :: t) = escapeChar c ++ escape t := rfl

theorem escape_append (s t : Text) : escape (s ++ t) = escape s ++ escape t := by
  simp [escape]

theorem scan_cons_of_step {s s' : ScanState} {pos : Nat} {c : Char} {ts : List Token}
    (h : scanStep pos c s = .ok (ts, s')) (cs : Text) :
    scan s pos (c :: cs) = (ts ++ ·) <$> scan s' (pos + 1) cs := by
  rw [scan, h]
  cases hr : scan s' (pos + 1) cs <;> simp [bind, Except.bind, hr, pure, Except.pure]

/-- Whatever was scanned before, an escaped character becomes its token, and the scanner remembers
only whether it was a separator. -/
theorem scan_escapeChar (fresh : Bool) (pos : Nat) (c : Char) (rest : Text) :
    ∃ next, scan (.between fresh) pos (escapeChar c ++ rest) =
      (exactToken c :: ·) <$> scan (.between (c == '/')) next rest := by
  by_cases hc : IsWild c
  · have hslash : (c == '/') = false := by
      rcases hc with rfl | rfl | rfl | rfl <;> rfl
    have hbang : c ≠ '!' := by
      rcases hc with rfl | rfl | rfl | rfl <;> decide
    have h₁ : scanStep pos '[' (.between fresh) = .ok ([], .classOpen pos) := rfl
    have h₂ : scanStep (pos + 1) c (.classOpen pos) = .ok ([], .classBody pos false [c]) := by
      simp [scanStep, hbang]
    have h₃ : scanStep (pos + 1 + 1) ']' (.classBody pos false [c]) =
        .ok ([exactToken c], .between (c == '/')) := by
      simp [scanStep, exactToken, hc, hslash, classToken, classRanges]
    refine ⟨pos + 1 + 1 + 1, ?_⟩
    rw [escapeChar, if_pos hc, List.cons_append, scan_cons_of_step h₁, List.cons_append,
      scan_cons_of_step h₂, List.cons_append, scan_cons_of_step h₃]
    simp only [List.nil_append, id_map', List.cons_append]
  · have hn : c ≠ '?' ∧ c ≠ '*' ∧ c ≠ '[' := by
      simp only [IsWild, not_or] at hc
      exact ⟨hc.1, hc.2.1, hc.2.2.1⟩
    have h₁ : scanStep pos c (.between fresh) = .ok ([exactToken c], .between (c == '/')) := by
      simp [scanStep, scanFresh, exactToken, hc, hn.1, hn.2.1, hn.2.2]
    refine ⟨pos + 1, ?_⟩
    rw [escapeChar, if_neg hc, List.cons_append, List.nil_append, scan_cons_of_step h₁]
    rfl

theorem scan_escape (fresh : Bool) (pos : Nat) (t rest : Text) :
    ∃ fresh' next, scan (.between fresh) pos (escape t ++ rest) =
      (t.map exactToken ++ ·) <$> scan (.between fresh') next rest := by
  induction t generalizing fresh pos with
  | nil => exact ⟨fresh, pos, by simp⟩
  | cons c t ih =>
    obtain ⟨next, hc⟩ := scan_escapeChar fresh pos c (escape t ++ rest)
    obtain ⟨fresh', next', ht⟩ := ih (c == '/') next
    refine ⟨fresh', next', ?_⟩
    rw [escape_cons, List.append_assoc, hc, ht]
    simp only [← comp_map, List.map_cons, List.cons_append]
    rfl

theorem parse_escape (t : Text) : parse (escape t) = .ok (t.map exactToken) := by
  obtain ⟨fresh, next, h⟩ := scan_escape true 0 t []
  rw [List.append_nil] at h
  rw [parse, h]
  simp [scan, scanEnd, Functor.map, Except.map]

/-- An escaped text in front keeps a pattern valid, if that is valid wherever it stands. -/
theorem parse_escape_append {rest : Text} {ts : List Token} (t : Text)
    (h : ∀ fresh pos, scan (.between fresh) pos rest = .ok ts) :
    parse (escape t ++ rest) = .ok (t.map exactToken ++ ts) := by
  obtain ⟨fresh, next, ht⟩ := scan_escape true 0 t rest
  rw [parse, ht, h]
  rfl

theorem admits_exactToken {c d : Char} : (exactToken c).admits d = true ↔ d = c := by
  by_cases hc : IsWild c
  · have hslash : c ≠ '/' := by
      rcases hc with rfl | rfl | rfl | rfl <;> decide
    simp only [exactToken, hc, if_true, Token.admits, inRanges, List.any_cons, List.any_nil,
      Bool.or_false, Bool.and_eq_true, bne_iff_ne, decide_eq_true_eq]
    constructor
    · rintro ⟨_, hle, hge⟩
      exact Char.le_antisymm hge hle
    · rintro rfl
      exact ⟨hslash, Char.le_refl _, Char.le_refl _⟩
  · simp [exactToken, hc, Token.admits]

theorem matchesText_exact_cons (c d : Char) (ts : List Token) (name : Text) :
    matchesText (exactToken c :: ts) (d :: name) =
      ((exactToken c).admits d && matchesText ts name) := by
  unfold exactToken
  split_ifs <;> rw [matchesText] <;> simp

theorem matchesText_exact_nil (c : Char) (ts : List Token) :
    matchesText (exactToken c :: ts) [] = false := by
  unfold exactToken
  split_ifs <;> rw [matchesText] <;> simp

theorem matchesText_exact {t name : Text} :
    matchesText (t.map exactToken) name = true ↔ name = t := by
  induction t generalizing name with
  | nil => simp [matchesText]
  | cons c t ih =>
    cases name with
    | nil => simp [matchesText_exact_nil]
    | cons d name => simp [matchesText_exact_cons, admits_exactToken, ih]

theorem literal?_exact_eq_some {t u : Text} (h : literal? (t.map exactToken) = some u) : u = t := by
  induction t generalizing u with
  | nil => simpa [literal?] using h.symm
  | cons c t ih =>
    by_cases hc : IsWild c
    · simp [exactToken, hc, literal?] at h
    · simp only [List.map_cons, exactToken, hc, if_false, literal?] at h
      obtain ⟨v, hv, rfl⟩ := Option.map_eq_some_iff.1 h
      rw [ih hv]

theorem exists_wild_of_literal?_exact {t : Text} (h : literal? (t.map exactToken) = none) :
    ∃ c ∈ t, IsWild c := by
  induction t with
  | nil => simp [literal?] at h
  | cons c t ih =>
    by_cases hc : IsWild c
    · exact ⟨c, List.mem_cons_self, hc⟩
    · simp only [List.map_cons, exactToken, hc, if_false, literal?, Option.map_eq_none_iff] at h
      obtain ⟨d, hd, hw⟩ := ih h
      exact ⟨d, List.mem_cons_of_mem _ hd, hw⟩

theorem map_exactToken_ne (t : Text) : t.map exactToken ≠ [.anyComponents] := by
  cases t with
  | nil => simp
  | cons c t =>
    by_cases hc : IsWild c <;> simp [exactToken, hc]

theorem mem_runTails {t u : Text} : u ∈ runTails t ↔ ∃ run, '/' ∉ run ∧ t = run ++ u := by
  induction t with
  | nil => simp [runTails]
  | cons c t ih =>
    have hlonger : (∃ run, '/' ∉ run ∧ c :: t = run ++ u) ↔
        u = c :: t ∨ (c ≠ '/' ∧ ∃ run, '/' ∉ run ∧ t = run ++ u) := by
      constructor
      · rintro ⟨_ | ⟨d, run⟩, hrun, heq⟩
        · exact Or.inl heq.symm
        · obtain ⟨rfl, rfl⟩ := List.cons.inj heq
          rw [List.mem_cons, not_or] at hrun
          exact Or.inr ⟨Ne.symm hrun.1, run, hrun.2, rfl⟩
      · rintro (rfl | ⟨hc, run, hrun, rfl⟩)
        · exact ⟨[], List.not_mem_nil, rfl⟩
        · exact ⟨c :: run, by simp [Ne.symm hc, hrun], rfl⟩
    rw [runTails, List.mem_cons, hlonger]
    by_cases hc : c = '/' <;> simp [hc, ih]

theorem matchesText_anyRun_iff {ts : List Token} {t : Text} :
    matchesText (.anyRun :: ts) t = true ↔
      ∃ run rest, '/' ∉ run ∧ t = run ++ rest ∧ matchesText ts rest = true := by
  rw [matchesText, List.any_eq_true]
  simp only [mem_runTails]
  constructor
  · rintro ⟨rest, ⟨run, hrun, ht⟩, hrest⟩
    exact ⟨run, rest, hrun, ht, hrest⟩
  · rintro ⟨run, rest, hrun, ht, hrest⟩
    exact ⟨rest, ⟨run, hrun, ht⟩, hrest⟩

theorem matchesText_run_iff {y : Text} : matchesText [.anyRun] y = true ↔ '/' ∉ y := by
  rw [matchesText_anyRun_iff]
  simp [matchesText]

theorem notMem_escapeChar {c : Char} (h : c ≠ '/') : '/' ∉ escapeChar c := by
  unfold escapeChar
  split_ifs <;> simp [h.symm]

theorem notMem_escape {t : Text} (h : '/' ∉ t) : '/' ∉ escape t := by
  intro hm
  obtain ⟨c, hc, hm⟩ := List.mem_flatMap.1 hm
  exact notMem_escapeChar (fun hs => h (hs ▸ hc)) hm

theorem splitOn_escape (t : Text) :
    Text.splitOn '/' (escape t) = (Text.splitOn '/' t).map escape := by
  induction t using Text.cutInduction '/' with
  | piece t ht =>
    rw [Text.splitOn_of_notMem ht, Text.splitOn_of_notMem (notMem_escape ht)]
    rfl
  | cut before after hafter ih =>
    have hslash : escape (before ++ '/' :: after) = escape before ++ '/' :: escape after := by
      rw [escape_append]
      rfl
    rw [hslash, Text.splitOn_append_cons, Text.splitOn_append_cons, ih,
      Text.splitOn_of_notMem hafter, Text.splitOn_of_notMem (notMem_escape hafter),
      List.map_append]
    rfl

theorem scanFresh_separator {fresh : Bool} {pos : Nat} {c : Char}
    (hm : Token.char '/' ∈ (scanFresh fresh pos c).1) : c = '/' := by
  unfold scanFresh at hm
  split_ifs at hm <;> simp at hm
  exact hm.symm

theorem scanStep_separator {pos : Nat} {c : Char} {s s' : ScanState} {ts : List Token}
    (h : scanStep pos c s = .ok (ts, s')) (hm : Token.char '/' ∈ ts) : c = '/' := by
  cases s with
  | between fresh =>
    obtain rfl : (scanFresh fresh pos c).1 = ts := congrArg Prod.fst (Except.ok.inj h)
    exact scanFresh_separator hm
  | star fresh start =>
    simp only [scanStep] at h
    split_ifs at h
    · obtain rfl : [] = ts := congrArg Prod.fst (Except.ok.inj h)
      simp at hm
    · obtain rfl : Token.anyRun :: (scanFresh false pos c).1 = ts :=
        congrArg Prod.fst (Except.ok.inj h)
      exact scanFresh_separator (by simpa using hm)
  | stars fresh start =>
    simp only [scanStep] at h
    split_ifs at h
    obtain rfl : [Token.anyComponents] = ts := congrArg Prod.fst (Except.ok.inj h)
    simp at hm
  | classOpen start =>
    simp only [scanStep] at h
    split_ifs at h
    all_goals
      obtain rfl : [] = ts := congrArg Prod.fst (Except.ok.inj h)
      simp at hm
  | classNegated start =>
    obtain rfl : [] = ts := congrArg Prod.fst (Except.ok.inj h)
    simp at hm
  | classBody start negated body =>
    simp only [scanStep] at h
    split_ifs at h
    · obtain rfl : [classToken negated body] = ts := congrArg Prod.fst (Except.ok.inj h)
      unfold classToken at hm
      split_ifs at hm <;> simp at hm
    · obtain rfl : [] = ts := congrArg Prod.fst (Except.ok.inj h)
      simp at hm

theorem scanEnd_separator {s : ScanState} {ts : List Token} (h : scanEnd s = .ok ts) :
    Token.char '/' ∉ ts := by
  cases s with
  | between fresh =>
    obtain rfl : [] = ts := Except.ok.inj h
    simp
  | star fresh start =>
    obtain rfl : [Token.anyRun] = ts := Except.ok.inj h
    simp
  | stars fresh start =>
    simp only [scanEnd] at h
    split_ifs at h
    obtain rfl : [Token.anyComponents] = ts := Except.ok.inj h
    simp
  | classOpen start | classNegated start | classBody start _ _ => simp [scanEnd] at h

theorem scan_separator {pos : Nat} {s : ScanState} {t : Text} {ts : List Token}
    (h : scan s pos t = .ok ts) (hm : Token.char '/' ∈ ts) : '/' ∈ t := by
  induction t generalizing pos s ts with
  | nil => exact absurd hm (scanEnd_separator h)
  | cons c t ih =>
    cases hs : scanStep pos c s with
    | error e => simp [scan, hs, bind, Except.bind] at h
    | ok p =>
      rw [scan_cons_of_step hs] at h
      cases hr : scan p.2 (pos + 1) t with
      | error e => simp [hr] at h
      | ok rest =>
        obtain rfl : p.1 ++ rest = ts := by simpa [hr] using h
        rcases List.mem_append.1 hm with hm | hm
        · rw [scanStep_separator hs hm]
          exact List.mem_cons_self
        · exact List.mem_cons_of_mem _ (ih hr hm)

theorem mem_of_literal? {ts : List Token} {name : Text} {c : Char} (h : literal? ts = some name)
    (hc : c ∈ name) : Token.char c ∈ ts := by
  induction ts generalizing name with
  | nil =>
    obtain rfl : [] = name := by simpa [literal?] using h
    simp at hc
  | cons k ts ih =>
    cases k with
    | char d =>
      obtain ⟨u, hu, rfl⟩ := Option.map_eq_some_iff.1 h
      rcases List.mem_cons.1 hc with rfl | hc
      · exact List.mem_cons_self
      · exact List.mem_cons_of_mem _ (ih hu hc)
    | anyChar | anyRun | anyComponents | oneOf _ | noneOf _ => simp [literal?] at h

theorem literal?_no_separator {t name : Text} {ts : List Token} (h : parse t = .ok ts)
    (ht : '/' ∉ t) (hl : literal? ts = some name) : '/' ∉ name :=
  fun hc => ht (scan_separator h (mem_of_literal? hl hc))

end ManifestShell.Glob
