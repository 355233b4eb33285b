import ManifestShell.Proofs.JsonScalars
import ManifestShell.Toml.Quoted

/-! Texts in TOML, written and read back.
A text is written in one of four notations.  The two in double quotes are one written form, with
escapes for what needs them, and differ in whether line feeds and up to two quotes in a row stand as
they are; where nothing needs an escape, the written form is the text itself.  The two in single
quotes hold the text as it is. -/
namespace ManifestShell.Toml

/-! ### Escapes -/

/-- How a reader of texts in double quotes passes an escape. -/
structure ReadsEscapes (read : QuoteState → Reader Text) : Prop where
  slash (cs : Text) : read .plain ('\\' :: cs) = read .escape cs
  short {c d : Char} (cs : Text) (h : shortEscape? c = some d) :
    read .escape (c :: cs) = prepend d (read .plain cs)
  code (cs : Text) : read .escape ('u' :: cs) = read (.code 3 0) cs
  digit {c : Char} {d : Nat} (left n : Nat) (cs : Text) (h : Json.hexValue? c = some d) :
    read (.code (left + 1) n) (c :: cs) = read (.code left (16 * n + d)) cs
  last {c ch : Char} {d : Nat} (n : Nat) (cs : Text) (h : Json.hexValue? c = some d)
    (hch : charOfCode? (16 * n + d) = some ch) :
    read (.code 0 n) (c :: cs) = prepend ch (read .plain cs)

theorem basicFrom_plain (c : Char) (cs : Text) :
    basicFrom .plain (c :: cs) =
      if c = '"' then some ([], cs)
      else if c = '\\' then basicFrom .escape cs
      else if isControl c then none
      else prepend c (basicFrom .plain cs) := rfl

theorem readsEscapes_basicFrom : ReadsEscapes basicFrom where
  slash cs := by rfl
  short cs h := by rw [basicFrom, h]
  code cs := by rfl
  digit left n cs h := by rw [basicFrom, h]; rfl
  last n cs h hch := by rw [basicFrom, h, Option.bind_some, hch]; rfl

theorem readsEscapes_multiBasicFrom : ReadsEscapes multiBasicFrom where
  slash cs := by rfl
  short cs h := by rw [multiBasicFrom, h]
  code cs := by rfl
  digit left n cs h := by rw [multiBasicFrom, h]; rfl
  last n cs h hch := by rw [multiBasicFrom, h, Option.bind_some, hch]; rfl

theorem hexValue?_upperHexDigit (n : Nat) : Json.hexValue? (upperHexDigit n) = some (n % 16) := by
  have hall : ∀ k < 16, Json.hexValue? (Nat.digitChar k).toUpper = some k := by decide
  exact hall (n % 16) (Nat.mod_lt n (by decide))

theorem charOfCode?_toNat (c : Char) : charOfCode? c.toNat = some c := by
  rw [charOfCode?, if_pos (show c.toNat.isValidChar from c.valid), Char.ofNat_toNat]

theorem ReadsEscapes.escapeChar {read : QuoteState → Reader Text} (h : ReadsEscapes read) {c : Char}
    (hc : c.toNat < 256) (rest : Text) :
    read .plain (escapeChar c ++ rest) = prepend c (read .plain rest) := by
  have hcode {n : Nat} (hn : c.toNat = n) : Char.ofNat n = c := hn ▸ Char.ofNat_toNat c
  have hshort (d : Char) (hd : shortEscape? d = some c) :
      read .plain ('\\' :: d :: rest) = prepend c (read .plain rest) := by
    rw [h.slash, h.short rest hd]
  unfold Toml.escapeChar
  split_ifs with hback htab hfeed hform hreturn hquote hslash
  · exact hshort 'b' (by rw [← hcode hback]; rfl)
  · exact hshort 't' (htab ▸ by decide)
  · exact hshort 'n' (hfeed ▸ by decide)
  · exact hshort 'f' (by rw [← hcode hform]; rfl)
  · exact hshort 'r' (hreturn ▸ by decide)
  · exact hshort '"' (by rw [hquote]; rfl)
  · exact hshort '\\' (by rw [hslash]; rfl)
  · have hzero : Json.hexValue? '0' = some 0 := by decide
    have hvalue : 16 * (16 * (16 * (16 * 0 + 0) + 0) + c.toNat / 16 % 16) + c.toNat % 16 =
        c.toNat := by omega
    change read .plain ('\\' :: 'u' :: '0' :: '0' :: upperHexDigit (c.toNat / 16) ::
      upperHexDigit c.toNat :: rest) = _
    rw [h.slash, h.code, h.digit 2 _ _ hzero, h.digit 1 _ _ hzero,
      h.digit 0 _ _ (hexValue?_upperHexDigit _), h.last _ _ (hexValue?_upperHexDigit _)]
    rw [hvalue, charOfCode?_toNat]

theorem lt_of_needsCode {c : Char} (h : needsCode c = true ∨ c = '\n' ∨ c = '\\') :
    c.toNat < 256 := by
  rcases h with h | rfl | rfl
  · simp only [needsCode, Bool.or_eq_true, Bool.and_eq_true, decide_eq_true_eq, beq_iff_eq] at h
    omega
  · decide
  · decide

theorem isControl_eq_false {c : Char} (h : needsCode c = false) (hfeed : c ≠ '\n') :
    isControl c = false := by
  simp only [needsCode, Bool.or_eq_false_iff, Bool.and_eq_false_iff, decide_eq_false_iff_not,
    bne_eq_false_iff_eq, beq_eq_false_iff_ne, hfeed, or_false] at h
  simp [isControl, h]

/-! ### Double quotes -/

variable {t rest : Text} {c : Char}

theorem basicFrom_escapeAll (t rest : Text) :
    basicFrom .plain (escapeAll 0 false 0 t ++ '"' :: rest) = some (t, rest) := by
  induction t with
  | nil => rfl
  | cons c t ih =>
    rw [escapeAll]
    split_ifs with hquote hzero hline hescaped
    · rw [List.append_assoc, readsEscapes_basicFrom.escapeChar (by rw [hquote]; decide), ih]
      rfl
    · exact absurd (Nat.zero_le 0) hzero
    · cases hline.2
    · rw [List.append_assoc, readsEscapes_basicFrom.escapeChar (lt_of_needsCode hescaped), ih]
      rfl
    · simp only [not_or, Bool.not_eq_true] at hescaped
      obtain ⟨hcode, hfeed, hslash⟩ := hescaped
      rw [List.cons_append, basicFrom_plain, if_neg hquote, if_neg hslash,
        if_neg (by simp [isControl_eq_false hcode hfeed]), ih]
      rfl

/-- Where a reader over several lines stands after so many quotes in a row. -/
def afterQuotes (count : Nat) : QuoteState := if count = 0 then .plain else .quotes count

theorem multiBasicFrom_plain (c : Char) (cs : Text) :
    multiBasicFrom .plain (c :: cs) =
      if c = '"' then multiBasicFrom (.quotes 1) cs
      else if c = '\\' then multiBasicFrom .escape cs
      else if c = '\r' then prepend c (multiBasicFrom .afterReturn cs)
      else if isControl c && c != '\n' then none
      else prepend c (multiBasicFrom .plain cs) := rfl

theorem multiBasicFrom_quote {count : Nat} (h : count < 4) (cs : Text) :
    multiBasicFrom (afterQuotes count) ('"' :: cs) =
      multiBasicFrom (afterQuotes (count + 1)) cs := by
  cases count with
  | zero => rfl
  | succ n =>
    have hne : n + 1 ≠ 4 := by omega
    change (if n + 1 = 4 then _ else _) = _
    rw [if_neg hne]
    rfl

theorem multiBasicFrom_other {count : Nat} (hc : c ≠ '"') (h : count < 3) (cs : Text) :
    multiBasicFrom (afterQuotes count) (c :: cs) =
      prependAll (List.replicate count '"') (multiBasicFrom .plain (c :: cs)) := by
  cases count with
  | zero =>
    change multiBasicFrom .plain (c :: cs) = Option.map _ _
    simp
  | succ n =>
    have hlt : ¬ 3 ≤ n + 1 := by omega
    rw [multiBasicFrom_plain, if_neg hc]
    change (if c = '"' then _ else if 3 ≤ n + 1 then _ else _) = _
    rw [if_neg hc, if_neg hlt]

theorem multiBasicFrom_closed {count : Nat} (h : 3 ≤ count) (hrest : rest.head? ≠ some '"') :
    multiBasicFrom (.quotes count) rest = some (closing '"' count rest) := by
  cases rest with
  | nil => exact if_pos h
  | cons c cs =>
    have hc : c ≠ '"' := fun hc => hrest (by rw [hc]; rfl)
    change (if c = '"' then _ else if 3 ≤ count then _ else _) = _
    rw [if_neg hc, if_pos h]

/-- Three quotes close a text, and up to two before them belong to it. -/
theorem multiBasicFrom_close {count : Nat} (h : count ≤ 2) (hrest : rest.head? ≠ some '"') :
    multiBasicFrom (afterQuotes count) ('"' :: '"' :: '"' :: rest) =
      some (List.replicate count '"', rest) := by
  rw [multiBasicFrom_quote (by omega), multiBasicFrom_quote (by omega)]
  by_cases hfull : count = 2
  · subst hfull
    rfl
  · rw [multiBasicFrom_quote (by omega)]
    exact multiBasicFrom_closed (by omega) hrest

theorem exists_escapeChar (c : Char) : ∃ cs, escapeChar c = '\\' :: cs := by
  unfold escapeChar
  split_ifs <;> exact ⟨_, rfl⟩

theorem multiBasicFrom_escapeChar (hc : c.toNat < 256) {count : Nat} (h : count ≤ 2) (t : Text) :
    multiBasicFrom (afterQuotes count) (escapeChar c ++ t) =
      prependAll (List.replicate count '"') (prepend c (multiBasicFrom .plain t)) := by
  obtain ⟨cs, hcs⟩ := exists_escapeChar c
  rw [← readsEscapes_multiBasicFrom.escapeChar hc, hcs, List.cons_append,
    multiBasicFrom_other (by decide) (by omega)]

/-- The invariant counts the quotes in a row that were just passed: they are still to be given
out, since it is not known yet whether they close the text. -/
theorem multiBasicFrom_escapeAll (hrest : rest.head? ≠ some '"') {count : Nat} (h : count ≤ 2)
    (t : Text) :
    multiBasicFrom (afterQuotes count) (escapeAll 2 true count t ++ '"' :: '"' :: '"' :: rest) =
      some (List.replicate count '"' ++ t, rest) := by
  induction t generalizing count with
  | nil => rw [escapeAll, List.nil_append, multiBasicFrom_close h hrest, List.append_nil]
  | cons c t ih =>
    have hplain : multiBasicFrom .plain (escapeAll 2 true 0 t ++ '"' :: '"' :: '"' :: rest) =
        some (t, rest) := ih (Nat.zero_le 2)
    rw [escapeAll]
    split_ifs with hquote hfull hline hescaped
    · rw [List.append_assoc, multiBasicFrom_escapeChar (by rw [hquote]; decide) h, hplain]
      rfl
    · rw [hquote, List.cons_append, multiBasicFrom_quote (by omega), ih (by omega),
        List.replicate_succ', List.append_assoc]
      rfl
    · rw [hline.1, List.cons_append, multiBasicFrom_other (by decide) (by omega),
        multiBasicFrom_plain, hplain]
      rfl
    · rw [List.append_assoc, multiBasicFrom_escapeChar (lt_of_needsCode hescaped) h, hplain]
      rfl
    · simp only [not_or, Bool.not_eq_true] at hescaped
      obtain ⟨hcode, hfeed, hslash⟩ := hescaped
      have hreturn : c ≠ '\r' := by
        rintro rfl
        cases hcode
      rw [List.cons_append, multiBasicFrom_other hquote (by omega), multiBasicFrom_plain,
        if_neg hquote, if_neg hslash, if_neg hreturn,
        if_neg (by simp [isControl_eq_false hcode hfeed]), hplain]
      rfl

theorem le_longestRun_go (c : Char) (run best : Nat) (t : Text) :
    run ≤ longestRun.go c run best t := by
  suffices hmax : max run best ≤ longestRun.go c run best t by omega
  induction t generalizing run best with
  | nil => exact Nat.le_refl _
  | cons d t ih =>
    rw [longestRun.go]
    split_ifs
    · exact Nat.le_trans (by omega) (ih (run + 1) best)
    · exact Nat.le_trans (by omega) (ih 0 (max run best))

theorem notMem_of_longestRun (h : longestRun c t = 0) : c ∉ t := by
  suffices hgo : ∀ run best, longestRun.go c run best t = 0 → c ∉ t from hgo 0 0 h
  clear h
  induction t with
  | nil => exact fun _ _ _ => List.not_mem_nil
  | cons d t ih =>
    intro run best h
    rw [longestRun.go] at h
    split_ifs at h with hd
    · have hle := le_longestRun_go c (run + 1) best t
      omega
    · exact List.not_mem_cons_of_ne_of_not_mem (Ne.symm hd) (ih _ _ h)

/-- Where nothing needs an escape and no more quotes than allowed stand in a row, the written form
is the text itself. -/
theorem escapeAll_eq_self {allowed count best : Nat} {multiLine : Bool}
    (hrun : longestRun.go '"' count best t ≤ allowed)
    (hcodes : ∀ c ∈ t, needsCode c = false ∧ c ≠ '\\') (hlines : multiLine = false → '\n' ∉ t) :
    escapeAll allowed multiLine count t = t := by
  induction t generalizing count best with
  | nil => rfl
  | cons c t ih =>
    obtain ⟨⟨hcode, hslash⟩, hcodes⟩ := List.forall_mem_cons.1 hcodes
    have hrest : multiLine = false → '\n' ∉ t := fun h => List.not_mem_of_not_mem_cons (hlines h)
    rw [longestRun.go] at hrun
    rw [escapeAll]
    split_ifs at hrun ⊢ with hquote hfull hline hescaped
    · have hle := le_longestRun_go '"' (count + 1) best t
      omega
    · rw [ih hrun hcodes hrest]
    · rw [ih hrun hcodes hrest]
    · rcases hescaped with h | rfl | h
      · rw [hcode] at h
        cases h
      · have hone : multiLine = false := by simpa using hline
        exact absurd List.mem_cons_self (hlines hone)
      · exact absurd h hslash
    · rw [ih hrun hcodes hrest]

/-! ### Single quotes -/

theorem literalFrom_append (hquote : '\'' ∉ t) (hcontrol : ∀ c ∈ t, isControl c = false)
    (rest : Text) : literalFrom (t ++ '\'' :: rest) = some (t, rest) := by
  induction t with
  | nil => rfl
  | cons c t ih =>
    rw [List.mem_cons, not_or] at hquote
    obtain ⟨hc, ht⟩ := List.forall_mem_cons.1 hcontrol
    rw [List.cons_append, literalFrom, if_neg (Ne.symm hquote.1), if_neg (by simp [hc]),
      ih hquote.2 ht]
    rfl

theorem multiLiteralFrom_quote {count : Nat} (h : count < 4) (cs : Text) :
    multiLiteralFrom count ('\'' :: cs) = multiLiteralFrom (count + 1) cs := by
  rw [multiLiteralFrom, if_pos rfl, if_neg (by omega)]

theorem multiLiteralFrom_closed {count : Nat} (h : 3 ≤ count) (hrest : rest.head? ≠ some '\'') :
    multiLiteralFrom count rest = some (closing '\'' count rest) := by
  cases rest with
  | nil => exact if_pos h
  | cons c cs =>
    have hc : c ≠ '\'' := fun hc => hrest (by rw [hc]; rfl)
    rw [multiLiteralFrom, if_neg hc, if_pos h]

theorem multiLiteralFrom_close {count : Nat} (h : count ≤ 2) (hrest : rest.head? ≠ some '\'') :
    multiLiteralFrom count ('\'' :: '\'' :: '\'' :: rest) =
      some (List.replicate count '\'', rest) := by
  rw [multiLiteralFrom_quote (by omega), multiLiteralFrom_quote (by omega)]
  by_cases hfull : count = 2
  · subst hfull
    rfl
  · rw [multiLiteralFrom_quote (by omega), multiLiteralFrom_closed (by omega) hrest]
    rfl

theorem multiLiteralFrom_append (hrest : rest.head? ≠ some '\'') {count best : Nat}
    (hrun : longestRun.go '\'' count best t ≤ 2) (hcodes : ∀ c ∈ t, needsCode c = false) :
    multiLiteralFrom count (t ++ '\'' :: '\'' :: '\'' :: rest) =
      some (List.replicate count '\'' ++ t, rest) := by
  induction t generalizing count best with
  | nil =>
    have hcount := Nat.le_trans (le_longestRun_go '\'' count best []) hrun
    rw [List.nil_append, multiLiteralFrom_close hcount hrest, List.append_nil]
  | cons c t ih =>
    obtain ⟨hcode, hcodes⟩ := List.forall_mem_cons.1 hcodes
    have hcount := Nat.le_trans (le_longestRun_go '\'' count best (c :: t)) hrun
    rw [longestRun.go] at hrun
    rw [List.cons_append]
    split_ifs at hrun with hquote
    · rw [hquote, multiLiteralFrom_quote (by omega), ih hrun hcodes, List.replicate_succ',
        List.append_assoc]
      rfl
    · have hreturn : c ≠ '\r' := by
        rintro rfl
        cases hcode
      have hshown : ¬ (isControl c && c != '\n') = true := by
        by_cases hfeed : c = '\n'
        · simp [hfeed]
        · simp [isControl_eq_false hcode hfeed]
      rw [multiLiteralFrom, if_neg hquote, if_neg (by omega), if_neg hreturn, if_neg hshown,
        ih hrun hcodes]
      rfl

/-! ### The four notations -/

theorem quoted_basic {cs : Text} (h : cs.take 2 ≠ ['"', '"']) :
    quoted ('"' :: cs) = basicFrom .plain cs := by
  have hsingle : singleLine ('"' :: cs) = basicFrom .plain cs := if_neg h
  rw [← hsingle]
  unfold quoted
  split
  · rename_i heq
    cases heq
    exact absurd rfl h
  · rename_i heq
    cases heq
  · rfl

theorem quoted_literal {cs : Text} (h : cs.take 2 ≠ ['\'', '\'']) :
    quoted ('\'' :: cs) = literalFrom cs := by
  have hsingle : singleLine ('\'' :: cs) = literalFrom cs := if_neg h
  rw [← hsingle]
  unfold quoted
  split
  · rename_i heq
    cases heq
  · rename_i heq
    cases heq
    exact absurd rfl h
  · rfl

/-- A text whose first character is no quote, or that is empty before something else, does not look
as if it went over several lines. -/
theorem take_two_ne {q : Char} (ht : t.head? ≠ some q) (hrest : rest.head? ≠ some q) :
    (t ++ q :: rest).take 2 ≠ [q, q] := by
  cases t with
  | nil =>
    cases rest with
    | nil => simp
    | cons c cs => simpa using hrest
  | cons c cs =>
    intro h
    have hc : c = q := by simpa using congrArg List.head? h
    exact ht (by rw [hc]; rfl)

theorem head?_escapeAll_ne (t : Text) : (escapeAll 0 false 0 t).head? ≠ some '"' := by
  cases t with
  | nil => exact nofun
  | cons c t =>
    obtain ⟨cs, hcs⟩ := exists_escapeChar c
    rw [escapeAll]
    split_ifs with hquote hzero hline hescaped
    · rw [hcs]
      exact nofun
    · exact absurd (Nat.zero_le 0) hzero
    · cases hline.2
    · rw [hcs]
      exact nofun
    · simpa using hquote

theorem dropLineEnd_eq_self {cs : Text} (hfeed : cs.head? ≠ some '\n')
    (hreturn : cs.head? ≠ some '\r') : dropLineEnd cs = cs := by
  unfold dropLineEnd
  split
  · exact absurd rfl hfeed
  · exact absurd rfl hreturn
  · rfl

/-- The line end after the opening quotes is there to be dropped: a text with line feeds may begin
with one. -/
theorem dropLineEnd_append (hcodes : ∀ c ∈ t, needsCode c = false) (cs : Text)
    (hfeed : cs.head? ≠ some '\n') (hreturn : cs.head? ≠ some '\r') :
    dropLineEnd ((if true && t.contains '\n' then ['\n'] else []) ++ (t ++ cs)) = t ++ cs := by
  split_ifs with hlines
  · rfl
  · cases t with
    | nil => exact dropLineEnd_eq_self hfeed hreturn
    | cons c t =>
      have hc : c ≠ '\n' := by
        rintro rfl
        simp at hlines
      have hcode := hcodes c List.mem_cons_self
      refine dropLineEnd_eq_self (by simpa using hc) ?_
      rintro hhead
      cases hhead
      cases hcode

theorem enclose_append (quotes : Text) (multiLine : Bool) (t body rest : Text) :
    enclose quotes multiLine t body ++ rest =
      quotes ++ ((if multiLine && t.contains '\n' then ['\n'] else []) ++
        (body ++ (quotes ++ rest))) := by
  simp only [enclose, List.append_assoc]

theorem quoted_enclose_basic (t : Text) (hrest : rest.head? ≠ some '"') :
    quoted (enclose ['"'] false t (escapeAll 0 false 0 t) ++ rest) = some (t, rest) := by
  rw [enclose_append]
  exact (quoted_basic (take_two_ne (head?_escapeAll_ne t) hrest)).trans (basicFrom_escapeAll t rest)

theorem quoted_enclose_literal (hquote : '\'' ∉ t) (hcontrol : ∀ c ∈ t, isControl c = false)
    (hrest : rest.head? ≠ some '\'') :
    quoted (enclose ['\''] false t t ++ rest) = some (t, rest) := by
  have hhead : t.head? ≠ some '\'' := fun h => hquote (List.mem_of_head? h)
  rw [enclose_append]
  exact (quoted_literal (take_two_ne hhead hrest)).trans (literalFrom_append hquote hcontrol rest)

theorem quoted_enclose_multiLiteral (hrun : longestRun '\'' t ≤ 2)
    (hcodes : ∀ c ∈ t, needsCode c = false) (hrest : rest.head? ≠ some '\'') :
    quoted (enclose ['\'', '\'', '\''] true t t ++ rest) = some (t, rest) := by
  have hdrop := dropLineEnd_append hcodes ('\'' :: '\'' :: '\'' :: rest) nofun nofun
  rw [enclose_append]
  exact (congrArg (multiLiteralFrom 0) hdrop).trans (multiLiteralFrom_append hrest hrun hcodes)

/-- A written text is read back, whatever follows that is no quote. -/
theorem quoted_writeText (t : Text) (hdouble : rest.head? ≠ some '"')
    (hsingle : rest.head? ≠ some '\'') : quoted (writeText t ++ rest) = some (t, rest) := by
  unfold writeText
  simp only [Bool.and_eq_true, Bool.not_eq_true', List.any_eq_false, Bool.not_eq_true,
    List.contains_eq_mem, decide_eq_true_eq, decide_eq_false_iff_not]
  split_ifs with hplain hliteral hlines hquotes hfeed
  · obtain ⟨⟨⟨hcodes, hslash⟩, hfeed⟩, hrun⟩ := hplain
    have hself : escapeAll 0 false 0 t = t :=
      escapeAll_eq_self (Nat.le_of_eq hrun)
        (fun c hc => ⟨hcodes c hc, fun h => hslash (h ▸ hc)⟩) (fun _ => hfeed)
    have h := quoted_enclose_basic t hdouble
    rwa [hself] at h
  · obtain ⟨⟨hcodes, hfeed⟩, hrun⟩ := hliteral
    exact quoted_enclose_literal (notMem_of_longestRun hrun)
      (fun c hc => isControl_eq_false (hcodes c hc) fun h => hfeed (h ▸ hc)) hsingle
  · obtain ⟨⟨hcodes, hslash⟩, hrun⟩ := hlines
    have hself : escapeAll 2 true 0 t = t :=
      escapeAll_eq_self hrun (fun c hc => ⟨hcodes c hc, fun h => hslash (h ▸ hc)⟩) nofun
    have hread := multiBasicFrom_escapeAll hdouble (Nat.zero_le 2) t
    rw [hself] at hread
    have hdrop := dropLineEnd_append hcodes ('"' :: '"' :: '"' :: rest) nofun nofun
    rw [enclose_append]
    exact (congrArg (multiBasicFrom .plain) hdrop).trans hread
  · exact quoted_enclose_multiLiteral hquotes.2 hquotes.1 hsingle
  · rw [enclose_append, if_pos (by simpa using hfeed)]
    exact multiBasicFrom_escapeAll hdouble (Nat.zero_le 2) t
  · exact quoted_enclose_basic t hdouble

end ManifestShell.Toml
