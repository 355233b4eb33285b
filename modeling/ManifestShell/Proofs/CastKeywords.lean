import ManifestShell.Proofs.Segments
import ManifestShell.Proofs.WordStarts
import ManifestShell.Query

/-! Type casts and the words around them.
The stem of a cast ends before the first keyword of the active segment, and nothing before that
segment has a say in it.  But what opens the position, the letters of a keyword before a blank, need
not be a keyword: where there is none, the stem is the whole line, and its last word and the keyword
run together. -/
namespace ManifestShell

theorem isWordChar_of_isBlank {c : Char} (h : isBlank c = true) : isWordChar c = false := by
  have hblanks : ((List.range' 0x9 5 ++ List.range' 0x2000 11 ++ [0x20, 0x85, 0xA0, 0x1680, 0x2028,
      0x2029, 0x202F, 0x205F, 0x3000]).all fun n => !isWordChar (Char.ofNat n)) = true := by
    decide +kernel
  have hcode := List.all_eq_true.1 hblanks c.toNat (by
    simp only [isBlank, Bool.or_eq_true, Bool.and_eq_true, decide_eq_true_eq, beq_iff_eq] at h
    simp only [List.mem_append, List.mem_range'_1, List.mem_cons, List.not_mem_nil, or_false]
    omega)
  simpa [Char.ofNat_toNat] using hcode

namespace Query

variable {inWord : Bool} {line t a before after stem : Text} {c : Char}

theorem afterWord_append (inWord : Bool) (before t : Text) :
    afterWord inWord (before ++ t) = afterWord (afterWord inWord before) t := by
  induction before generalizing inWord with
  | nil => rfl
  | cons c before ih => simp only [List.cons_append, afterWord_cons, ih]

theorem afterWord_append_colon (before t : Text) :
    afterWord false (before ++ ':' :: t) = afterWord false t := by
  rw [afterWord_append, afterWord_cons]
  rfl

def beforeWord (after : Text) : Bool := after.head?.any isWordChar

def castWords : List Text := ["as", "is"]

/-- A keyword stands ahead, and no line ends after it. -/
def CastKeyword (t : Text) : Prop :=
  ∃ word ∈ castWords, ∃ after, t = word ++ after ∧ beforeWord after = false ∧ '\n' ∉ after

theorem mem_castWords {word : Text} : word ∈ castWords ↔ word = ['a', 's'] ∨ word = ['i', 's'] := by
  simp [castWords]

theorem isCastKeyword_iff : isCastKeyword t = true ↔ CastKeyword t := by
  constructor
  · intro h
    unfold isCastKeyword at h
    split at h
    · rename_i c after
      simp only [Bool.and_eq_true, Bool.or_eq_true, beq_iff_eq, Bool.not_eq_true',
        List.contains_eq_mem, decide_eq_false_iff_not] at h
      refine ⟨[c, 's'], mem_castWords.2 ?_, after, rfl, h.1.2, h.2⟩
      simpa using h.1.1
    · cases h
  · rintro ⟨word, hword, after, rfl, hend, hline⟩
    rw [beforeWord] at hend
    rcases mem_castWords.1 hword with rfl | rfl <;> simp [isCastKeyword, hline, hend]

theorem not_castKeyword_nil : ¬ CastKeyword [] := by
  rw [← isCastKeyword_iff]
  decide

/-- What is kept of a segment ends before its first keyword, or is all of it if it has none. -/
theorem beforeCast_cases (inWord : Bool) (t : Text) :
    (∃ rest, FirstWordStart CastKeyword inWord t (beforeCast inWord t) rest) ∨
      (beforeCast inWord t = t ∧ ∀ before rest, ¬ WordStart CastKeyword inWord t before rest) := by
  -- over the segment, with the flag for what stands behind it as the scan passes it on
  induction t generalizing inWord with
  | nil => exact Or.inr ⟨rfl, fun before rest => not_wordStart_nil not_castKeyword_nil⟩
  | cons c t ih =>
    by_cases hhere : inWord = false ∧ CastKeyword (c :: t)
    · obtain ⟨rfl, hword⟩ := hhere
      have hstop : beforeCast false (c :: t) = [] := by
        simp [beforeCast, isCastKeyword_iff.2 hword]
      exact Or.inl ⟨c :: t, (firstWordStart_here hword).2 ⟨hstop, rfl⟩⟩
    · have hgo : beforeCast inWord (c :: t) = c :: beforeCast (isWordChar c) t := by
        rw [← isCastKeyword_iff] at hhere
        simpa [beforeCast] using hhere
      rw [not_and] at hhere
      rw [hgo]
      rcases ih (isWordChar c) with ⟨rest, hfirst⟩ | ⟨hkept, hnone⟩
      · exact Or.inl ⟨rest, (firstWordStart_cons_iff hhere).2 ⟨_, rfl, hfirst⟩⟩
      · refine Or.inr ⟨by rw [hkept], fun before rest hstart => ?_⟩
        rcases wordStart_cons_iff.1 hstart with ⟨_, _, hw, hword⟩ | ⟨b, _, hb⟩
        · exact hhere hw hword
        · exact hnone b rest hb

/-- `stem` is the part of a segment before its first keyword, or all of a segment without one. -/
def IsCastStem (segment stem : Text) : Prop :=
  (∃ rest, FirstWordStart CastKeyword false segment stem rest) ∨
    (stem = segment ∧ ∀ before rest, ¬ WordStart CastKeyword false segment before rest)

theorem endsWithChar_append_colon {p : Char → Bool} (hp : p ':' = false) (before after : Text) :
    Text.endsWithChar p (before ++ ':' :: after) = Text.endsWithChar p after := by
  cases h : after.getLast? with
  | none =>
    obtain rfl := List.getLast?_eq_none_iff.1 h
    simp [Text.endsWithChar, hp]
  | some c => simp [Text.endsWithChar, List.getLast?_cons, h]

theorem allowsCast_append_cons (before : Text) (ha : ':' ∉ a) :
    allowsCast (before ++ ':' :: a) = allowsCast a := by
  rw [allowsCast, allowsCast, endsWithChar_append_colon rfl, active_append_cons before ha,
    active_of_notMem ha]

theorem typeCast_mem_positions_append_cons (ha : ':' ∉ a) :
    Position.typeCast stem ∈ positions (before ++ ':' :: a) ↔
      ∃ s, Position.typeCast s ∈ positions a ∧ stem = before ++ ':' :: s := by
  simp only [typeCast_mem_positions, allowsCast_append_cons before ha,
    castStem_append_cons before ha, castStem_of_notMem ha]
  constructor
  · rintro ⟨hallows, rfl⟩
    exact ⟨_, ⟨hallows, rfl⟩, rfl⟩
  · rintro ⟨_, ⟨hallows, rfl⟩, rfl⟩
    exact ⟨hallows, rfl⟩

def Position.isTypeCast : Position → Bool
  | .typeCast _ => true
  | _ => false

/-- Those words of the language that are offered for the sake of a type cast. -/
def castCandidates (line : Text) : List Text :=
  ((positions line).filter Position.isTypeCast).flatMap (Position.words line)

theorem castCandidates_eq (line : Text) :
    castCandidates line = (castStem? line).toList.flatMap castForms := by
  have hcasts : (positions line).filter Position.isTypeCast =
      (castStem? line).toList.map Position.typeCast := by
    simp only [positions, List.filter_append, apply_ite (List.filter Position.isTypeCast)]
    cases castStem? line <;> cases importSpan? line <;> cases ordinalIndexed? line <;>
      simp [Position.isTypeCast]
  rw [castCandidates, hcasts, List.flatMap_map]
  rfl

theorem castForms_append (u v : Text) : castForms (u ++ v) = (castForms v).map (u ++ ·) := by
  simp [castForms, Function.comp_def]

/-- Brackets and type casts are completed from the active segment alone: committed segments are
kept as they stand, whatever casts they hold. -/
theorem cast_scoped_to_active (before a : Text) (ha : ':' ∉ a) :
    (.bracketPredicate ∈ positions (before ++ ':' :: a) ↔ .bracketPredicate ∈ positions a) ∧
    (∀ stem, .typeCast stem ∈ positions (before ++ ':' :: a) ↔
      ∃ s, .typeCast s ∈ positions a ∧ stem = before ++ ':' :: s) ∧
    (∀ s, .typeCast s ∈ positions a → IsCastStem a s ∧ s <+: a) ∧
    (∀ line stem, .typeCast stem ∈ positions line → stem <+: line) ∧
    castCandidates (before ++ ':' :: a) = (castCandidates a).map (before ++ ':' :: ·) := by
  have hprefix (line stem : Text) (h : .typeCast stem ∈ positions line) : stem <+: line :=
    (typeCast_mem_positions.1 h).2 ▸ castStem_isPrefix line
  refine ⟨?_, fun stem => typeCast_mem_positions_append_cons ha, fun s hs => ⟨?_, hprefix a s hs⟩,
    hprefix, ?_⟩
  · rw [bracketPredicate_mem_positions, bracketPredicate_mem_positions,
      active_append_cons before ha, active_of_notMem ha]
  · rw [(typeCast_mem_positions.1 hs).2, castStem_of_notMem ha]
    exact beforeCast_cases false a
  · rw [castCandidates_eq, castCandidates_eq, castStem?, castStem?,
      allowsCast_append_cons before ha, castStem_append_cons before ha, castStem_of_notMem ha]
    split_ifs
    · have hforms := castForms_append (before ++ [':']) (beforeCast false a)
      simpa using hforms
    · rfl

/-- Behind two committed segments, one of them empty, of which the first has a cast of its own. -/
theorem cast_behind_committed_cast :
    ':' ∉ "name as ar".toList ∧
      .typeCast "items as json::name " ∈ positions "items as json::name as ar" ∧
      IsCastStem "name as ar" "name " ∧
      castCandidates "items as json::name as ar" =
        (castCandidates "name as ar").map ("items as json:".toList ++ ':' :: ·) := by
  have hcolon : ':' ∉ "name as ar".toList := by decide
  obtain ⟨_, hcast, hstem, _, hwords⟩ :=
    cast_scoped_to_active "items as json:" "name as ar" hcolon
  have hopen : .typeCast "name " ∈ positions "name as ar" := by decide +kernel
  exact ⟨hcolon, (hcast _).2 ⟨"name ", hopen, rfl⟩, (hstem _ hopen).1, hwords⟩

/-- The letters of a keyword before a blank, which is all it takes to open the position. -/
theorem hasCastClause_iff : hasCastClause t = true ↔
    ∃ before word blank rest, t = before ++ (word ++ blank :: rest) ∧ word ∈ castWords ∧
      isBlank blank = true := by
  rw [hasCastClause, List.any_eq_true]
  constructor
  · rintro ⟨ahead, htail, hclause⟩
    obtain ⟨before, rfl⟩ := Text.mem_tails.1 htail
    unfold isCastClause at hclause
    split at hclause
    · rename_i c blank rest
      simp only [Bool.and_eq_true, Bool.or_eq_true, beq_iff_eq] at hclause
      refine ⟨before, [c, 's'], blank, rest, rfl, mem_castWords.2 ?_, hclause.2⟩
      simpa using hclause.1
    · cases hclause
  · rintro ⟨before, word, blank, rest, rfl, hword, hblank⟩
    refine ⟨word ++ blank :: rest, Text.mem_tails.2 (List.suffix_append before _), ?_⟩
    rcases mem_castWords.1 hword with rfl | rfl <;> simp [isCastClause, hblank]

/-- What stands in front of the active segment is kept, and it ends in a colon if in anything. -/
theorem exists_castStem_eq (line : Text) : ∃ lead, line = lead ++ active line ∧
    castStem line = lead ++ beforeCast false (active line) ∧ afterWord false lead = false := by
  rcases Text.notMem_or_exists_last ':' line with hn | ⟨before, after, rfl, ha⟩
  · exact ⟨[], by rw [active_of_notMem hn, List.nil_append],
      by rw [active_of_notMem hn, castStem_of_notMem hn, List.nil_append], rfl⟩
  · refine ⟨before ++ [':'], ?_, ?_, afterWord_append_colon before []⟩
    · rw [active_append_cons before ha, List.append_assoc, List.singleton_append]
    · rw [active_append_cons before ha, castStem_append_cons before ha, List.append_assoc,
        List.singleton_append]

/-- The stem ends inside a word exactly if the active segment does and has no keyword. -/
theorem afterWord_castStem_iff : afterWord false (castStem line) = true ↔
    afterWord false (active line) = true ∧
      ∀ before rest, ¬ WordStart CastKeyword false (active line) before rest := by
  obtain ⟨lead, _, hstem, hlead⟩ := exists_castStem_eq line
  rw [hstem, afterWord_append, hlead]
  rcases beforeCast_cases false (active line) with ⟨rest, hfirst⟩ | ⟨hkept, hnone⟩
  · refine iff_of_false ?_ fun h => h.2 _ _ hfirst.toWordStart
    rw [hfirst.behind]
    exact Bool.false_ne_true
  · rw [hkept, and_iff_left hnone]

theorem castStem_eq_self
    (hnone : ∀ before rest, ¬ WordStart CastKeyword false (active line) before rest) :
    castStem line = line := by
  obtain ⟨lead, hline, hstem, _⟩ := exists_castStem_eq line
  rcases beforeCast_cases false (active line) with ⟨rest, hfirst⟩ | ⟨hkept, _⟩
  · exact absurd hfirst.toWordStart (hnone _ _)
  · rw [hstem, hkept, ← hline]

theorem endsWithChar_isBlank_of_afterWord (h : afterWord false t = true) :
    Text.endsWithChar isBlank t = false := by
  unfold Text.endsWithChar
  split
  · rename_i c hc
    by_contra hblank
    rw [Bool.not_eq_false] at hblank
    simp [afterWord, hc, isWordChar_of_isBlank hblank] at h
  · rfl

theorem exists_castWord {keyword : Text} (h : keyword ∈ typeKeywords) :
    ∃ word ∈ castWords, ∃ after, keyword = word ++ after ∧ beforeWord after = false := by
  have hall : (typeKeywords.all fun k =>
      castWords.contains (k.take 2) && !beforeWord (k.drop 2)) = true := by decide +kernel
  have hk := List.all_eq_true.1 hall keyword h
  simp only [Bool.and_eq_true, List.contains_iff_mem, Bool.not_eq_true'] at hk
  exact ⟨_, hk.1, _, (List.take_append_drop 2 keyword).symm, hk.2⟩

/-- The candidate goes on after the stem with a keyword that is a word of its own. -/
def KeywordApart (stem candidate : Text) : Prop :=
  ∃ word ∈ castWords, ∃ after, candidate = stem ++ (word ++ after) ∧
    afterWord false stem = false ∧ beforeWord after = false

theorem keywordApart_iff :
    (∀ t ∈ castForms stem, KeywordApart stem t) ↔ afterWord false stem = false := by
  constructor
  · intro h
    obtain ⟨_, _, _, _, hstem, _⟩ := h (stem ++ "as".toList) (List.mem_map_of_mem (by decide))
    exact hstem
  · intro hstem t ht
    obtain ⟨keyword, hkeyword, rfl⟩ := List.mem_map.1 ht
    obtain ⟨word, hword, after, rfl, hafter⟩ := exists_castWord hkeyword
    exact ⟨word, hword, after, rfl, hstem, hafter⟩

/-- A keyword is kept apart from the words of the line exactly if the active segment has a keyword
already or does not end in a word.  Otherwise the line itself is the stem, and what opened the
position is the end of a longer word, or stands before the end of a line. -/
theorem keywords_apart_iff (line stem : Text) (h : .typeCast stem ∈ positions line) :
    ((∀ t ∈ castForms stem, KeywordApart stem t) ↔
      ∀ c, stem.getLast? = some c → isWordChar c = false) ∧
    ((∀ t ∈ castForms stem, KeywordApart stem t) ↔
      (∃ before rest, WordStart CastKeyword false (active line) before rest) ∨
        ∀ c, (active line).getLast? = some c → isWordChar c = false) ∧
    ((∃ t ∈ castForms stem, ¬ KeywordApart stem t) → stem = line ∧
      ∃ before word blank rest, active line = before ++ (word ++ blank :: rest) ∧
        word ∈ castWords ∧ isBlank blank = true ∧
        (afterWord false before = true ∨ '\n' ∈ blank :: rest)) := by
  obtain ⟨hallows, rfl⟩ := typeCast_mem_positions.1 h
  simp only [← afterWord_eq_false_iff]
  refine ⟨keywordApart_iff, ?_, fun hglued => ?_⟩
  · rw [keywordApart_iff, ← Bool.not_eq_true, afterWord_castStem_iff]
    simp only [not_and, not_forall, not_not]
    constructor
    · intro himp
      by_cases hend : afterWord false (active line) = true
      · exact Or.inl (himp hend)
      · exact Or.inr (Bool.not_eq_true _ ▸ hend)
    · rintro (hword | hend)
      · exact fun _ => hword
      · intro htrue
        rw [hend] at htrue
        cases htrue
  · have hend : afterWord false (castStem line) = true := by
      by_contra hno
      obtain ⟨t, ht, hnot⟩ := hglued
      exact hnot (keywordApart_iff.2 (Bool.not_eq_true _ ▸ hno) t ht)
    have hnone := (afterWord_castStem_iff.1 hend).2
    have hself := castStem_eq_self hnone
    refine ⟨hself, ?_⟩
    rw [hself] at hend
    -- the line does not end in a blank, so it is the letters of a keyword that opened the position
    rw [allowsCast, endsWithChar_isBlank_of_afterWord hend, Bool.false_or, hasCastClause_iff]
      at hallows
    obtain ⟨before, word, blank, rest, hactive, hword, hblank⟩ := hallows
    refine ⟨before, word, blank, rest, hactive, hword, hblank, ?_⟩
    by_contra hno
    rw [not_or, Bool.not_eq_true] at hno
    have hkeyword : CastKeyword (word ++ blank :: rest) :=
      ⟨word, hword, blank :: rest, rfl, isWordChar_of_isBlank hblank, hno.2⟩
    exact hnone _ _ ⟨hactive, hno.1, hkeyword⟩

/-- In a line with a keyword the words stay apart, although an earlier word ends like one. -/
theorem keywords_apart_in_line :
    .typeCast "has x " ∈ positions "has x as in" ∧
      ∀ t ∈ castForms "has x ", KeywordApart "has x " t := by
  have hopen : .typeCast "has x " ∈ positions "has x as in" := by decide +kernel
  have hend : afterWord false "has x " = false := by decide
  exact ⟨hopen, (keywords_apart_iff "has x as in" "has x " hopen).1.2
    (afterWord_eq_false_iff.1 hend)⟩

/-- The end of a longer word opens the position, and the keyword is glued to the line. -/
theorem keyword_glued_to_word :
    .typeCast "has x" ∈ positions "has x" ∧ "has xas int".toList ∈ castForms "has x" ∧
      ¬ KeywordApart "has x" "has xas int" ∧
      ¬ ∀ c, "has x".toList.getLast? = some c → isWordChar c = false := by
  have hend : ¬ afterWord false "has x" = false := by decide
  refine ⟨by decide +kernel, by decide +kernel, ?_, fun h => hend (afterWord_eq_false_iff.2 h)⟩
  rintro ⟨_, _, _, _, hstem, _⟩
  exact hend hstem

end Query
end ManifestShell
