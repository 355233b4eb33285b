import ManifestShell.Proofs.Candidates
import ManifestShell.Proofs.PrintedResults
import ManifestShell.Proofs.TypedCommands

/-! Queries as they were typed, and reports that explain their candidates.
A query is kept with all its blanks, which count: a blank at the end asks for type keywords.  A
space right behind `.sources` belongs to the command, and all that follows it to the query.  Both
ways a query reaches the same sources, so the candidates that are shown for it can be worked out from what
the sources are reported to offer. -/
namespace ManifestShell

namespace Command

open Text

variable {line lead word rest t : Text}

/-- No word goes on into the text: it is empty or begins with a blank. -/
def BreaksOff (rest : Text) : Prop := ∀ c, rest.head? = some c → isBlank c = true

theorem breaksOff_of_blank (h : blank t = true) : BreaksOff t := fun c hc =>
  blank_iff.1 h c (List.mem_of_mem_head? hc)

theorem breaksOff_cons {c : Char} : BreaksOff (c :: rest) ↔ isBlank c = true := by simp [BreaksOff]

/-- The first word of a line, told by what stands before and behind it. -/
theorem exists_written_iff (hword : IsWord word) (line : Text) :
    (∃ arg, Written line word arg) ↔
      ∃ lead rest, line = lead ++ (word ++ rest) ∧ blank lead = true ∧ BreaksOff rest := by
  constructor
  · rintro ⟨arg, h⟩
    obtain ⟨lead, gap, trail, hline, hlead, hgap, htrail, hnil⟩ := h.spelled
    refine ⟨lead, gap ++ (arg ++ trail), hline, hlead, ?_⟩
    cases gap with
    | nil =>
      rw [hnil rfl]
      exact breaksOff_of_blank htrail
    | cons c gap => exact breaksOff_cons.2 (blank_iff.1 hgap c List.mem_cons_self)
  · rintro ⟨lead, rest, hline, hlead, hrest⟩
    obtain ⟨htight, gap, trail, hsplit, hgap, htrail⟩ := trim_eq_iff.1 (rfl : trim rest = _)
    refine ⟨trim rest, hword.ne_nil, hword.not_blank, htight, lead, gap, trail,
      by rw [← hsplit, hline], hlead, hgap, htrail, fun hnil => ?_⟩
    -- an argument right behind the word would begin with a blank, which has been trimmed off
    cases harg : trim rest with
    | nil => rfl
    | cons c arg =>
      rw [hnil, harg] at hsplit
      have hblank := hrest c (by rw [hsplit]; rfl)
      rw [htight.1 c (by rw [harg]; rfl)] at hblank
      cases hblank

/-- The query that a text behind `.sources` holds: all of it but a space at its start. -/
def queryBehind (rest : Text) : Text := (dropStart? [' '] rest).getD rest

@[simp] theorem queryBehind_cons (t : Text) : queryBehind (' ' :: t) = t := by
  rw [queryBehind, dropStart?_eq_some_iff.2 (show ' ' :: t = [' '] ++ t from rfl), Option.getD_some]

theorem sourcesLine_append (hlead : blank lead = true) (rest : Text) :
    sourcesLine (lead ++ (".sources".toList ++ rest)) = queryBehind rest := by
  have hstart : trimStart (lead ++ (".sources".toList ++ rest)) = ".sources".toList ++ rest := by
    rw [trimStart_append hlead]
    exact trimStart_of_head fun c hc => by
      obtain rfl : '.' = c := Option.some.inj hc
      decide
  have hdrop : dropStart? ".sources".toList (".sources".toList ++ rest) = some rest :=
    dropStart?_eq_some_iff.2 rfl
  rw [sourcesLine, hstart, hdrop, queryBehind]

/-- Which lines ask for reports, and on which query: `.sources` has to be a word of its own. -/
theorem parse_eq_sources_iff : parse line = .ok (.sources t) ↔
    ∃ lead rest, line = lead ++ (".sources".toList ++ rest) ∧ blank lead = true ∧
      BreaksOff rest ∧ t = queryBehind rest := by
  have hfirst := exists_written_iff (by decide : IsWord ".sources") line
  rw [parse_eq_ok_iff]
  constructor
  · intro h
    cases h with
    | sources h =>
      obtain ⟨lead, rest, rfl, hlead, hrest⟩ := hfirst.1 ⟨_, h⟩
      exact ⟨lead, rest, rfl, hlead, hrest, sourcesLine_append hlead rest⟩
  · rintro ⟨lead, rest, rfl, hlead, hrest, rfl⟩
    obtain ⟨arg, h⟩ := hfirst.2 ⟨lead, rest, rfl, hlead, hrest⟩
    rw [← sourcesLine_append hlead rest]
    exact .sources h

theorem parse_sources (hlead : blank lead = true) (q : Text) :
    parse (lead ++ (".sources ".toList ++ q)) = .ok (.sources q) :=
  parse_eq_sources_iff.2 ⟨lead, ' ' :: q, rfl, hlead, breaksOff_cons.2 (by decide),
    (queryBehind_cons q).symm⟩

theorem parse_eq_complete_iff : parse line = .ok (.complete t) ↔ QueryLine line ∧ t = line := by
  rw [parse_eq_ok_iff]
  constructor
  · intro h
    cases h with
    | query h => exact ⟨h, rfl⟩
  · rintro ⟨h, rfl⟩
    exact .query h

end Command

namespace Session

open Command Text

/-- Lines are read without a loss, and the reports on a query explain the candidates that are
printed for it: these are ranked from all that the printed reports list.  If a source breaks down,
nothing is reported and no candidates are printed. -/
theorem reports_explain_candidates :
    (∀ lead q, blank lead = true → parse (lead ++ (".sources ".toList ++ q)) = .ok (.sources q)) ∧
    (∀ line t, parse line = .ok (.complete t) ↔ QueryLine line ∧ t = line) ∧
    ∀ (e : Engine) (s : Session) (lead q : Text), blank lead = true → QueryLine q →
      (∀ reports, e.collect q s.context = some reports →
        let ranked := rank (Query.active q) e.fallbackToAll (reports.flatMap Report.candidates)
        let told := s.printer.reports q reports
        let shown := s.printer.candidates q ranked
        s.enter e (lead ++ (".sources ".toList ++ q)) = (s, .output (some told)) ∧
        Printer.ListsReports q reports s.printer told ∧
        s.enter e q = (s, .output (some shown)) ∧
        Printer.ListsCandidates q ranked s.printer shown) ∧
      (e.collect q s.context = none →
        let shown := s.printer.candidates q []
        s.enter e (lead ++ (".sources ".toList ++ q)) = (s, .breakdown) ∧
        s.enter e q = (s, .output (some shown)) ∧
        Printer.ListsCandidates q [] s.printer shown) := by
  refine ⟨fun lead q hlead => parse_sources hlead q, fun line t => parse_eq_complete_iff,
    fun e s lead q hlead hq => ?_⟩
  have hsources : s.enter e (lead ++ (".sources ".toList ++ q)) = s.execute e (.sources q) :=
    enter_of_reads (parse_eq_ok_iff.1 (parse_sources hlead q))
  have hquery : s.enter e q =
      (s, .output (some (s.printer.candidates q (e.candidates q s.context)))) :=
    enter_of_reads (.query hq)
  refine ⟨fun reports hreports => ?_, fun hnone => ?_⟩
  · intro ranked told shown
    have hranked : e.candidates q s.context = ranked := Engine.candidates_eq_rank hreports
    refine ⟨?_, Printer.listsReports _ q reports, ?_, Printer.listsCandidates _ q ranked⟩
    · rw [hsources]
      simp only [execute, hreports, told]
    · rw [hquery, hranked]
  · intro shown
    have hempty : e.candidates q s.context = [] := by simp only [Engine.candidates, hnone]
    refine ⟨?_, ?_, Printer.listsCandidates _ q []⟩
    · rw [hsources]
      simp only [execute, hnone]
    · rw [hquery, hempty]

/-- A query with blanks in front, asked about behind a tab and a blank, in color.  Of two variables
that are reported one fits what is being typed; the path is reported not to be a pattern. -/
theorem reports_on_padded_query :
    let e : Engine := ⟨[Source.bindings, Source.path 5], true⟩
    let s := ((Session.new Table.empty Listing.empty.fileSystem {}).bind "xs" .null).bind "y" .null
    let q : Text := "  import [:$x"
    let told : Text := "\x1b[1mbindings\x1b[0m \x1b[2m(2)\x1b[0m\n  \x1b[36m$xs\x1b[0m\n".toList ++
      "  \x1b[36m$y\x1b[0m\n\x1b[1mpath\x1b[0m \x1b[31mfailed: Invalid glob pattern: ".toList ++
      "Pattern syntax error near position 0: invalid range pattern\x1b[0m".toList
    let shown : Text := "\x1b[36m$xs\x1b[0m"
    blank "\t " = true ∧ QueryLine q ∧
      parse ("\t ".toList ++ (".sources ".toList ++ q)) = .ok (.sources q) ∧
      ∃ reports, e.collect q s.context = some reports ∧
        s.enter e ("\t ".toList ++ (".sources ".toList ++ q)) = (s, .output (some told)) ∧
        Printer.ListsReports q reports ⟨.plain, true⟩ told ∧
        s.enter e q = (s, .output (some shown)) ∧
        Printer.ListsCandidates q ["$xs".toList] ⟨.plain, true⟩ shown := by
  intro e s q told shown
  have hblank : blank "\t " = true := by decide
  have hquery : QueryLine q := queryLine_iff.2 (by decide)
  obtain ⟨hparse, _, hexplain⟩ := reports_explain_candidates
  let reports : List Report := [⟨"bindings", .ok ["$xs", "$y"]⟩, ⟨"path", .error (.pattern
    "Pattern syntax error near position 0: invalid range pattern")⟩]
  have hreports : e.collect q s.context = some reports := by rfl
  have hranked : rank (Query.active q) true (reports.flatMap Report.candidates) =
      ["$xs".toList] := by decide +kernel
  have htold : s.printer.reports q reports = told := by decide +kernel
  have hshown : s.printer.candidates q ["$xs".toList] = shown := by decide +kernel
  obtain ⟨hsources, hlisted, hquery', hlines⟩ :=
    (hexplain e s "\t " q hblank hquery).1 reports hreports
  rw [htold] at hsources hlisted
  rw [hranked, hshown] at hquery' hlines
  exact ⟨hblank, hquery, hparse _ _ hblank, reports, hreports, hsources, hlisted, hquery', hlines⟩

end Session
end ManifestShell
