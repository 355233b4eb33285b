import Mathlib.Data.List.Forall2
import ManifestShell.Proofs.Candidates
import ManifestShell.Proofs.PatternGrammar

/-! Failures of a source stay with it.
Over a listing the only source that can fail is the one for paths, and it fails exactly if the typed
path does not begin a pattern: widening the search to what is further down never makes a pattern
invalid.  Since the words of the language are always contributed, an engine that falls back to all
candidates is never at a loss. -/
namespace ManifestShell

def Report.Failed (r : Report) : Prop := ∃ err, r.result = .error err

namespace Source

theorem source_of_report? {s : Source} {line : Text} {c : Context} {r : Report}
    (h : s.report? line c = some r) : r.source = s.name := by
  unfold report? at h
  cases ho : s.offer line c with
  | breakdown => simp [ho] at h
  | answer cs =>
    rw [ho] at h
    exact Option.some.inj h ▸ rfl
  | failure err =>
    rw [ho] at h
    exact Option.some.inj h ▸ rfl

theorem failed_iff {s : Source} {line : Text} {c : Context} {r : Report}
    (h : s.report? line c = some r) : r.Failed ↔ ∃ err, s.offer line c = .failure err := by
  unfold report? at h
  cases ho : s.offer line c with
  | breakdown => simp [ho] at h
  | answer cs =>
    rw [ho] at h
    simp [← Option.some.inj h, Report.Failed]
  | failure err =>
    rw [ho] at h
    simp [← Option.some.inj h, Report.Failed]

open Glob

/-- What can be scanned before a star can be scanned before the widened end of the pattern.  Both
begin with the same tokens, and behind these the first has one more, which stands for the star. -/
theorem exists_parse_deepPattern {typed : Text} (h : Pattern true (typed ++ ['*'])) :
    ∃ ts last us, (last = Token.anyRun ∨ last = Token.anyComponents) ∧
      parse (typed ++ ['*']) = .ok (ts ++ [last]) ∧ parse (deepPattern typed) = .ok (ts ++ us) := by
  rw [← parse_ok_iff] at h
  unfold deepPattern
  split_ifs with hlast
  · obtain ⟨before, rfl⟩ := List.getLast?_eq_some_iff.1 hlast
    rw [List.append_assoc] at h
    obtain ⟨ts, s, pos, ⟨us, hseam⟩, hall⟩ := exists_seam h
    have hends : ∃ lead, scan s pos ['/', '*'] = .ok (lead ++ [.anyRun]) ∧
        scan s pos ['/', '*', '*'] = .ok (lead ++ [.anyComponents]) := by
      cases s with
      | between fresh => exact ⟨[.char '/'], rfl, rfl⟩
      | star fresh start => exact ⟨[.anyRun, .char '/'], rfl, rfl⟩
      | stars fresh start =>
        cases fresh with
        | true => exact ⟨[.anyComponents], rfl, rfl⟩
        | false => cases hseam
      | classOpen | classNegated | classBody => cases hseam
    obtain ⟨lead, hrun, hdeep⟩ := hends
    refine ⟨ts ++ lead, .anyRun, [.anyComponents], Or.inl rfl, ?_, ?_⟩
    · rw [List.append_assoc, List.append_assoc]
      exact hall _ _ hrun
    · rw [List.append_assoc, List.append_assoc]
      exact hall _ _ hdeep
  · obtain ⟨ts, s, pos, ⟨us, hseam⟩, hall⟩ := exists_seam h
    cases s with
    | between fresh =>
      exact ⟨ts, .anyRun, [.anyRun, .char '/', .anyComponents], Or.inl rfl, hall _ _ rfl,
        hall _ _ rfl⟩
    | star fresh start =>
      -- a second star is accepted only if the two make up a component
      cases fresh with
      | true =>
        exact ⟨ts, .anyComponents, [.anyComponents, .anyComponents], Or.inr rfl, hall _ _ rfl,
          hall _ _ rfl⟩
      | false => cases hseam
    | stars | classOpen | classNegated | classBody => cases hseam

theorem deepPattern_of_pattern {typed : Text} (h : Pattern true (typed ++ ['*'])) :
    Pattern true (deepPattern typed) := by
  obtain ⟨ts, last, us, _, _, hdeep⟩ := exists_parse_deepPattern h
  exact parse_ok_iff.1 ⟨ts ++ us, hdeep⟩

theorem listing_glob_eq_error_iff (l : Listing) (pattern : Text) (limit : Nat) :
    (∃ err, l.fileSystem.glob pattern limit = .error err) ↔ ¬ Pattern true pattern := by
  have hglob : l.fileSystem.glob pattern limit = l.glob pattern limit := rfl
  rw [← parse_ok_iff, hglob, Listing.glob]
  cases parse pattern <;> simp

theorem pathEntries_eq_error_iff {l : Listing} {limit : Nat} {typed : Text} :
    (∃ err, pathEntries l.fileSystem limit typed = .error err) ↔
      ¬ Pattern true (typed ++ ['*']) := by
  rw [← listing_glob_eq_error_iff l _ limit, pathEntries]
  cases hhits : l.fileSystem.glob (typed ++ ['*']) limit with
  | error err => simp
  | ok hits =>
    cases hits with
    | cons hit hits => simp
    | nil =>
      have hvalid : Pattern true (typed ++ ['*']) := by
        by_contra hbad
        obtain ⟨err, herr⟩ := (listing_glob_eq_error_iff l _ limit).2 hbad
        simp [hhits] at herr
      have hdeep : ¬ ∃ err, l.fileSystem.glob (deepPattern typed) limit = .error err := fun hbad =>
        (listing_glob_eq_error_iff l _ limit).1 hbad (deepPattern_of_pattern hvalid)
      simpa using hdeep

theorem path_fails_iff {l : Listing} {c : Context} {line : Text} (hfiles : c.files = l.fileSystem)
    (limit : Nat) :
    (∃ err, (path limit).offer line c = .failure err) ↔
      ∃ before typed after, Query.importSpan? line = some (before, typed, after) ∧
        ¬ Pattern true (typed ++ ['*']) := by
  have hoffer : (∃ err, (path limit).offer line c = .failure err) ↔
      ∃ err, pathForms l.fileSystem limit line = .error err := by
    simp only [path, hfiles]
    cases pathForms l.fileSystem limit line <;> simp
  rw [hoffer, pathForms]
  cases hspan : Query.importSpan? line with
  | none => simp
  | some span =>
    obtain ⟨before, typed, after⟩ := span
    have hforms : (∃ err, (pathEntries l.fileSystem limit typed).map
        (fun es => es.filterMap (pathForm l.fileSystem before after)) = .error err) ↔
        ∃ err, pathEntries l.fileSystem limit typed = .error err := by
      cases pathEntries l.fileSystem limit typed <;> simp [Except.map]
    refine (hforms.trans pathEntries_eq_error_iff).trans ⟨fun hbad => ?_, ?_⟩
    · exact ⟨before, typed, after, rfl, hbad⟩
    · rintro ⟨before', typed', after', heq, hbad⟩
      simp only [Option.some.injEq, Prod.mk.injEq] at heq
      exact heq.2.1 ▸ hbad

theorem document_offer {c : Context} (line : Text)
    (hdoc : ∀ d, c.document = some d → ∃ name children, d = .element name children) :
    ∃ cs, document.offer line c = .answer cs := by
  have hoffer : document.offer line c = documentForms c.document := rfl
  rw [hoffer]
  cases hd : c.document with
  | none => exact ⟨[], rfl⟩
  | some d =>
    obtain ⟨name, children, rfl⟩ := hdoc d hd
    exact ⟨(Document.distinctNames children).flatMap tagForms, rfl⟩

end Source

namespace Engine

theorem mem_sources_ofSettings_iff {settings : CompletionSettings} {s : Source} :
    s ∈ (ofSettings settings).sources ↔ s = Source.grammar ∨ s = Source.bindings ∨
      (settings.documentCompletion = true ∧ s = Source.document) ∨
      (settings.pathCompletion = true ∧ s = Source.path settings.maxPathMatches) ∨
      s = Source.contextual := by
  obtain ⟨fallback, path, document, limit⟩ := settings
  cases path <;> cases document <;> simp [ofSettings]

theorem offer_of_mem_sources {settings : CompletionSettings} {s : Source} {c : Context}
    (line : Text) (hdoc : ∀ d, c.document = some d → ∃ name children, d = .element name children)
    (hs : s ∈ (ofSettings settings).sources) :
    (∃ cs, s.offer line c = .answer cs) ∨
      (settings.pathCompletion = true ∧ s = Source.path settings.maxPathMatches) := by
  rcases mem_sources_ofSettings_iff.1 hs with rfl | rfl | ⟨_, rfl⟩ | hpath | rfl
  · exact Or.inl ⟨Query.vocabulary line, rfl⟩
  · exact Or.inl ⟨Source.variableForms c ++ Source.functionForms c, rfl⟩
  · exact Or.inl (Source.document_offer line hdoc)
  · exact Or.inr hpath
  · exact Or.inl ⟨Query.continuations line, rfl⟩

theorem not_breaksDown_ofSettings (settings : CompletionSettings) {c : Context} (line : Text)
    (hdoc : ∀ d, c.document = some d → ∃ name children, d = .element name children) :
    ¬ (ofSettings settings).BreaksDown line c := by
  rintro ⟨s, hs, hdown⟩
  rcases offer_of_mem_sources line hdoc hs with ⟨cs, hcs⟩ | ⟨_, rfl⟩
  · simp [hcs] at hdown
  · simp only [Source.path] at hdown
    split at hdown <;> simp at hdown

section Collect

variable {e : Engine} {line : Text} {c : Context} {rs : List Report}

theorem forall₂_of_collect (h : e.collect line c = some rs) :
    List.Forall₂ (fun s r => Source.report? s line c = some r) e.sources rs := by
  change (e.sources.mapM fun s => s.report? line c) = some rs at h
  generalize e.sources = ss at h
  induction ss generalizing rs with
  | nil =>
    obtain rfl : [] = rs := by simpa using h
    exact .nil
  | cons s ss ih =>
    rw [List.mapM_cons] at h
    obtain ⟨r, hr, h⟩ := Option.bind_eq_some_iff.1 h
    obtain ⟨rs', hrs, h⟩ := Option.bind_eq_some_iff.1 h
    obtain rfl : r :: rs' = rs := by simpa using h
    exact .cons hr (ih hrs)

theorem sources_of_collect (h : e.collect line c = some rs) :
    rs.map Report.source = e.sourceNames := by
  have hall := forall₂_of_collect h
  clear h
  rw [sourceNames]
  generalize e.sources = ss at hall
  induction hall with
  | nil => rfl
  | cons hr _ ih => rw [List.map_cons, List.map_cons, ih, Source.source_of_report? hr]

theorem mem_of_collect {r : Report} (h : e.collect line c = some rs) :
    r ∈ rs ↔ ∃ s ∈ e.sources, s.report? line c = some r := by
  have hall := forall₂_of_collect h
  clear h
  generalize e.sources = ss at hall
  induction hall with
  | nil => simp
  | cons hr _ ih => simp [ih, hr, eq_comm]

theorem failed_of_collect (h : e.collect line c = some rs) (name : Text) :
    (∃ r ∈ rs, r.Failed ∧ r.source = name) ↔
      ∃ s ∈ e.sources, (∃ err, s.offer line c = .failure err) ∧ s.name = name := by
  constructor
  · rintro ⟨r, hr, hfailed, rfl⟩
    obtain ⟨s, hs, hreport⟩ := (mem_of_collect h).1 hr
    exact ⟨s, hs, (Source.failed_iff hreport).1 hfailed, (Source.source_of_report? hreport).symm⟩
  · rintro ⟨s, hs, ⟨err, herr⟩, rfl⟩
    have hreport : s.report? line c = some ⟨s.name, .error err⟩ := by simp [Source.report?, herr]
    exact ⟨_, (mem_of_collect h).2 ⟨s, hs, hreport⟩, ⟨err, rfl⟩, rfl⟩

end Collect

theorem candidates_ne_nil {e : Engine} {line t : Text} {c : Context}
    (hdown : ¬ e.BreaksDown line c) (hall : e.fallbackToAll = true)
    (ht : e.Contributes line c t) : e.candidates line c ≠ [] := by
  intro hnil
  have hnone : ∀ u, ¬ e.Shown line c u := fun u hu => by
    have hmem := (mem_candidates hdown).2 hu
    simp [hnil] at hmem
  have hfit : ∀ m, ¬ e.Fitting line c m := fun m hm => hnone m (Or.inl hm)
  exact hnone t (Or.inr ⟨hfit, hall, ht⟩)

/-- Over a listing, and with no document or one that is an element, every source reports, in order.
Only the source for paths can fail.  It does so exactly if paths are completed and the path typed in
an import is no pattern once a star is put behind it, and the wider pattern never adds a failure.
An engine that falls back to all candidates always shows some. -/
theorem failures_stay_local (settings : CompletionSettings) (l : Listing) (c : Context)
    (line : Text) (hfiles : c.files = l.fileSystem)
    (hdoc : ∀ d, c.document = some d → ∃ name children, d = .element name children) :
    (∃ reports, (ofSettings settings).collect line c = some reports ∧
      reports.map Report.source = (ofSettings settings).sourceNames ∧
      (∀ r ∈ reports, r.Failed → r.source = "path") ∧
      ((∃ r ∈ reports, r.Failed ∧ r.source = "path") ↔ settings.pathCompletion = true ∧
        ∃ before typed after, Query.importSpan? line = some (before, typed, after) ∧
          ¬ Glob.Pattern true (typed ++ ['*']))) ∧
    (∀ typed, Glob.Pattern true (typed ++ ['*']) → Glob.Pattern true (Source.deepPattern typed)) ∧
    (settings.fallbackToAll = true → ((ofSettings settings).complete line c).1 ≠ []) := by
  have hdown := not_breaksDown_ofSettings settings line hdoc
  obtain ⟨reports, hreports⟩ := exists_collect hdown
  -- a source that fails is the one for paths
  have honly : ∀ s ∈ (ofSettings settings).sources, (∃ err, s.offer line c = .failure err) →
      settings.pathCompletion = true ∧ s = Source.path settings.maxPathMatches := by
    rintro s hs ⟨err, herr⟩
    rcases offer_of_mem_sources line hdoc hs with ⟨cs, hcs⟩ | hpath
    · simp [hcs] at herr
    · exact hpath
  refine ⟨⟨reports, hreports, sources_of_collect hreports, ?_, ?_⟩,
    fun typed => Source.deepPattern_of_pattern, fun hall => ?_⟩
  · intro r hr hfailed
    obtain ⟨s, hs, hfails, hname⟩ := (failed_of_collect hreports r.source).1 ⟨r, hr, hfailed, rfl⟩
    obtain ⟨_, rfl⟩ := honly s hs hfails
    exact hname.symm
  · rw [failed_of_collect hreports, ← Source.path_fails_iff hfiles settings.maxPathMatches]
    constructor
    · rintro ⟨s, hs, hfails, _⟩
      obtain ⟨hpath, rfl⟩ := honly s hs hfails
      exact ⟨hpath, hfails⟩
    · rintro ⟨hpath, hfails⟩
      exact ⟨_, mem_sources_ofSettings_iff.2 (by simp [hpath]), hfails, rfl⟩
  · have hword : (ofSettings settings).Contributes line c "name" :=
      ⟨Source.grammar, mem_sources_ofSettings_iff.2 (Or.inl rfl), Query.vocabulary line, rfl, by
        simp [Query.vocabulary, Query.accessors]⟩
    exact candidates_ne_nil hdown hall hword

/-- An open class in the typed path: the source for paths fails and the others go on. -/
theorem open_class_fails_path_only :
    let c : Context := ⟨Table.empty, Table.empty, some (Document.ofTags "ADI" ["ad"]),
      (Listing.empty.addFile "data1.xml").fileSystem⟩
    (∀ d, c.document = some d → ∃ name children, d = .element name children) ∧
      ∃ reports, (ofSettings {}).collect "import \"data[1" c = some reports ∧
        reports.map Report.source = (ofSettings {}).sourceNames ∧
        (∀ r ∈ reports, r.Failed → r.source = "path") ∧
        ∃ r ∈ reports, r.Failed ∧ r.source = "path" := by
  intro c
  have hdoc : ∀ d, c.document = some d → ∃ name children, d = .element name children := by
    intro d hd
    exact ⟨_, _, (Option.some.inj hd).symm⟩
  obtain ⟨⟨reports, hreports, hsources, honly, hiff⟩, _, _⟩ :=
    failures_stay_local {} (Listing.empty.addFile "data1.xml") c "import \"data[1" rfl hdoc
  refine ⟨hdoc, reports, hreports, hsources, honly, hiff.2 ⟨rfl, _, _, _, by rfl, ?_⟩⟩
  rw [← Glob.parse_ok_iff]
  rintro ⟨ts, hts⟩
  cases hts

end Engine
end ManifestShell
