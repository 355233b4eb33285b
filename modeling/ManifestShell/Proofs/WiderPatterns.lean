import ManifestShell.Proofs.ListedTrees
import ManifestShell.Proofs.LocalFailures

/-! Why the wider pattern finds nothing new in a listing.
The pattern with a star behind the typed path and the wider one that is tried after it begin with
the same tokens.  If a path matches these tokens and then anything, the path itself or one above it
matches them and then a star.  In a listing what lies above a listed path is listed, so the wider
pattern finds something only where the first one did. -/
namespace ManifestShell

namespace Glob

open Listing

variable {ts us vs : List Token} {t u : Text}

theorem mem_laterComponents : u ∈ laterComponents t ↔ u = [] ∨ ∃ front, t = front ++ '/' :: u := by
  induction t with
  | nil => simp [laterComponents]
  | cons c t ih =>
    have hlonger : (∃ front, c :: t = front ++ '/' :: u) ↔
        (c = '/' ∧ u = t) ∨ ∃ front, t = front ++ '/' :: u := by
      constructor
      · rintro ⟨_ | ⟨d, front⟩, heq⟩
        · obtain ⟨rfl, rfl⟩ := List.cons.inj heq
          exact Or.inl ⟨rfl, rfl⟩
        · exact Or.inr ⟨front, (List.cons.inj heq).2⟩
      · rintro (⟨rfl, rfl⟩ | ⟨front, rfl⟩)
        · exact ⟨[], rfl⟩
        · exact ⟨c :: front, rfl⟩
    rw [hlonger, laterComponents]
    by_cases hc : c = '/'
    · rw [if_pos hc, List.mem_cons, ih]
      simp only [hc, true_and]
      exact or_left_comm
    · simp [hc, ih]

theorem matchesText_anyComponents_iff : matchesText (.anyComponents :: ts) t = true ↔
    matchesText ts t = true ∨ matchesText ts [] = true ∨
      ∃ front rest, t = front ++ '/' :: rest ∧ matchesText ts rest = true := by
  rw [matchesText, List.any_eq_true]
  simp only [componentTails, List.mem_cons, mem_laterComponents]
  constructor
  · rintro ⟨u, rfl | rfl | ⟨front, rfl⟩, hu⟩
    · exact Or.inl hu
    · exact Or.inr (Or.inl hu)
    · exact Or.inr (Or.inr ⟨front, u, rfl, hu⟩)
  · rintro (h | h | ⟨front, rest, rfl, h⟩)
    · exact ⟨t, Or.inl rfl, h⟩
    · exact ⟨[], Or.inr (Or.inl rfl), h⟩
    · exact ⟨rest, Or.inr (Or.inr ⟨front, rfl⟩), h⟩

/-- A token that admits a character stands for that character alone. -/
theorem matchesText_single_iff {k : Token} (hrun : k ≠ .anyRun) (hcomponents : k ≠ .anyComponents) :
    matchesText (k :: ts) t = true ↔
      ∃ c rest, t = c :: rest ∧ k.admits c = true ∧ matchesText ts rest = true := by
  cases t with
  | nil =>
    rw [matchesText] <;> simp [hrun, hcomponents]
  | cons c t =>
    rw [matchesText]
    · simp
    · exact hrun
    · exact hcomponents

/-- The end of a pattern may be changed to one that always matches somewhere at or above: then the
pattern matches at or above whatever it matched. -/
theorem exists_atOrAbove_of_matchesText (hvs : ∀ t, ∃ p, AtOrAbove p t ∧ matchesText vs p = true)
    (h : matchesText (ts ++ us) t = true) :
    ∃ p, AtOrAbove p t ∧ matchesText (ts ++ vs) p = true := by
  induction ts generalizing t with
  | nil => exact hvs t
  | cons k ts ih =>
    rw [List.cons_append] at h ⊢
    by_cases hrun : k = .anyRun
    · subst hrun
      obtain ⟨run, rest, hrun, rfl, hrest⟩ := matchesText_anyRun_iff.1 h
      obtain ⟨p, hp, hmatch⟩ := ih hrest
      exact ⟨run ++ p, hp.append_left run, matchesText_anyRun_iff.2 ⟨run, p, hrun, rfl, hmatch⟩⟩
    by_cases hcomponents : k = .anyComponents
    · subst hcomponents
      rcases matchesText_anyComponents_iff.1 h with hall | hnone | ⟨front, rest, rfl, hrest⟩
      · obtain ⟨p, hp, hmatch⟩ := ih hall
        exact ⟨p, hp, matchesText_anyComponents_iff.2 (Or.inl hmatch)⟩
      · -- nothing was left, and nothing lies above nothing
        obtain ⟨p, rfl | hp, hmatch⟩ := ih hnone
        · exact ⟨t, .refl t, matchesText_anyComponents_iff.2 (Or.inr (Or.inl hmatch))⟩
        · simp at hp
      · obtain ⟨p, hp, hmatch⟩ := ih hrest
        exact ⟨front ++ '/' :: p, (hp.append_left ['/']).append_left front,
          matchesText_anyComponents_iff.2 (Or.inr (Or.inr ⟨front, p, rfl, hmatch⟩))⟩
    · obtain ⟨c, rest, rfl, hc, hrest⟩ := (matchesText_single_iff hrun hcomponents).1 h
      obtain ⟨p, hp, hmatch⟩ := ih hrest
      exact ⟨c :: p, hp.append_left [c],
        (matchesText_single_iff hrun hcomponents).2 ⟨c, p, rfl, hc, hmatch⟩⟩

theorem exists_atOrAbove_anyRun (t : Text) :
    ∃ p, AtOrAbove p t ∧ matchesText [.anyRun] p = true := by
  by_cases h : '/' ∈ t
  · obtain ⟨p, rest, rfl, hp⟩ := List.eq_append_cons_of_mem h
    exact ⟨p, atOrAbove_append_cons p rest, matchesText_run_iff.2 hp⟩
  · exact ⟨t, .refl t, matchesText_run_iff.2 h⟩

theorem exists_atOrAbove_anyComponents (t : Text) :
    ∃ p, AtOrAbove p t ∧ matchesText [.anyComponents] p = true :=
  ⟨t, .refl t, matchesText_anyComponents_iff.2 (Or.inr (Or.inl rfl))⟩

end Glob

namespace Source

open Glob Listing

variable {l : Listing} {typed : Text} {limit : Nat}

/-- If the wider pattern finds something, then so does the first one. -/
theorem glob_deepPattern_eq_nil (hl : TreeShaped l) (hvalid : Pattern true (typed ++ ['*']))
    (hnone : l.glob (typed ++ ['*']) limit = .ok []) :
    l.glob (deepPattern typed) limit = .ok [] := by
  obtain ⟨ts, last, us, hlast, hfirst, hdeep⟩ := exists_parse_deepPattern hvalid
  simp only [Listing.glob, hfirst, hdeep, Except.ok.injEq, List.take_eq_nil_iff,
    List.filter_eq_nil_iff] at hnone ⊢
  refine hnone.imp_right fun hno k hk hmatch => ?_
  have hend : ∀ t, ∃ p, AtOrAbove p t ∧ matchesText [last] p = true := by
    rcases hlast with rfl | rfl
    · exact exists_atOrAbove_anyRun
    · exact exists_atOrAbove_anyComponents
  obtain ⟨p, hp, hmatch⟩ := exists_atOrAbove_of_matchesText hend hmatch
  exact hno p (hl.closed k hk p hp) hmatch

theorem pathEntries_eq_glob (hl : TreeShaped l) (typed : Text) (limit : Nat) :
    pathEntries l.fileSystem limit typed = l.glob (typed ++ ['*']) limit := by
  have hfirst : l.fileSystem.glob (typed ++ ['*']) limit = l.glob (typed ++ ['*']) limit := rfl
  unfold pathEntries
  rw [hfirst]
  cases hhits : l.glob (typed ++ ['*']) limit with
  | error err => rfl
  | ok hits =>
    cases hits with
    | cons hit hits => rfl
    | nil =>
      have hvalid : Pattern true (typed ++ ['*']) := by
        by_contra hbad
        obtain ⟨err, herr⟩ := (listing_glob_eq_error_iff l _ limit).2 hbad
        rw [hfirst, hhits] at herr
        cases herr
      exact glob_deepPattern_eq_nil hl hvalid hhits

/-- In a listing declared by paths without empty components the wider pattern never adds anything,
whatever wildcards the typed path has: where the first pattern finds nothing the wider one finds
nothing either, and so the entries for a typed path are always those of the first pattern. -/
theorem wider_pattern_adds_nothing (ds : List Declaration) (hds : ∀ decl ∈ ds, Gapless decl.path)
    (typed : Text) (hvalid : Pattern true (typed ++ ['*'])) (limit : Nat) :
    let l := ofDeclarations ds
    (l.glob (typed ++ ['*']) limit = .ok [] → l.glob (deepPattern typed) limit = .ok []) ∧
      ∃ hits, l.glob (typed ++ ['*']) limit = .ok hits ∧
        pathEntries l.fileSystem limit typed = .ok hits := by
  intro l
  have hl : TreeShaped l := treeShaped_ofDeclarations hds
  refine ⟨glob_deepPattern_eq_nil hl hvalid, ?_⟩
  cases hhits : l.glob (typed ++ ['*']) limit with
  | error err => exact absurd hvalid ((listing_glob_eq_error_iff l _ limit).1 ⟨err, hhits⟩)
  | ok hits => exact ⟨hits, rfl, (pathEntries_eq_glob hl typed limit).trans hhits⟩

/-- A file two levels down, and two typed paths with wildcards of which one leads nowhere. -/
theorem wider_pattern_below_feeds :
    let ds : List Declaration := [.file "feeds/2024/jan.xml", .directory "lib/"]
    let l := ofDeclarations ds
    (∀ decl ∈ ds, Gapless decl.path) ∧ Pattern true ("f*/[!x]".toList ++ ['*']) ∧
      pathEntries l.fileSystem 3 "f*/[!x]" = .ok ["feeds/2024".toList] ∧
      Pattern true ("**/no".toList ++ ['*']) ∧ deepPattern "**/no" = "**/no*/**" ∧
      l.glob "**/no*/**" 3 = .ok [] ∧ pathEntries l.fileSystem 3 "**/no" = .ok [] := by
  intro ds l
  have hds : ∀ decl ∈ ds, Gapless decl.path := by decide
  have hclass : Pattern true ("f*/[!x]".toList ++ ['*']) := parse_ok_iff.1 ⟨_, rfl⟩
  have hnowhere : Pattern true ("**/no".toList ++ ['*']) := parse_ok_iff.1 ⟨_, rfl⟩
  have hone : l.glob ("f*/[!x]".toList ++ ['*']) 3 = .ok ["feeds/2024".toList] := by decide +kernel
  have hnone : l.glob ("**/no".toList ++ ['*']) 3 = .ok [] := by decide +kernel
  obtain ⟨_, hits, hhits, hentries⟩ := wider_pattern_adds_nothing ds hds _ hclass 3
  obtain ⟨hdeep, hits', hhits', hentries'⟩ := wider_pattern_adds_nothing ds hds _ hnowhere 3
  exact ⟨hds, hclass, hentries.trans (hhits.symm.trans hone), hnowhere, by decide, hdeep hnone,
    hentries'.trans (hhits'.symm.trans hnone)⟩

end Source
end ManifestShell
