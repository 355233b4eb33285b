import ManifestShell.Proofs.LocalFailures
import ManifestShell.Proofs.SessionRuns

/-! Completing the name of a variable.
No command can bind a name with a colon in it, so whatever beginning of a variable is typed, it
stays within the active segment, and the variable fits there. -/
namespace ManifestShell

namespace Command

theorem IsName.notMem_colon {n : Text} (h : IsName n) : ':' ∉ n := by
  obtain ⟨c, cs, rfl, hc, hcs⟩ := h
  intro hmem
  rcases List.mem_cons.1 hmem with rfl | hmem
  · exact absurd hc (by decide)
  · exact absurd (hcs ':' hmem) (by decide)

end Command

namespace Query

theorem active_append_of_committed {committed q : Text}
    (hcommitted : committed = [] ∨ committed.getLast? = some ':') (hq : ':' ∉ q) :
    active (committed ++ q) = q := by
  rcases hcommitted with rfl | hcolon
  · exact active_of_notMem hq
  · obtain ⟨before, rfl⟩ := List.getLast?_eq_some_iff.1 hcolon
    rw [List.append_assoc]
    exact active_append_cons before hq

end Query

namespace Engine

variable {settings : CompletionSettings} {c : Context} {line n : Text}

theorem contributes_variable (hn : n ∈ c.bindings.keys) :
    (ofSettings settings).Contributes line c ('$' :: n) := by
  have hform : '$' :: n ∈ Source.variableForms c := List.mem_map.2 ⟨n, hn, rfl⟩
  exact ⟨Source.bindings, mem_sources_ofSettings_iff.2 (Or.inr (Or.inl rfl)), _, rfl,
    List.mem_append_left _ hform⟩

theorem variable_mem_candidates
    (hdoc : ∀ d, c.document = some d → ∃ name children, d = .element name children)
    (hn : n ∈ c.bindings.keys) (hactive : Query.active line <+: '$' :: n) :
    '$' :: n ∈ (ofSettings settings).candidates line c := by
  rw [mem_candidates (not_breaksDown_ofSettings settings line hdoc)]
  exact Or.inl ⟨contributes_variable hn, Or.inl hactive⟩

end Engine

namespace Session

open Command

/-- Bound variables are always offered: in a session that began without variables, after any lines
and with any settings, a bound variable is among the candidates for every line that ends in a
beginning of it, be that the whole line or what stands behind a colon. -/
theorem bound_variables_offered (settings : CompletionSettings) (e : Engine) (s : Session)
    (hs : s.bindings = Table.empty) (lines : List Text)
    (hdoc : ∀ d, (s.run e lines).document = some d → ∃ name children, d = .element name children)
    (n : Text) (hn : ((s.run e lines).bindings.find? n).isSome) (committed q : Text)
    (hcommitted : committed = [] ∨ committed.getLast? = some ':') (hq : q <+: '$' :: n) :
    '$' :: n ∈
      ((Engine.ofSettings settings).complete (committed ++ q) (s.run e lines).context).1 := by
  have hkey : n ∈ (s.run e lines).bindings.keys := Table.mem_keys_iff.2 hn
  have hstart : ∀ m ∈ s.bindings.keys, IsName m := by
    rw [hs]
    intro m hm
    cases hm
  have hcolon : ':' ∉ '$' :: n := by simp [(isName_run hstart n hkey).notMem_colon]
  have hactive : Query.active (committed ++ q) = q :=
    Query.active_append_of_committed hcommitted fun hmem => hcolon (hq.subset hmem)
  exact Engine.variable_mem_candidates hdoc hkey (by rwa [hactive])

/-- A variable that was bound before a document was described, behind a cast and an import. -/
theorem variable_offered_behind_colon :
    let e := Engine.ofSettings {}
    let s := Session.new Table.empty Listing.empty.fileSystem {}
    let lines : List Text := [".bind $feed [1]", ".bind old", ".unbind old", ".document ADI ad"]
    s.bindings = Table.empty ∧
      (∀ d, (s.run e lines).document = some d → ∃ name children, d = .element name children) ∧
      ((s.run e lines).bindings.find? "feed").isSome ∧
      "import x as :".toList.getLast? = some ':' ∧ "$fe".toList <+: "$feed".toList ∧
      "$feed".toList ∈ (e.complete "import x as :$fe" (s.run e lines).context).1 := by
  intro e s lines
  have hdoc : ∀ d, (s.run e lines).document = some d →
      ∃ name children, d = .element name children := by
    intro d hd
    exact ⟨_, _, (Option.some.inj hd).symm⟩
  have hbound : ((s.run e lines).bindings.find? "feed").isSome := by rfl
  have hcolon : "import x as :".toList.getLast? = some ':' := by rfl
  have hbegins : "$fe".toList <+: "$feed".toList := ⟨"ed".toList, rfl⟩
  exact ⟨rfl, hdoc, hbound, hcolon, hbegins, bound_variables_offered {} e s rfl lines hdoc "feed"
    hbound "import x as :" "$fe" (Or.inr hcolon) hbegins⟩

end Session
end ManifestShell
