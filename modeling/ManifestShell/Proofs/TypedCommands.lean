import ManifestShell.Proofs.SessionRuns

/-! Lines that are typed for a purpose.
A variable is bound and a document described by a line that is put together from words and a value
text.  Reading such a line gives back what it was put together from, or finds fault with the
variable and nothing else. -/
namespace ManifestShell

namespace Text

structure IsWord (w : Text) : Prop where
  ne_nil : w ≠ []
  not_blank : ∀ c ∈ w, isBlank c = false

variable {w t : Text} {ws : List Text}

theorem IsWord.tight (h : IsWord w) : Tight w := tight_of_notBlank h.not_blank

theorem isWord_iff : IsWord w ↔ (!w.isEmpty && w.all fun c => !isBlank c) = true := by
  rw [Bool.and_eq_true, List.all_eq_true]
  exact ⟨fun h => ⟨by simp [h.ne_nil], fun c hc => by simp [h.not_blank c hc]⟩,
    fun h => ⟨by simpa using h.1, fun c hc => by simpa using h.2 c hc⟩⟩

instance (w : Text) : Decidable (IsWord w) := decidable_of_iff _ isWord_iff.symm

theorem tight_iff :
    Tight t ↔ ((t.head?.all fun c => !isBlank c) && t.getLast?.all fun c => !isBlank c) = true := by
  simp [Tight, Option.all_eq_true]

instance (t : Text) : Decidable (Tight t) := decidable_of_iff _ tight_iff.symm

theorem Tight.append {s : Text} (hs : Tight s) (ht : Tight t) (hne : s ≠ []) (hne' : t ≠ [])
    (middle : Text) : Tight (s ++ (middle ++ t)) := by
  constructor
  · intro c hc
    rw [List.head?_append_of_ne_nil _ hne] at hc
    exact hs.1 c hc
  · intro c hc
    rw [← List.append_assoc, List.getLast?_append_of_ne_nil _ hne'] at hc
    exact ht.2 c hc

theorem words_go_append (h : ∀ c ∈ w, isBlank c = false) (run rest : Text) :
    words.go run (w ++ rest) = words.go (w.reverse ++ run) rest := by
  induction w generalizing run with
  | nil => rfl
  | cons c w ih =>
    obtain ⟨hc, hw⟩ := List.forall_mem_cons.1 h
    rw [List.cons_append, words.go, if_neg (by simp [hc]), ih hw]
    simp

theorem words_of_isWord (h : IsWord w) : words w = [w] := by
  have hgo := words_go_append h.not_blank [] []
  rw [List.append_nil, List.append_nil] at hgo
  rw [words, hgo, words.go, if_neg (by simp [h.ne_nil]), List.reverse_reverse]

theorem words_append_cons (h : IsWord w) (rest : Text) :
    words (w ++ ' ' :: rest) = w :: words rest := by
  have hblank : isBlank ' ' = true := by decide
  rw [words, words_go_append h.not_blank, List.append_nil, words.go, if_pos hblank,
    if_neg (by simp [h.ne_nil]), List.reverse_reverse]
  rfl

theorem words_intercalate (h : ∀ w ∈ ws, IsWord w) : words ([' '].intercalate ws) = ws := by
  induction ws with
  | nil => rfl
  | cons w ws ih =>
    obtain ⟨hw, hws⟩ := List.forall_mem_cons.1 h
    cases ws with
    | nil => rw [List.intercalate_singleton, words_of_isWord hw]
    | cons u us =>
      rw [List.intercalate_cons_cons, List.append_assoc, List.singleton_append,
        words_append_cons hw, ih hws]

theorem tight_intercalate (h : ∀ w ∈ ws, IsWord w) : Tight ([' '].intercalate ws) := by
  induction ws with
  | nil => exact tight_nil
  | cons w ws ih =>
    obtain ⟨hw, hws⟩ := List.forall_mem_cons.1 h
    cases ws with
    | nil =>
      rw [List.intercalate_singleton]
      exact hw.tight
    | cons u us =>
      have hne : [' '].intercalate (u :: us) ≠ [] := by
        intro hnil
        have hwords := words_intercalate hws
        simp [hnil, words, words.go] at hwords
      rw [List.intercalate_cons_cons, List.append_assoc]
      exact hw.tight.append (ih hws) hw.ne_nil hne _

end Text

namespace Command

open Text

variable {word arg var text root : Text} {tags : List Text}

theorem written_cons (hword : IsWord word) (harg : Tight arg) :
    Written (word ++ ' ' :: arg) word arg :=
  ⟨hword.ne_nil, hword.not_blank, harg, [], [' '], [], by simp, rfl, by decide, rfl, by simp⟩

def bindLine (var text : Text) : Text := ".bind".toList ++ ' ' :: (var ++ ' ' :: text)

def documentLine (root : Text) (tags : List Text) : Text :=
  ".document".toList ++ ' ' :: [' '].intercalate (root :: tags)

/-- A value text is taken as it is; only the variable can be wrong. -/
theorem parse_bindLine (hvar : IsWord var) (htext : Tight text) (hne : text ≠ []) :
    parse (bindLine var text) =
      (variableName var).map fun n => .bind n (Json.parseOrText text) := by
  have harg : Tight (var ++ ' ' :: text) := hvar.tight.append htext hvar.ne_nil hne [' ']
  have hline : Written (bindLine var text) ".bind" (var ++ ' ' :: text) :=
    written_cons (by decide) harg
  have hexit := not_exitLine_of_written hline (by decide)
  have hword : firstWord (var ++ ' ' :: text) = (var, text) := by
    rw [firstWord_append hvar.not_blank (by decide), trim_of_tight htext]
  rw [parse_of_written hline (by decide) hexit]
  change parseBind (var ++ ' ' :: text) = _
  simp only [parseBind, hword, List.isEmpty_iff, if_neg hne]

theorem parse_documentLine (hroot : IsWord root) (htags : ∀ t ∈ tags, IsWord t) :
    parse (documentLine root tags) = .ok (.document root tags) := by
  have hwords : ∀ w ∈ root :: tags, IsWord w := List.forall_mem_cons.2 ⟨hroot, htags⟩
  have hline : Written (documentLine root tags) ".document" ([' '].intercalate (root :: tags)) :=
    written_cons (by decide) (tight_intercalate hwords)
  exact parse_eq_ok_iff.2 (.document hline (words_intercalate hwords))

end Command

namespace Session

open Command Text

variable {var text root : Text} {tags : List Text}

theorem enter_bindLine (hvar : IsWord var) (htext : Tight text) (hne : text ≠ []) (e : Engine)
    (s : Session) :
    s.enter e (bindLine var text) = match variableName var with
      | .ok n => (s.bind n (Json.parseOrText text), .output none)
      | .error err => (s, .error err.toShellError) := by
  rw [enter, parse_bindLine hvar htext hne]
  cases variableName var <;> rfl

theorem enter_documentLine (hroot : IsWord root) (htags : ∀ t ∈ tags, IsWord t) (e : Engine)
    (s : Session) :
    (s.enter e (documentLine root tags)).1 =
      { s with document := some (Document.ofTags root tags) } := by
  rw [enter, parse_documentLine hroot htags]
  rfl

/-- Binding variables touches the table of variables and nothing else. -/
theorem foldl_bind (nvs : List (Text × Json)) (s : Session) :
    nvs.foldl (fun s b => s.bind b.1 b.2) s =
      { s with bindings := nvs.foldl (fun t b => t.insert b.1 b.2) s.bindings } := by
  induction nvs generalizing s with
  | nil => rfl
  | cons nv nvs ih => exact ih (s.bind nv.1 nv.2)

end Session
end ManifestShell
