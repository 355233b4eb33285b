import Mathlib.Data.List.Infix
import ManifestShell.Completion.Hint
import ManifestShell.Files
import ManifestShell.Proofs.Candidates
import ManifestShell.Proofs.ImportSpans
import ManifestShell.Shell.Session

/-! What accepting a candidate does to the typed line.
A candidate that begins with the line is taken as it is, any other replaces the active segment and
keeps the committed ones.  Suggestions never lose committed text; but a candidate that was made from
the whole line and does not begin with it is put behind the committed segments a second time. -/
namespace ManifestShell

def withoutColon (t : Text) : Text := (Text.dropStart? [':'] t).getD t

@[simp] theorem withoutColon_cons (t : Text) : withoutColon (':' :: t) = t := by
  simp [withoutColon, Text.dropStart?_eq_some_iff.2 (show ':' :: t = [':'] ++ t from rfl)]

theorem withoutColon_of_head {t : Text} (h : t.head? ≠ some ':') : withoutColon t = t := by
  have hnone : Text.dropStart? [':'] t = none := by
    cases hd : Text.dropStart? [':'] t with
    | none => rfl
    | some rest =>
      rw [Text.dropStart?_eq_some_iff.1 hd] at h
      simp at h
  simp [withoutColon, hnone]

theorem length_le_withoutColon (t : Text) : t.length ≤ (withoutColon t).length + 1 := by
  by_cases h : t.head? = some ':'
  · obtain ⟨u, rfl⟩ := List.head?_eq_some_iff.1 h
    simp
  · rw [withoutColon_of_head h]
    exact Nat.le_succ _

theorem replacement_of_isPrefix {line t : Text} (h : line <+: t) (hne : line ≠ []) :
    replacement line t = t := by
  simp [replacement, h, hne]

theorem replacement_of_notMem {line : Text} (h : ':' ∉ line) (t : Text) :
    replacement line t = t := by
  simp [replacement, Text.splitLast?_eq_none_iff.2 h]

theorem replacement_append_cons {before after t : Text} (ha : ':' ∉ after)
    (h : ¬ before ++ ':' :: after <+: t) :
    replacement (before ++ ':' :: after) t = before ++ ':' :: withoutColon t := by
  simp [replacement, h, Text.splitLast?_append_cons before ha, withoutColon]

/-- The text up to and including the last colon is kept, whatever the candidate. -/
theorem committed_isPrefix_replacement {before after : Text} (ha : ':' ∉ after) (t : Text) :
    before ++ [':'] <+: replacement (before ++ ':' :: after) t := by
  by_cases h : before ++ ':' :: after <+: t
  · rw [replacement_of_isPrefix h (by simp)]
    exact (show before ++ [':'] <+: before ++ ':' :: after from
      (List.prefix_append_right_inj before).2 (by simp)).trans h
  · rw [replacement_append_cons ha h]
    exact (List.prefix_append_right_inj before).2 (by simp)

theorem line_isPrefix_replacement {line t : Text}
    (h : Query.active line <+: t ∨ (':' :: Query.active line) <+: t) :
    line <+: replacement line t ∨ (':' ∉ line ∧ (':' :: line) <+: replacement line t) := by
  rcases Text.notMem_or_exists_last ':' line with hn | ⟨before, after, rfl, ha⟩
  · rw [Query.active_of_notMem hn] at h
    rw [replacement_of_notMem hn]
    exact h.imp_right fun h => ⟨hn, h⟩
  · rw [Query.active_append_cons before ha] at h
    left
    by_cases hp : before ++ ':' :: after <+: t
    · rwa [replacement_of_isPrefix hp (by simp)]
    · rw [replacement_append_cons ha hp]
      refine (List.prefix_append_right_inj before).2 (List.cons_prefix_cons.2 ⟨rfl, ?_⟩)
      rcases h with h | h
      · -- the active segment has no colon, so dropping one can only matter if it is empty
        by_cases hhead : t.head? = some ':'
        · obtain ⟨u, rfl⟩ := List.head?_eq_some_iff.1 hhead
          cases after with
          | nil => exact List.nil_prefix
          | cons d after =>
            obtain ⟨rfl, _⟩ := List.cons_prefix_cons.1 h
            simp at ha
        · rwa [withoutColon_of_head hhead]
      · obtain ⟨u, rfl⟩ := h
        simp

theorem distinct_concat (ts : List Text) (t : Text) :
    distinct (ts ++ [t]) = if t ∈ distinct ts then distinct ts else distinct ts ++ [t] := by
  rw [distinct, List.foldl_concat, ← distinct]
  by_cases h : t ∈ distinct ts <;> simp [h]

theorem mem_distinct {ts : List Text} {v : Text} : v ∈ distinct ts ↔ v ∈ ts := by
  induction ts using List.reverseRecOn generalizing v with
  | nil => simp [distinct]
  | append_singleton ts t ih =>
    rw [distinct_concat]
    split_ifs with h
    · rw [ih, List.mem_append, List.mem_singleton]
      refine ⟨Or.inl, fun hv => hv.elim id ?_⟩
      rintro rfl
      exact ih.1 h
    · simp [ih]

/-- The members stand in the order in which they first appear. -/
theorem pairwise_idxOf_distinct (ts : List Text) :
    (distinct ts).Pairwise fun u v => ts.idxOf u < ts.idxOf v := by
  induction ts using List.reverseRecOn with
  | nil => exact List.Pairwise.nil
  | append_singleton ts t ih =>
    have hold : (distinct ts).Pairwise fun u v => (ts ++ [t]).idxOf u < (ts ++ [t]).idxOf v := by
      refine ih.imp_of_mem fun {u v} hu hv huv => ?_
      rwa [List.idxOf_append_of_mem (mem_distinct.1 hu),
        List.idxOf_append_of_mem (mem_distinct.1 hv)]
    rw [distinct_concat]
    split_ifs with h
    · exact hold
    · have ht : t ∉ ts := fun hm => h (mem_distinct.2 hm)
      refine List.pairwise_append.2 ⟨hold, List.pairwise_singleton _ _, fun u hu v hv => ?_⟩
      obtain rfl := List.mem_singleton.1 hv
      have hu' := mem_distinct.1 hu
      rw [List.idxOf_append_of_mem hu', List.idxOf_append_of_notMem ht]
      have := List.idxOf_lt_length_of_mem hu'
      omega

theorem nodup_distinct (ts : List Text) : (distinct ts).Nodup :=
  (pairwise_idxOf_distinct ts).imp fun {u v} h huv => by
    rw [huv] at h
    exact Nat.lt_irrefl _ h

theorem cutAtByte?_eq_some {n : Nat} {t before after : Text}
    (h : Text.cutAtByte? n t = some (before, after)) :
    t = before ++ after ∧ Text.byteSize before = n := by
  induction t generalizing n before with
  | nil =>
    cases n with
    | zero =>
      obtain ⟨rfl, rfl⟩ : [] = before ∧ [] = after := by simpa [Text.cutAtByte?] using h
      exact ⟨rfl, rfl⟩
    | succ n => simp [Text.cutAtByte?] at h
  | cons c t ih =>
    cases n with
    | zero =>
      obtain ⟨rfl, rfl⟩ : [] = before ∧ c :: t = after := by simpa [Text.cutAtByte?] using h
      exact ⟨rfl, rfl⟩
    | succ n =>
      unfold Text.cutAtByte? at h
      split at h
      · rename_i hle
        obtain ⟨p, hp, hpair⟩ := Option.map_eq_some_iff.1 h
        obtain ⟨rfl, rfl⟩ : c :: p.1 = before ∧ p.2 = after := by simpa using hpair
        obtain ⟨ht, hn⟩ := ih hp
        refine ⟨by rw [List.cons_append, ← ht], ?_⟩
        simp only [Text.byteSize, hn]
        omega
      · simp at h

theorem typedPart_append (before after : Text) :
    typedPart (before ++ after) (Text.byteSize before) = before := by
  simp [typedPart, Text.cutAtByte?_byteSize]

theorem typedPart_of_no_boundary {line : Text} {pos : Nat}
    (h : ∀ before after, line = before ++ after → Text.byteSize before ≠ pos) :
    typedPart line pos = line := by
  unfold typedPart
  cases hc : Text.cutAtByte? pos line with
  | none => rfl
  | some q =>
    obtain ⟨hline, hpos⟩ := cutAtByte?_eq_some hc
    exact absurd hpos (h q.1 q.2 hline)

theorem values_suggestions (e : Engine) (c : Context) (line : Text) (pos : Nat) :
    (suggestions e c line pos).map Suggestion.value =
      distinct ((e.candidates (typedPart line pos) c).map (replacement (typedPart line pos))) := by
  simp [suggestions, Function.comp_def]

theorem exists_shown_of_mem_values {e : Engine} {c : Context} {line v : Text} {pos : Nat}
    (h : v ∈ (suggestions e c line pos).map Suggestion.value) :
    ∃ t, e.Shown (typedPart line pos) c t ∧ replacement (typedPart line pos) t = v := by
  rw [values_suggestions, mem_distinct] at h
  obtain ⟨t, ht, hv⟩ := List.mem_map.1 h
  by_cases hd : e.BreaksDown (typedPart line pos) c
  · rw [Engine.candidates_of_breaksDown hd] at ht
    simp at ht
  · exact ⟨t, (Engine.mem_candidates hd).1 ht, hv⟩

/-- What the editor is offered at a cursor position. -/
theorem suggestions_characterization (e : Engine) (s : Session) (line : Text) (pos : Nat) :
    let typed := typedPart line pos
    let image := (e.complete typed s.context).1.map (replacement typed)
    let offered := suggestions e s.context line pos
    let values := offered.map Suggestion.value
    (∀ before after, line = before ++ after → Text.byteSize before = pos → typed = before) ∧
    ((∀ before after, line = before ++ after → Text.byteSize before ≠ pos) → typed = line) ∧
    values.Nodup ∧ (∀ v, v ∈ values ↔ v ∈ image) ∧
    (values.Pairwise fun u v => image.idxOf u < image.idxOf v) ∧
    (∀ g ∈ offered, g.span = (0, Text.byteSize typed)) ∧
    (∀ before after, typed = before ++ ':' :: after → ':' ∉ after →
      ∀ v ∈ values, before ++ [':'] <+: v) ∧
    ((∃ t, e.Fitting typed s.context t) →
      ∀ v ∈ values, typed <+: v ∨ (':' ∉ typed ∧ (':' :: typed) <+: v)) := by
  intro typed image offered values
  have hvalues : values = distinct image := values_suggestions e s.context line pos
  refine ⟨?_, typedPart_of_no_boundary, ?_, fun v => ?_, ?_, ?_, ?_, ?_⟩
  · rintro before after rfl rfl
    exact typedPart_append before after
  · exact hvalues ▸ nodup_distinct image
  · rw [hvalues, mem_distinct]
  · rw [hvalues]
    exact pairwise_idxOf_distinct image
  · intro g hg
    obtain ⟨v, _, rfl⟩ := List.mem_map.1 hg
    rfl
  · intro before after htyped ha v hv
    obtain ⟨t, _, rfl⟩ := exists_shown_of_mem_values hv
    change before ++ [':'] <+: replacement typed t
    rw [htyped]
    exact committed_isPrefix_replacement ha t
  · rintro ⟨m, hm⟩ v hv
    obtain ⟨t, ht, rfl⟩ := exists_shown_of_mem_values hv
    rcases ht with ht | ⟨hnone, _⟩
    · exact line_isPrefix_replacement ht.2
    · exact absurd hm (hnone m)

/-- At a cursor inside a line with a committed segment: two candidates stand for one value, which is
offered once and extends the typed part. -/
theorem suggestions_inside_line :
    let e : Engine := ⟨[Source.grammar], true⟩
    let s : Session :=
      ⟨Table.empty, Table.empty, none, Listing.empty.fileSystem, .plain, false, true⟩
    (∃ t, e.Fitting "items:te" s.context t) ∧
      typedPart "items:te trailing" 8 = "items:te" ∧
      e.candidates "items:te" s.context = [":text".toList, "text".toList] ∧
      suggestions e s.context "items:te trailing" 8 = [⟨"items:text", (0, 8), false⟩] ∧
      ∀ v ∈ (suggestions e s.context "items:te trailing" 8).map Suggestion.value,
        "items:te".toList <+: v := by
  intro e s
  have hfit : e.Fitting "items:te" s.context "text" :=
    ⟨⟨Source.grammar, List.mem_singleton.2 rfl, _, rfl, by decide +kernel⟩, by decide +kernel⟩
  have hc := suggestions_characterization e s "items:te trailing" 8
  have htyped : typedPart "items:te trailing" 8 = "items:te" :=
    hc.1 "items:te" " trailing" (by decide +kernel) (by decide +kernel)
  refine ⟨⟨_, hfit⟩, htyped, by decide +kernel, by decide +kernel, fun v hv => ?_⟩
  have hext := hc.2.2.2.2.2.2.2 ⟨_, htyped ▸ hfit⟩ v hv
  rw [htyped] at hext
  exact hext.resolve_right fun h => h.1 (by decide +kernel)

/-- The candidates that are made from the whole line: its stem with a type keyword, the line with an
entry in place of its import path, and the line with an index. -/
inductive WholeLine (files : FileSystem) (limit : Nat) (line : Text) : Text → Prop
  | cast {stem keyword : Text} (hs : .typeCast stem ∈ Query.positions line)
      (hk : keyword ∈ Query.typeKeywords) : WholeLine files limit line (stem ++ keyword)
  | entry {forms : List Text} {t : Text} (hf : Source.pathForms files limit line = .ok forms)
      (ht : t ∈ forms) : WholeLine files limit line t
  | index {t : Text} (hi : .ordinalAccessor true ∈ Query.positions line)
      (ht : t ∈ Query.indexForms line) : WholeLine files limit line t

theorem mem_pathForms {files : FileSystem} {limit : Nat} {line t : Text} {forms : List Text}
    (hf : Source.pathForms files limit line = .ok forms) (ht : t ∈ forms) :
    ∃ before typed after entry, Query.importSpan? line = some (before, typed, after) ∧
      t = before ++ entry ++ after := by
  unfold Source.pathForms at hf
  split at hf
  · obtain rfl : [] = forms := by simpa using hf
    simp at ht
  · rename_i before typed after hspan
    cases he : Source.pathEntries files limit typed with
    | error err => simp [he, Except.map] at hf
    | ok es =>
      obtain rfl : es.filterMap (Source.pathForm files before after) = forms := by
        simpa [he, Except.map] using hf
      obtain ⟨entry, _, hentry⟩ := List.mem_filterMap.1 ht
      unfold Source.pathForm at hentry
      split at hentry
      · exact ⟨before, typed, after, entry ++ ['/'], hspan, by simpa using hentry.symm⟩
      · exact ⟨before, typed, after, entry, hspan, by simpa using hentry.symm⟩
      · simp at hentry

theorem WholeLine.contributes {c : Context} {limit : Nat} {line t : Text} {e : Engine}
    (hg : Source.grammar ∈ e.sources) (hp : Source.path limit ∈ e.sources)
    (h : WholeLine c.files limit line t) : e.Contributes line c t := by
  cases h with
  | cast hs hk =>
    refine ⟨Source.grammar, hg, _, rfl, ?_⟩
    exact List.mem_append_right _ (List.mem_flatMap.2 ⟨_, hs, List.mem_map_of_mem hk⟩)
  | entry hf ht => exact ⟨Source.path limit, hp, _, by simp [Source.path, hf], ht⟩
  | index hi ht =>
    refine ⟨Source.grammar, hg, _, rfl, ?_⟩
    exact List.mem_append_right _
      (List.mem_flatMap.2 ⟨_, hi, by simp [Query.Position.words, ht]⟩)

theorem head?_castStem {line : Text} (keyword : Text) (h : line.head? = some ':') :
    (Query.castStem line ++ keyword).head? = some ':' := by
  rcases Text.notMem_or_exists_last ':' line with hn | ⟨before, after, rfl, ha⟩
  · exact absurd (List.mem_of_head? h) hn
  · rw [Query.castStem_append_cons before ha]
    cases before with
    | nil => rfl
    | cons c before => simpa using h

theorem WholeLine.head? {files : FileSystem} {limit : Nat} {line t : Text}
    (h : WholeLine files limit line t) (hl : line.head? = some ':') : t.head? = some ':' := by
  cases h with
  | cast hs hk =>
    rw [(Query.typeCast_mem_positions.1 hs).2]
    exact head?_castStem _ hl
  | entry hf ht =>
    obtain ⟨before, typed, after, entry, hspan, rfl⟩ := mem_pathForms hf ht
    obtain ⟨rfl, hb, _⟩ := Query.importSpan?_eq_some hspan
    obtain ⟨c, before, rfl⟩ := List.exists_cons_of_ne_nil hb
    simpa using hl
  | index hi ht =>
    obtain ⟨i, _, rfl⟩ := List.mem_map.1 ht
    simp [List.head?_append, hl]

/-- A candidate that begins with a colon if the line does is taken as it is exactly if the line has
no colon after its first character or the candidate begins with the line. -/
theorem replacement_eq_self_iff {line t : Text}
    (hhead : line.head? = some ':' → t.head? = some ':') :
    replacement line t = t ↔ ':' ∉ line.tail ∨ line <+: t := by
  rcases Text.notMem_or_exists_last ':' line with hn | ⟨before, after, rfl, ha⟩
  · have htail : ':' ∉ line.tail := fun h => hn (List.mem_of_mem_tail h)
    simp [replacement_of_notMem hn, htail]
  · by_cases hp : before ++ ':' :: after <+: t
    · simp [replacement_of_isPrefix hp, hp]
    · rw [replacement_append_cons ha hp]
      cases before with
      | nil =>
        obtain ⟨u, rfl⟩ := List.head?_eq_some_iff.1 (hhead rfl)
        simp [ha]
      | cons c before =>
        -- the committed text in front makes the replacement longer than the candidate
        have hlen := length_le_withoutColon t
        refine iff_of_false (fun h => ?_) ?_
        · have := congrArg List.length h
          simp only [List.length_append, List.length_cons] at this
          omega
        · rintro (h | h)
          · simp at h
          · exact hp h

theorem isPrefix_cast_iff {line stem keyword : Text}
    (hs : .typeCast stem ∈ Query.positions line) :
    line <+: stem ++ keyword ↔ line.drop stem.length <+: keyword := by
  have hstem : stem <+: line := (Query.typeCast_mem_positions.1 hs).2 ▸ Query.castStem_isPrefix line
  conv_lhs => rw [List.prefix_append_drop hstem]
  exact List.prefix_append_right_inj stem

/-- Which of the candidates made from the whole line are taken as they are.  Those with an index
are; one with a type keyword is, if what it drops from the line is a beginning of the keyword; one
with an entry is, if the entry and what follows it begin with what stood there.  All are, if the
line has no colon after its first character.  Any other is written behind the committed segments,
which it already has. -/
theorem whole_line_kept_iff (e : Engine) (c : Context) (limit : Nat) (line : Text) :
    (Source.grammar ∈ e.sources → Source.path limit ∈ e.sources →
      ∀ t, WholeLine c.files limit line t → e.Contributes line c t) ∧
    (∀ t, WholeLine c.files limit line t →
      (replacement line t = t ↔ ':' ∉ line.tail ∨ line <+: t) ∧
      (replacement line t ≠ t →
        replacement line t = Query.committedText line ++ ':' :: withoutColon t)) ∧
    (∀ t ∈ Query.indexForms line, line <+: t) ∧
    (∀ stem keyword, .typeCast stem ∈ Query.positions line →
      (line <+: stem ++ keyword ↔ line.drop stem.length <+: keyword)) ∧
    (∀ before typed after entry, Query.importSpan? line = some (before, typed, after) →
      (line <+: before ++ entry ++ after ↔ typed ++ after <+: entry ++ after)) := by
  refine ⟨fun hg hp t => WholeLine.contributes hg hp,
    fun t ht => ⟨replacement_eq_self_iff ht.head?, fun hne => ?_⟩, fun t ht => ?_,
    fun stem keyword => isPrefix_cast_iff, fun before typed after entry hspan => ?_⟩
  · rcases Text.notMem_or_exists_last ':' line with hn | ⟨before, after, rfl, ha⟩
    · exact absurd (replacement_of_notMem hn t) hne
    · have hp : ¬ before ++ ':' :: after <+: t := fun hp =>
        hne (replacement_of_isPrefix hp (by simp))
      rw [replacement_append_cons ha hp, Query.committedText_append_cons before ha]
  · obtain ⟨i, _, rfl⟩ := List.mem_map.1 ht
    rw [List.append_assoc]
    exact List.prefix_append line _
  · rw [(Query.importSpan?_eq_some hspan).1, List.append_assoc]
    exact List.prefix_append_right_inj before

/-- A partly typed cast whose keyword goes on as typed is kept. -/
theorem cast_keyword_kept :
    WholeLine Listing.empty.fileSystem 256 "items:x as st" "items:x as string" ∧
      replacement "items:x as st" "items:x as string" = "items:x as string" := by
  let e : Engine := ⟨[Source.grammar, Source.path 256], true⟩
  let c : Context := ⟨Table.empty, Table.empty, none, Listing.empty.fileSystem⟩
  have hw : WholeLine Listing.empty.fileSystem 256 "items:x as st"
      ("items:x ".toList ++ "as string".toList) := .cast (by decide +kernel) (by decide +kernel)
  have hkept := ((whole_line_kept_iff e c 256 "items:x as st").2.1 _ hw).1
  exact ⟨hw, hkept.2 (Or.inr (by decide +kernel))⟩

/-- A partly typed cast with another keyword is put behind the committed segment once more. -/
theorem cast_keyword_doubled :
    WholeLine Listing.empty.fileSystem 256 "items:x as st" "items:x as int" ∧
      replacement "items:x as st" "items:x as int" = "items:items:x as int" := by
  have hw : WholeLine Listing.empty.fileSystem 256 "items:x as st"
      ("items:x ".toList ++ "as int".toList) := .cast (by decide +kernel) (by decide +kernel)
  exact ⟨hw, by decide +kernel⟩

end ManifestShell
