import ManifestShell.Proofs.CastKeywords
import ManifestShell.Proofs.ChildrenAccessors
import ManifestShell.Proofs.ImportSpans
import ManifestShell.Proofs.TypedCommands
import ManifestShell.Proofs.Visibility

/-! Completing the tags of a document.
A line that opens a selector by name and goes on without blanks, colons, imports and `children` is
completed by the selectors for the tags of the document and by nothing else: the words of the
language are offered there too, but none of them begins like such a selector. -/
namespace ManifestShell

namespace Query

variable {line t : Text}

theorem mem_of_mem_active {c : Char} (h : c ∈ active line) : c ∈ line := by
  rcases Text.notMem_or_exists_last ':' line with hn | ⟨before, after, rfl, hn⟩
  · rwa [active_of_notMem hn] at h
  · rw [active_append_cons before hn] at h
    simp [h]

theorem allowsCast_eq_false (h : ∀ c ∈ line, isBlank c = false) : allowsCast line = false := by
  have hend : Text.endsWithChar isBlank line = false := by
    unfold Text.endsWithChar
    split
    · rename_i c hc
      exact h c (List.mem_of_getLast? hc)
    · rfl
  have hactive : ∀ c ∈ active line, isBlank c = false := fun c hc => h c (mem_of_mem_active hc)
  have hclause : hasCastClause (active line) = false := by
    rw [← Bool.not_eq_true, hasCastClause_iff]
    rintro ⟨before, word, blank, rest, hcut, _, hblank⟩
    rw [hactive blank (by simp [hcut])] at hblank
    cases hblank
  rw [allowsCast, hend, hclause]
  rfl

theorem importSpan?_eq_none (h : ¬ "import".toList <:+: line) : importSpan? line = none := by
  cases hspan : importSpan? line with
  | none => rfl
  | some q =>
    obtain ⟨start, lead, _, hfirst, _⟩ := importSpan?_eq_some_iff.1 hspan
    exact absurd ⟨start, _, by rw [hfirst.eq, List.append_assoc]⟩ h

theorem ordinalIndexed?_eq_none (h : ¬ "children".toList <:+: line) :
    ordinalIndexed? line = none := by
  have hafter : afterChildren line = [] := by
    rw [List.eq_nil_iff_forall_not_mem]
    intro after hmem
    obtain ⟨before, rfl⟩ := mem_afterChildren.1 hmem
    exact h ⟨before, after, List.append_assoc ..⟩
  simp [ordinalIndexed?, endsInChildren, endsInChildrenColon, hafter]

/-- The words that are offered wherever they fit, whatever else is in the line. -/
def commonWords : List Text := accessors ++ selectors ++ rootSelector :: bracketWords

/-- Of the positions that add words, only the root and the bracket can hold in a line without
blanks, imports and `children`. -/
theorem mem_commonWords_of_mem_vocabulary (hblank : ∀ c ∈ line, isBlank c = false)
    (himport : ¬ "import".toList <:+: line) (hchildren : ¬ "children".toList <:+: line)
    (h : t ∈ vocabulary line) : t ∈ commonWords := by
  have hcast : castStem? line = none := by simp [castStem?, allowsCast_eq_false hblank]
  have hpositions : ∀ p ∈ positions line,
      p = .root ∨ p = .bracketPredicate ∨ p = .deepDescendant ∨ p = .insideBracket := by
    intro p hp
    simp only [positions, hcast, importSpan?_eq_none himport, ordinalIndexed?_eq_none hchildren,
      Option.toList_none, List.map_nil, List.append_nil, List.mem_append, List.mem_ite_nil_right,
      List.mem_singleton] at hp
    tauto
  rw [vocabulary, List.mem_append, List.mem_flatMap] at h
  rcases h with h | ⟨p, hp, hword⟩
  · exact List.mem_append_left _ h
  · apply List.mem_append_right
    rcases hpositions p hp with rfl | rfl | rfl | rfl
    · exact List.mem_cons.2 (Or.inl (List.mem_singleton.1 hword))
    · exact List.mem_cons_of_mem _ hword
    · cases hword
    · cases hword

theorem mem_of_mem_continuations (h : t ∈ continuations line) :
    t ∈ deepTests ++ predicateForms := by
  simp only [continuations, List.mem_append, List.mem_ite_nil_right] at h ⊢
  exact h.imp And.right And.right

end Query

/-- What a selector by name begins with, and what it ends with. -/
def tagLeads : List Text := ["[name=\"", "**[name=\""]

def tagEnd : Text := "\"]"

theorem mem_tagForms_iff {tag t : Text} :
    t ∈ Source.tagForms tag ↔ ∃ lead ∈ tagLeads, t = lead ++ (tag ++ tagEnd) := by
  simp [Source.tagForms, tagLeads, tagEnd]

/-- No word of the language begins like a selector by name, not even after a colon. -/
theorem fits_lead_eq_false {lead w : Text} (hlead : lead ∈ tagLeads)
    (hw : w ∈ Query.commonWords ++ (Query.deepTests ++ Query.predicateForms)) :
    fits lead w = false := by
  have hall : (tagLeads.all fun lead =>
      (Query.commonWords ++ (Query.deepTests ++ Query.predicateForms)).all fun w =>
        !fits lead w) = true := by decide +kernel
  have hword := List.all_eq_true.1 (List.all_eq_true.1 hall lead hlead) w hw
  simpa using hword

theorem fits_of_fits_append {a b t : Text} (h : fits (a ++ b) t = true) : fits a t = true := by
  rw [fits_iff] at h ⊢
  refine h.imp (fun hp => ?_) fun hp => ?_
  · exact (List.prefix_append a b).trans hp
  · exact (List.prefix_append (':' :: a) b).trans hp

theorem fits_lead_dollar {lead : Text} (hlead : lead ∈ tagLeads) (t : Text) :
    fits lead ('$' :: t) = false := by
  simp only [tagLeads, List.mem_cons, List.not_mem_nil, or_false] at hlead
  rcases hlead with rfl | rfl <;> rfl

/-- Selectors with one beginning do not fit where the other beginning was typed. -/
theorem fits_lead_iff {lead lead' q t : Text} (hlead : lead ∈ tagLeads)
    (hlead' : lead' ∈ tagLeads) :
    fits (lead ++ q) (lead' ++ t) = true ↔ lead = lead' ∧ q <+: t := by
  simp only [tagLeads, List.mem_cons, List.not_mem_nil, or_false] at hlead hlead'
  rcases hlead with rfl | rfl <;> rcases hlead' with rfl | rfl <;> simp [fits_iff]

namespace Query

/-- A text that calls for nothing but what its brackets call for. -/
structure Inert (q : Text) : Prop where
  no_colon : ':' ∉ q
  no_blank : ∀ c ∈ q, isBlank c = false
  no_import : ¬ "import".toList <:+: q
  no_children : ¬ "children".toList <:+: q

theorem Inert.append_quote {a b : Text} (ha : Inert a) (hb : Inert b) : Inert (a ++ '"' :: b) := by
  have hquote : isBlank '"' = false := by decide
  refine ⟨?_, ?_, fun hi => ?_, fun hi => ?_⟩
  · simp [ha.no_colon, hb.no_colon]
  · simpa [or_imp, forall_and, hquote] using ⟨ha.no_blank, hb.no_blank⟩
  · exact (Text.isInfix_append_cons (by decide) hi).elim ha.no_import hb.no_import
  · exact (Text.isInfix_append_cons (by decide) hi).elim ha.no_children hb.no_children

theorem Inert.after_lead {lead q : Text} (hlead : lead ∈ tagLeads) (hq : Inert q) :
    Inert (lead ++ q) := by
  have hplain : Inert "[name=" := by
    refine ⟨by decide, (by decide : Text.IsWord _).not_blank, by decide, by decide⟩
  have hdeep : Inert "**[name=" := by
    refine ⟨by decide, (by decide : Text.IsWord _).not_blank, by decide, by decide⟩
  simp only [tagLeads, List.mem_cons, List.not_mem_nil, or_false] at hlead
  rcases hlead with rfl | rfl
  · exact hplain.append_quote hq
  · exact hdeep.append_quote hq

end Query

namespace Engine

open Query

variable {settings : CompletionSettings} {c : Context} {nodes : List Document} {line t : Text}

/-- What is offered for an inert line begins unlike a selector by name, unless it is one for a tag
of the document. -/
theorem contributes_cases (hnodes : Document.nodesBelow c.document = .answer nodes)
    (hline : Inert line) (h : (ofSettings settings).Contributes line c t) :
    (∀ lead ∈ tagLeads, fits lead t = false) ∨
      ∃ tag, Document.HasTag nodes tag ∧ t ∈ Source.tagForms tag := by
  rcases (contributes_ofSettings_iff hnodes).1 h with
    hword | (hword | hword) | ⟨_, htag⟩ | ⟨_, forms, hforms, hword⟩ | hword
  · have hcommon := mem_commonWords_of_mem_vocabulary hline.no_blank hline.no_import
      hline.no_children hword
    exact Or.inl fun lead hlead => fits_lead_eq_false hlead (List.mem_append_left _ hcommon)
  · obtain ⟨n, _, rfl⟩ := List.mem_map.1 hword
    exact Or.inl fun lead hlead => fits_lead_dollar hlead n
  · obtain ⟨n, _, rfl⟩ := List.mem_map.1 hword
    exact Or.inl fun lead hlead => fits_lead_dollar hlead (n ++ ['('])
  · exact Or.inr htag
  · -- without an import the source for paths has nothing to offer
    rw [Source.pathForms, importSpan?_eq_none hline.no_import] at hforms
    obtain rfl := Except.ok.inj hforms
    cases hword
  · have hform := mem_of_mem_continuations hword
    exact Or.inl fun lead hlead => fits_lead_eq_false hlead (List.mem_append_right _ hform)

theorem fitting_lead_iff {lead q : Text} (hnodes : Document.nodesBelow c.document = .answer nodes)
    (hsettings : settings.documentCompletion = true) (hlead : lead ∈ tagLeads) (hq : Inert q) :
    (ofSettings settings).Fitting (lead ++ q) c t ↔
      ∃ tag, Document.HasTag nodes tag ∧ q <+: tag ++ tagEnd ∧ t = lead ++ (tag ++ tagEnd) := by
  have hline := Inert.after_lead hlead hq
  rw [Fitting, active_of_notMem hline.no_colon, ← fits_iff]
  constructor
  · rintro ⟨hoffer, hfits⟩
    rcases contributes_cases hnodes hline hoffer with hother | ⟨tag, htag, hform⟩
    · have hno := hother lead hlead
      rw [fits_of_fits_append hfits] at hno
      cases hno
    · obtain ⟨lead', hlead', rfl⟩ := mem_tagForms_iff.1 hform
      obtain ⟨rfl, hpre⟩ := (fits_lead_iff hlead hlead').1 hfits
      exact ⟨tag, htag, hpre, rfl⟩
  · rintro ⟨tag, htag, hpre, rfl⟩
    have hform : lead ++ (tag ++ tagEnd) ∈ Source.tagForms tag :=
      mem_tagForms_iff.2 ⟨lead, hlead, rfl⟩
    have hoffer : (ofSettings settings).Contributes (lead ++ q) c (lead ++ (tag ++ tagEnd)) :=
      (contributes_ofSettings_iff hnodes).2 (Or.inr (Or.inr (Or.inl ⟨hsettings, tag, htag, hform⟩)))
    exact ⟨hoffer, (fits_lead_iff hlead hlead).2 ⟨rfl, hpre⟩⟩

/-- If some tag goes on like the line, the selectors for these tags are all that is shown. -/
theorem mem_complete_lead_iff {lead q : Text}
    (hnodes : Document.nodesBelow c.document = .answer nodes)
    (hsettings : settings.documentCompletion = true) (hlead : lead ∈ tagLeads) (hq : Inert q)
    (hsome : ∃ tag, Document.HasTag nodes tag ∧ q <+: tag ++ tagEnd) :
    t ∈ ((ofSettings settings).complete (lead ++ q) c).1 ↔
      ∃ tag, Document.HasTag nodes tag ∧ q <+: tag ++ tagEnd ∧ t = lead ++ (tag ++ tagEnd) := by
  have hdown :=
    not_breaksDown_ofSettings settings (lead ++ q) (Document.element_of_nodesBelow hnodes)
  obtain ⟨tag, htag, hpre⟩ := hsome
  have hfits : ∃ m, (ofSettings settings).Fitting (lead ++ q) c m :=
    ⟨_, (fitting_lead_iff hnodes hsettings hlead hq).2 ⟨tag, htag, hpre, rfl⟩⟩
  have hnone : ¬ ∀ m, ¬ (ofSettings settings).Fitting (lead ++ q) c m := not_forall_not.2 hfits
  change t ∈ (ofSettings settings).candidates (lead ++ q) c ↔ _
  rw [mem_candidates hdown, Shown, fitting_lead_iff hnodes hsettings hlead hq]
  simp only [hnone, false_and, or_false]

end Engine

namespace Session

open Command Text

/-- The selectors for the tags that go on like a typed text, in ascending order. -/
def SelectorsFor (lead q : Text) (tags shown : List Text) : Prop :=
  (shown.Pairwise fun s t => bytes s < bytes t) ∧
    ∀ t, t ∈ shown ↔ ∃ tag ∈ tags, q <+: tag ++ "\"]".toList ∧ t = lead ++ (tag ++ "\"]".toList)

/-- After a line that describes a document, a selector by name is completed from its tags and from
nothing else, provided that some tag goes on like what was typed. -/
theorem document_tags_completed (settings : CompletionSettings)
    (hsettings : settings.documentCompletion = true) (s : Session) (root q : Text)
    (tags : List Text) (hroot : IsWord root) (htags : ∀ t ∈ tags, IsWord t) (hcolon : ':' ∉ q)
    (hblank : ∀ c ∈ q, isBlank c = false) (himport : ¬ "import".toList <:+: q)
    (hchildren : ¬ "children".toList <:+: q) (hsome : ∃ t ∈ tags, q <+: t ++ "\"]".toList) :
    let e := Engine.ofSettings settings
    let c := (s.enter e (documentLine root tags)).1.context
    SelectorsFor "[name=\"" q tags (e.complete ("[name=\"".toList ++ q) c).1 ∧
      SelectorsFor "**[name=\"" q tags (e.complete ("**[name=\"".toList ++ q) c).1 := by
  intro e c
  have hnodes : Document.nodesBelow c.document =
      .answer (tags.map fun t => .element (some t) []) := by
    simp only [c, enter_documentLine hroot htags]
    rfl
  have hfirst : ∃ tag, Document.HasTag (tags.map fun t => .element (some t) []) tag ∧
      q <+: tag ++ tagEnd := by
    obtain ⟨t, ht, hpre⟩ := hsome
    exact ⟨t, Document.hasTag_ofTags.2 ht, hpre⟩
  have hshown : ∀ lead ∈ tagLeads, SelectorsFor lead q tags (e.complete (lead ++ q) c).1 := by
    intro lead hlead
    have hmem (t : Text) := Engine.mem_complete_lead_iff (t := t) hnodes hsettings hlead
      ⟨hcolon, hblank, himport, hchildren⟩ hfirst
    simp only [Document.hasTag_ofTags] at hmem
    exact ⟨(Engine.pairwise_candidates e _ c).imp bytes_lt_bytes, hmem⟩
  exact ⟨hshown _ (by simp [tagLeads]), hshown _ (by simp [tagLeads])⟩

/-- Of four tags, one of them twice, those with the typed letter are shown, each once. -/
theorem tags_of_entered_document :
    let e := Engine.ofSettings {}
    let s := (Session.new Table.empty Listing.empty.fileSystem {}).bind "x" .null
    let tags : List Text := ["music", "ad", "movie", "music"]
    let c := (s.enter e (documentLine "ADI" tags)).1.context
    documentLine "ADI" tags = ".document ADI music ad movie music" ∧
      SelectorsFor "[name=\"" "m" tags (e.complete "[name=\"m" c).1 ∧
      SelectorsFor "**[name=\"" "m" tags (e.complete "**[name=\"m" c).1 ∧
      (e.complete "[name=\"m" c).1 = ["[name=\"movie\"]".toList, "[name=\"music\"]".toList] ∧
      (e.complete "**[name=\"m" c).1 =
        ["**[name=\"movie\"]".toList, "**[name=\"music\"]".toList] := by
  intro e s tags c
  have hq : IsWord "m" := by decide
  have hshown := document_tags_completed {} rfl s "ADI" "m" tags (by decide) (by decide)
    (by decide) hq.not_blank (by decide) (by decide) ⟨"movie", by simp [tags], by decide⟩
  exact ⟨by decide, hshown.1, hshown.2, by decide +kernel, by decide +kernel⟩

end Session
end ManifestShell
