import Mathlib.Data.List.Induction
import ManifestShell.Proofs.LocalFailures

/-! What completion sees of a context.
Of variables and functions it sees the names, of a document the names right below its root, and of
the file system all that can be asked.  Contexts that are alike in these are told apart by no line,
whatever else is in them. -/
namespace ManifestShell

namespace Document

def HasTag (nodes : List Document) (t : Text) : Prop := ∃ n ∈ nodes, n.name = some t

theorem hasTag_concat {nodes : List Document} {n : Document} {t : Text} :
    HasTag (nodes ++ [n]) t ↔ HasTag nodes t ∨ n.name = some t := by
  simp [HasTag, or_and_right, exists_or]

theorem distinctNames_concat (nodes : List Document) (n : Document) :
    distinctNames (nodes ++ [n]) = match n.name with
      | some t =>
        if t ∈ distinctNames nodes then distinctNames nodes else distinctNames nodes ++ [t]
      | none => distinctNames nodes := by
  rw [distinctNames, List.foldl_append]
  rfl

theorem mem_distinctNames {nodes : List Document} {t : Text} :
    t ∈ distinctNames nodes ↔ HasTag nodes t := by
  induction nodes using List.reverseRecOn with
  | nil => simp [distinctNames, HasTag]
  | append_singleton nodes n ih =>
    rw [distinctNames_concat, hasTag_concat, ← ih]
    cases n.name with
    | none => simp
    | some u =>
      by_cases hu : u ∈ distinctNames nodes
      · have hadds : some u = some t → t ∈ distinctNames nodes := fun h => Option.some.inj h ▸ hu
        simp only [if_pos hu]
        exact ⟨Or.inl, fun h => h.elim id hadds⟩
      · simp only [if_neg hu, List.mem_append, List.mem_singleton, Option.some.injEq, eq_comm]

def nodesBelow : Option Document → Reply (List Document)
  | none => .answer []
  | some d => d.children

theorem element_of_nodesBelow {document : Option Document} {nodes : List Document}
    (h : nodesBelow document = .answer nodes) :
    ∀ d, document = some d → ∃ name children, d = .element name children := by
  rintro d rfl
  cases d with
  | element name children => exact ⟨name, children, rfl⟩
  | unreadable | broken => cases h

@[simp] theorem hasTag_ofTags {tags : List Text} {t : Text} :
    HasTag (tags.map fun tag => element (some tag) []) t ↔ t ∈ tags := by
  simp [HasTag, name]

end Document

namespace Source

def Offers (s : Source) (line : Text) (c : Context) (t : Text) : Prop :=
  ∃ cs, s.offer line c = .answer cs ∧ t ∈ cs

variable {line t : Text} {c : Context}

theorem offers_of_answer {s : Source} {cs : List Text} (h : s.offer line c = .answer cs) :
    s.Offers line c t ↔ t ∈ cs := by
  simp [Offers, h]

theorem offers_grammar : grammar.Offers line c t ↔ t ∈ Query.vocabulary line :=
  offers_of_answer rfl

theorem offers_bindings :
    bindings.Offers line c t ↔ t ∈ variableForms c ∨ t ∈ functionForms c := by
  have hoffer : bindings.offer line c = .answer (variableForms c ++ functionForms c) := rfl
  rw [offers_of_answer hoffer, List.mem_append]

theorem documentForms_eq {document : Option Document} {nodes : List Document}
    (h : Document.nodesBelow document = .answer nodes) :
    documentForms document = .answer ((Document.distinctNames nodes).flatMap tagForms) := by
  cases document with
  | none =>
    obtain rfl : [] = nodes := by simpa [Document.nodesBelow] using h
    rfl
  | some d =>
    change d.children = .answer nodes at h
    rw [documentForms, h]

theorem offers_document {nodes : List Document}
    (h : Document.nodesBelow c.document = .answer nodes) :
    document.Offers line c t ↔ ∃ tag, Document.HasTag nodes tag ∧ t ∈ tagForms tag := by
  have hoffer : document.offer line c = documentForms c.document := rfl
  rw [offers_of_answer (hoffer.trans (documentForms_eq h)), List.mem_flatMap]
  simp only [Document.mem_distinctNames]

theorem offers_path (limit : Nat) : (path limit).Offers line c t ↔
    ∃ forms, pathForms c.files limit line = .ok forms ∧ t ∈ forms := by
  simp only [Offers, path]
  cases pathForms c.files limit line <;> simp

theorem offers_contextual : contextual.Offers line c t ↔ t ∈ Query.continuations line :=
  offers_of_answer rfl

end Source

namespace Engine

theorem contributes_ofSettings_iff {settings : CompletionSettings} {line t : Text} {c : Context}
    {nodes : List Document} (h : Document.nodesBelow c.document = .answer nodes) :
    (ofSettings settings).Contributes line c t ↔ t ∈ Query.vocabulary line ∨
      (t ∈ Source.variableForms c ∨ t ∈ Source.functionForms c) ∨
      (settings.documentCompletion = true ∧ ∃ tag, Document.HasTag nodes tag ∧
        t ∈ Source.tagForms tag) ∨
      (settings.pathCompletion = true ∧
        ∃ forms, Source.pathForms c.files settings.maxPathMatches line = .ok forms ∧ t ∈ forms) ∨
      t ∈ Query.continuations line := by
  have hsources : (ofSettings settings).Contributes line c t ↔
      ∃ s ∈ (ofSettings settings).sources, s.Offers line c t := Iff.rfl
  rw [hsources]
  simp only [mem_sources_ofSettings_iff, or_and_right, exists_or, exists_eq_left, and_assoc,
    exists_and_left, Source.offers_grammar, Source.offers_bindings, Source.offers_document h,
    Source.offers_path, Source.offers_contextual]

end Engine

/-- The two contexts are alike in what completion sees of them. -/
structure Context.Alike (c c' : Context) : Prop where
  files : c.files = c'.files
  bound : ∀ n, n ∈ c.bindings.keys ↔ n ∈ c'.bindings.keys
  functions : ∀ n, n ∈ c.functions.keys ↔ n ∈ c'.functions.keys
  tags : ∃ nodes nodes', Document.nodesBelow c.document = .answer nodes ∧
    Document.nodesBelow c'.document = .answer nodes' ∧
    ∀ t, Document.HasTag nodes t ↔ Document.HasTag nodes' t

namespace Context.Alike

variable {c c' : Context}

theorem mem_variableForms (h : c.Alike c') (t : Text) :
    t ∈ Source.variableForms c ↔ t ∈ Source.variableForms c' := by
  simp only [Source.variableForms, List.mem_map, h.bound]

theorem mem_functionForms (h : c.Alike c') (t : Text) :
    t ∈ Source.functionForms c ↔ t ∈ Source.functionForms c' := by
  simp only [Source.functionForms, List.mem_map, h.functions]

end Context.Alike

namespace Engine

/-- Completion returns the same for contexts that are alike: the values of variables, the signatures
of functions, the name of the root and all of the document but the set of names right below the root
have no influence. -/
theorem complete_of_alike (settings : CompletionSettings) (line : Text) {c c' : Context}
    (h : c.Alike c') :
    (ofSettings settings).complete line c = (ofSettings settings).complete line c' := by
  obtain ⟨nodes, nodes', hnodes, hnodes', htags⟩ := h.tags
  apply complete_congr rfl
  · have hdown := not_breaksDown_ofSettings settings line (Document.element_of_nodesBelow hnodes)
    have hdown' := not_breaksDown_ofSettings settings line (Document.element_of_nodesBelow hnodes')
    exact iff_of_false hdown hdown'
  · intro t
    rw [contributes_ofSettings_iff hnodes, contributes_ofSettings_iff hnodes']
    simp only [h.mem_variableForms, h.mem_functionForms, htags, h.files]

/-- Another value, another signature, and a document with the same tags in another order, one of
them twice, beside a nameless node and above a node that cannot be read. -/
theorem complete_of_rearranged_document :
    let c : Context := ⟨Table.empty.insert "x" .null, Functions.ofList [⟨"upper", none⟩],
      some (Document.ofTags "ADI" ["ad", "movie"]), Listing.empty.fileSystem⟩
    let c' : Context := ⟨Table.empty.insert "x" (.int 5),
      Functions.ofList [⟨"upper", some "upper(text)"⟩],
      some (.element none [.element (some "movie") [.broken], .element none [],
        .element (some "ad") [], .element (some "movie") []]), Listing.empty.fileSystem⟩
    c.Alike c' ∧ (ofSettings {}).complete "[name=\"" c = (ofSettings {}).complete "[name=\"" c' ∧
      (ofSettings {}).complete "[name=\"" c =
        (["[name=\"ad\"]".toList, "[name=\"movie\"]".toList], "[name=\"".toList) := by
  intro c c'
  have hkeys : c.bindings.keys = c'.bindings.keys ∧ c.functions.keys = c'.functions.keys :=
    ⟨rfl, rfl⟩
  have halike : c.Alike c' := by
    refine ⟨rfl, fun n => by rw [hkeys.1], fun n => by rw [hkeys.2], _, _, rfl, rfl, fun t => ?_⟩
    rw [Document.hasTag_ofTags]
    simp only [Document.HasTag, Document.name, List.mem_cons, List.not_mem_nil]
    grind
  exact ⟨halike, complete_of_alike {} "[name=\"" halike, by decide +kernel⟩

end Engine
end ManifestShell
