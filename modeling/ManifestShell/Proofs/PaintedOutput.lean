import ManifestShell.Proofs.JsonCharacters

/-! Color as a matter of presentation.
Style sequences are taken out of a text from its start on.  A painted piece is the bare piece once
they are gone, and this is kept when pieces are put together, so it holds of every output that the
shell paints.  JSON is never painted, and what is escaped in it includes the escape character. -/
namespace ManifestShell

open Text

/-! ### Texts without their style sequences -/

def isStyleParameter (c : Char) : Bool := '0' ≤ c && c ≤ '?'

/-- What follows a style sequence at the start of a text. -/
def afterStyle? (t : Text) : Option Text :=
  (dropStart? "\x1b[" t).bind fun rest => dropStart? ['m'] (rest.dropWhile isStyleParameter)

variable {t rest code styled bare styled' bare' : Text} {c : Char}

theorem length_lt_of_afterStyle? (h : afterStyle? t = some rest) : rest.length < t.length := by
  obtain ⟨u, hu, hrest⟩ := Option.bind_eq_some_iff.1 h
  have hle := (List.dropWhile_suffix isStyleParameter (l := u)).length_le
  rw [dropStart?_eq_some_iff] at hu hrest
  rw [hrest] at hle
  simp only [List.length_append, List.length_singleton] at hle
  rw [hu, List.length_append]
  omega

def withoutStyles : Text → Text
  | [] => []
  | c :: cs =>
    match _h : afterStyle? (c :: cs) with
    | some rest => withoutStyles rest
    | none => c :: withoutStyles cs
termination_by t => t.length
decreasing_by
  · exact length_lt_of_afterStyle? _h
  · simp

@[simp] theorem withoutStyles_nil : withoutStyles [] = [] := by rw [withoutStyles]

theorem withoutStyles_of_afterStyle? (h : afterStyle? t = some rest) :
    withoutStyles t = withoutStyles rest := by
  cases t with
  | nil => cases h
  | cons c t =>
    rw [withoutStyles]
    split <;> simp_all

theorem withoutStyles_cons (h : c ≠ '\x1b') (t : Text) :
    withoutStyles (c :: t) = c :: withoutStyles t := by
  have hnone : afterStyle? (c :: t) = none := by
    have hdrop : dropStart? "\x1b[" (c :: t) = none :=
      Option.eq_none_iff_forall_ne_some.2 fun u hu =>
        h (List.cons.inj (dropStart?_eq_some_iff.1 hu)).1
    rw [afterStyle?, hdrop, Option.bind_none]
  rw [withoutStyles]
  split <;> simp_all

theorem withoutStyles_styleSequence (h : code.all isStyleParameter = true) (t : Text) :
    withoutStyles (styleSequence code ++ t) = withoutStyles t := by
  apply withoutStyles_of_afterStyle?
  have hstart : dropStart? "\x1b[" (styleSequence code ++ t) = some (code ++ 'm' :: t) :=
    dropStart?_eq_some_iff.2 (by simp [styleSequence])
  have hcode : (code ++ 'm' :: t).dropWhile isStyleParameter = 'm' :: t :=
    dropWhile_append_of_stop (List.all_eq_true.1 h) fun c hc => by
      obtain rfl : 'm' = c := Option.some.inj hc
      decide
  rw [afterStyle?, hstart, Option.bind_some, hcode]
  exact dropStart?_eq_some_iff.2 rfl

/-! ### Painted pieces -/

/-- The styled text is the bare one, wherever it stands, once its style sequences are gone. -/
def Bares (styled bare : Text) : Prop :=
  ∀ t, withoutStyles (styled ++ t) = bare ++ withoutStyles t

theorem Bares.withoutStyles_eq (h : Bares styled bare) : withoutStyles styled = bare := by
  simpa using h []

theorem bares_of_notMem (h : '\x1b' ∉ t) : Bares t t := by
  intro rest
  induction t with
  | nil => rfl
  | cons c t ih =>
    rw [List.mem_cons, not_or] at h
    rw [List.cons_append, withoutStyles_cons (Ne.symm h.1), ih h.2, List.cons_append]

theorem Bares.append (h : Bares styled bare) (h' : Bares styled' bare') :
    Bares (styled ++ styled') (bare ++ bare') := by
  intro t
  rw [List.append_assoc, h, h', List.append_assoc]

theorem bares_flatMap {α : Type} {f g : α → Text} {xs : List α} (h : ∀ x ∈ xs, Bares (f x) (g x)) :
    Bares (xs.flatMap f) (xs.flatMap g) := by
  induction xs with
  | nil => exact bares_of_notMem (by simp)
  | cons x xs ih =>
    obtain ⟨hx, hxs⟩ := List.forall_mem_cons.1 h
    exact hx.append (ih hxs)

theorem bares_joinLines {α : Type} {f g : α → Text} {xs : List α}
    (h : ∀ x ∈ xs, Bares (f x) (g x)) : Bares (joinLines (xs.map f)) (joinLines (xs.map g)) := by
  induction xs with
  | nil => exact bares_of_notMem (by simp [joinLines])
  | cons x xs ih =>
    obtain ⟨hx, hxs⟩ := List.forall_mem_cons.1 h
    cases xs with
    | nil => simpa [joinLines] using hx
    | cons y ys =>
      simp only [joinLines, List.map_cons, List.intercalate_cons_cons] at ih ⊢
      exact (hx.append (bares_of_notMem (by decide))).append (ih hxs)

namespace Painter

theorem bares_apply (hcode : code.all isStyleParameter = true) (h : '\x1b' ∉ t) :
    Bares (apply ⟨true⟩ code t) (apply ⟨false⟩ code t) := by
  intro rest
  have hoff : "0".toList.all isStyleParameter = true := by decide
  change withoutStyles (styleSequence code ++ t ++ styleSequence "0" ++ rest) = t ++ _
  rw [List.append_assoc, List.append_assoc, withoutStyles_styleSequence hcode,
    bares_of_notMem h, withoutStyles_styleSequence hoff]

theorem bares_candidate (h : '\x1b' ∉ t) : Bares (candidate ⟨true⟩ t) (candidate ⟨false⟩ t) := by
  unfold candidate
  split_ifs
  · exact bares_apply (by decide) h
  · exact bares_apply (by decide) h
  · exact bares_apply (by decide) h
  · exact bares_of_notMem h

end Painter

/-- No text of the report holds an escape character. -/
structure Report.EscapeFree (r : Report) : Prop where
  source : '\x1b' ∉ r.source
  candidates : ∀ c ∈ r.candidates, '\x1b' ∉ c
  error : ∀ e, r.result = .error e → '\x1b' ∉ e.message

namespace Printer

open Painter

variable {r : Report}

/-- Plain output in color is the output without color as soon as the style sequences are gone. -/
def PlainAlike (print : Printer → Text) : Prop :=
  withoutStyles (print ⟨.plain, true⟩) = print ⟨.plain, false⟩

/-- JSON is the same in color and without, and has no escape character in it. -/
def JsonAlike (print : Printer → Text) : Prop :=
  print ⟨.json, true⟩ = print ⟨.json, false⟩ ∧ '\x1b' ∉ print ⟨.json, true⟩

theorem bares_reportHead (h : r.EscapeFree) :
    Bares (reportHead ⟨.plain, true⟩ r) (reportHead ⟨.plain, false⟩ r) := by
  have hsource : Bares (heading ⟨true⟩ r.source) (heading ⟨false⟩ r.source) :=
    bares_apply (by decide) h.source
  have hgap : Bares [' '] [' '] := bares_of_notMem (by decide)
  obtain ⟨source, result⟩ := r
  cases result with
  | ok cs =>
    have hdigits : '\x1b' ∉ ofNat cs.length := Json.notMem_ofNat (by decide) cs.length
    have hcount : '\x1b' ∉ '(' :: ofNat cs.length ++ [')'] := by simp [hdigits]
    exact hsource.append (hgap.append (bares_apply (by decide) hcount))
  | error e =>
    have hmessage : '\x1b' ∉ "failed: ".toList ++ e.message :=
      List.not_mem_append (by decide) (h.error e rfl)
    exact hsource.append (hgap.append (bares_apply (by decide) hmessage))

theorem bares_reportText (h : r.EscapeFree) :
    Bares (reportText ⟨.plain, true⟩ r) (reportText ⟨.plain, false⟩ r) :=
  (bares_reportHead h).append (bares_flatMap fun c hc =>
    (bares_of_notMem (by decide)).append (bares_candidate (h.candidates c hc)))

theorem bares_bindingText {b : Text × Json} (h : '\x1b' ∉ b.1) :
    Bares (bindingText ⟨.plain, true⟩ b) (bindingText ⟨.plain, false⟩ b) := by
  have hname : '\x1b' ∉ '$' :: b.1 := List.not_mem_cons_of_ne_of_not_mem (by decide) h
  have hvalue : Bares b.2.compact b.2.compact :=
    bares_of_notMem (Json.notMem_compact (by decide) b.2)
  exact ((bares_candidate hname).append (bares_of_notMem (by decide))).append hvalue

theorem bares_lines {α : Type} {f g : α → Text} {xs : List α} (ht : '\x1b' ∉ t)
    (h : ∀ x ∈ xs, Bares (f x) (g x)) :
    Bares (if xs.isEmpty then dim ⟨true⟩ t else joinLines (xs.map f))
      (if xs.isEmpty then dim ⟨false⟩ t else joinLines (xs.map g)) := by
  split_ifs
  · exact bares_apply (by decide) ht
  · exact bares_joinLines h

theorem jsonAlike_pretty (v : Json) {print : Printer → Text}
    (h : ∀ color, print ⟨.json, color⟩ = v.pretty) : JsonAlike print := by
  refine ⟨(h true).trans (h false).symm, ?_⟩
  rw [h]
  exact Json.notMem_prettyAt (by decide) (by decide) v 0

/-- Color changes nothing but the style sequences in what is printed: with these taken out, plain
candidates, reports and listings are what is printed without color.  In JSON it changes nothing at
all, even where texts hold escape characters. -/
theorem color_is_presentation :
    (∀ (line : Text) (cs : List Text), (∀ c ∈ cs, '\x1b' ∉ c) →
      PlainAlike fun p => p.candidates line cs) ∧
    (∀ (line : Text) (rs : List Report), (∀ r ∈ rs, r.EscapeFree) →
      PlainAlike fun p => p.reports line rs) ∧
    (∀ bs : List (Text × Json), (∀ b ∈ bs, '\x1b' ∉ b.1) → PlainAlike fun p => p.bindings bs) ∧
    (∀ (line : Text) (cs : List Text), JsonAlike fun p => p.candidates line cs) ∧
    (∀ (line : Text) (rs : List Report), JsonAlike fun p => p.reports line rs) ∧
    ∀ bs : List (Text × Json), JsonAlike fun p => p.bindings bs := by
  refine ⟨fun line cs h => ?_, fun line rs h => ?_, fun bs h => ?_, fun line cs => ?_,
    fun line rs => ?_, fun bs => ?_⟩
  · exact (bares_lines (by decide) fun c hc => bares_candidate (h c hc)).withoutStyles_eq
  · exact (bares_joinLines fun r hr => bares_reportText (h r hr)).withoutStyles_eq
  · exact (bares_lines (by decide) fun b hb => bares_bindingText (h b hb)).withoutStyles_eq
  · exact jsonAlike_pretty (candidatesJson line cs) fun _ => rfl
  · exact jsonAlike_pretty (reportsJson line rs) fun _ => rfl
  · exact jsonAlike_pretty (Json.ofMembers bs) fun _ => rfl

/-- One text of each color, a failed source beside another one, and a value with an escape
character. -/
theorem color_of_samples :
    let cs : List Text := ["$title", ":json", "**[is node]", "name"]
    let rs : List Report := [⟨"grammar", .ok ["$title"]⟩, ⟨"document", .error (.document "lost")⟩]
    let bs : List (Text × Json) := [("a", .str ['\x1b'])]
    (∀ c ∈ cs, '\x1b' ∉ c) ∧ (∀ r ∈ rs, r.EscapeFree) ∧ (∀ b ∈ bs, '\x1b' ∉ b.1) ∧
      withoutStyles
        "\x1b[36m$title\x1b[0m\n\x1b[33m:json\x1b[0m\n\x1b[32m**[is node]\x1b[0m\nname" =
          "$title\n:json\n**[is node]\nname".toList ∧
      withoutStyles (reports ⟨.plain, true⟩ "" rs) =
        "grammar (1)\n  $title\ndocument failed: Unreadable document: lost".toList ∧
      withoutStyles "\x1b[36m$a\x1b[0m = \"\\u001b\"" = "$a = \"\\u001b\"".toList := by
  intro cs rs bs
  have hcs : ∀ c ∈ cs, '\x1b' ∉ c := by decide
  have hrs : ∀ r ∈ rs, r.EscapeFree := by
    simp only [rs, List.forall_mem_cons]
    refine ⟨⟨by decide, by decide, by simp⟩, ⟨by decide, by decide, ?_⟩, by simp⟩
    rintro e he
    obtain rfl := Except.error.inj he
    decide
  have hbs : ∀ b ∈ bs, '\x1b' ∉ b.1 := by simp [bs]
  obtain ⟨hcandidates, hreports, hbindings, _⟩ := color_is_presentation
  exact ⟨hcs, hrs, hbs, hcandidates "" cs hcs, hreports "" rs hrs, hbindings bs hbs⟩

end Printer
end ManifestShell
