import ManifestShell.CommandLine.Run
import ManifestShell.Proofs.SessionRuns
import ManifestShell.Proofs.TypedCommands

/-! Sessions that the command line starts.
What the options on the command line put into a session is what the corresponding lines put there
when they are entered one by one: the same variables, the same document, and the same error at the
first variable that cannot be bound.  Completing one line from the command line prints what entering
the line prints. -/
namespace ManifestShell

def LineResult.error? : LineResult → Option ShellError
  | .error err => some err
  | .output _ | .breakdown => none

def firstError? (rs : List LineResult) : Option ShellError := rs.findSome? LineResult.error?

namespace Arguments

open Command Text

variable {bs : List (Text × Text)}

theorem binding_eq {name : Text} (h : '=' ∉ name) (value : Text) :
    binding (name ++ '=' :: value) =
      (variableName name).map fun n => (n, Json.parseOrText value) := by
  have hsplit : splitFirst? (· == '=') (name ++ '=' :: value) = some (name, value) := by
    refine splitFirst?_eq_some_iff.2 ⟨'=', rfl, rfl, fun c hc => ?_⟩
    exact beq_false_of_ne fun hceq => h (hceq ▸ hc)
  rw [binding, hsplit]

/-- Binding by options and binding by lines go the same way up to the first error. -/
theorem enterAll_bindLines (hnames : ∀ b ∈ bs, IsWord b.1 ∧ '=' ∉ b.1)
    (hvalues : ∀ b ∈ bs, Tight b.2 ∧ b.2 ≠ []) (e : Engine) (s : Session) :
    match (bs.map fun b => b.1 ++ '=' :: b.2).mapM binding with
    | .ok nvs =>
      firstError? (s.enterAll e (bs.map fun b => bindLine b.1 b.2)).2 = none ∧
        s.run e (bs.map fun b => bindLine b.1 b.2) = nvs.foldl (fun s b => s.bind b.1 b.2) s
    | .error err =>
      firstError? (s.enterAll e (bs.map fun b => bindLine b.1 b.2)).2 = some err.toShellError := by
  induction bs generalizing s with
  | nil => exact ⟨rfl, rfl⟩
  | cons b bs ih =>
    obtain ⟨⟨hvar, heq⟩, hnames⟩ := List.forall_mem_cons.1 hnames
    obtain ⟨⟨htext, hne⟩, hvalues⟩ := List.forall_mem_cons.1 hvalues
    have henter := Session.enter_bindLine hvar htext hne e s
    rw [List.map_cons, List.map_cons, List.mapM_cons, binding_eq heq]
    cases hname : variableName b.1 with
    | error err =>
      rw [hname] at henter
      rw [Session.enterAll, henter]
      rfl
    | ok n =>
      rw [hname] at henter
      have hrest := ih hnames hvalues (s.bind n (Json.parseOrText b.2))
      rw [Session.enterAll, Session.run_cons, henter]
      cases hmap : (bs.map fun b => b.1 ++ '=' :: b.2).mapM binding with
      | error err =>
        rw [hmap] at hrest
        exact hrest
      | ok nvs =>
        rw [hmap] at hrest
        exact hrest

def freshSession (env : Environment) (a : Arguments) (display : DisplaySettings) : Session :=
  Session.new (Functions.ofList (a.functions.map fun name => ⟨name, none⟩)) (a.files env) display

/-- The line for the document that the arguments describe, if they describe one. -/
def documentLines (a : Arguments) : List Text :=
  if a.document.isNone && a.children.isEmpty then []
  else [documentLine (a.document.getD "document") a.children]

theorem run_documentLines {a : Arguments} (hroot : ∀ r, a.document = some r → IsWord r)
    (htags : ∀ t ∈ a.children, IsWord t) (e : Engine) {s : Session} (hs : s.document = none) :
    s.run e a.documentLines = { s with document := a.documentOf } := by
  have hname : IsWord (a.document.getD "document") := by
    cases hdoc : a.document with
    | none => exact by decide
    | some r => exact hroot r hdoc
  unfold documentLines documentOf
  split
  · rw [Session.run_nil, ← hs]
  · rw [Session.run_cons, Session.enter_documentLine hname htags]
    rfl

/-- The options that bind variables are read first; then the table and the document are filled. -/
theorem session_eq (env : Environment) (a : Arguments) (display : DisplaySettings) :
    a.session env display = (a.bindings.mapM binding).map fun nvs =>
      { a.freshSession env display with
        bindings := nvs.foldl (fun t b => t.insert b.1 b.2) Table.empty
        document := a.documentOf } := by
  rw [session]
  cases a.bindings.mapM binding with
  | error err => rfl
  | ok nvs =>
    change Except.ok { nvs.foldl (fun s b => s.bind b.1 b.2) (a.freshSession env display) with
      document := a.documentOf } = _
    rw [Session.foldl_bind]
    rfl

/-- Nothing on the command line changes how a session prints. -/
theorem printer_of_session {env : Environment} {a : Arguments} {display : DisplaySettings}
    {s : Session} (h : a.session env display = .ok s) : s.printer = Printer.ofSettings display := by
  rw [session_eq] at h
  cases hmap : a.bindings.mapM binding with
  | error err =>
    rw [hmap] at h
    cases h
  | ok nvs =>
    rw [hmap] at h
    obtain rfl := Except.ok.inj h
    rfl

/-- Variables and a document given on the command line make the session that the same variables and
document make when they are entered in a fresh one.  It is refused exactly if some of the lines ends
with an error, and then with the error of the first of these.  Any line that is not a command is
completed from the command line to the text that entering it in that session prints. -/
theorem session_agrees_with_lines (env : Environment) (a : Arguments) (settings : Settings)
    (bs : List (Text × Text)) (hbs : a.bindings = bs.map fun b => b.1 ++ '=' :: b.2)
    (hnames : ∀ b ∈ bs, IsWord b.1 ∧ '=' ∉ b.1) (hvalues : ∀ b ∈ bs, Tight b.2 ∧ b.2 ≠ [])
    (hroot : ∀ r, a.document = some r → IsWord r) (htags : ∀ t ∈ a.children, IsWord t) :
    let e := Engine.ofSettings settings.completion
    let fresh := a.freshSession env settings.display
    let lines := bs.map fun b => bindLine b.1 b.2
    ((a.session env settings.display).mapError CommandError.toShellError =
      match firstError? (fresh.enterAll e lines).2 with
      | some err => .error err
      | none => .ok (fresh.run e (lines ++ a.documentLines))) ∧
    ∀ s, a.session env settings.display = .ok s → ∀ line, isCommand (trim line) = false →
      ∃ shown, completeLine env a settings line = .ok shown ∧
        s.enter e line = (s, .output (some shown)) := by
  intro e fresh lines
  constructor
  · have hlines := enterAll_bindLines hnames hvalues e fresh
    rw [← hbs] at hlines
    rw [session_eq]
    cases hmap : a.bindings.mapM binding with
    | error err =>
      rw [hmap] at hlines
      rw [hlines]
      rfl
    | ok nvs =>
      rw [hmap] at hlines
      obtain ⟨herror, hrun⟩ := hlines
      rw [Session.foldl_bind] at hrun
      have hnone : (fresh.run e lines).document = none := by
        rw [hrun]
        rfl
      rw [herror, Session.run_append, run_documentLines hroot htags e hnone, hrun]
      rfl
  · intro s hs line hline
    have hquery : Reads line (.complete line) := .query (queryLine_iff.2 hline)
    refine ⟨s.printer.candidates line (e.candidates line s.context), ?_, ?_⟩
    · rw [completeLine, hs, printer_of_session hs]
    · rw [Session.enter_of_reads hquery]
      rfl

/-- One variable is bound twice, one value is no JSON, and the root of the document has no name of
its own; with a name that cannot be bound the session is refused. -/
theorem session_of_options :
    let env : Environment := ⟨⟨[], []⟩, "/home/user"⟩
    let bs : List (Text × Text) := [("$x", "1"), ("y-z", "a b = c"), ("x", "[true]")]
    let a : Arguments :=
      { bindings := ["$x=1", "y-z=a b = c", "x=[true]"], children := ["ad", "movie"] }
    let settings := Settings.default env.home
    let e := Engine.ofSettings settings.completion
    (∀ b ∈ bs, IsWord b.1 ∧ '=' ∉ b.1) ∧ (∀ b ∈ bs, Tight b.2 ∧ b.2 ≠ []) ∧
      (∀ t ∈ a.children, IsWord t) ∧
      (∃ s, a.session env settings.display = .ok s ∧
        s = (a.freshSession env settings.display).run e [".bind $x 1", ".bind y-z a b = c",
          ".bind x [true]", ".document document ad movie"] ∧
        s.bindings.keys = ["x".toList, "y-z".toList] ∧
        ∃ shown, completeLine env a settings "[na" = .ok shown ∧
          s.enter e "[na" = (s, .output (some shown))) ∧
      ({ a with bindings := ["$x=1", "2y=3"] }.session env settings.display).mapError
        CommandError.toShellError = .error (.command "Invalid variable name: '2y'") := by
  intro env bs a settings e
  have hnames : ∀ b ∈ bs, IsWord b.1 ∧ '=' ∉ b.1 := by decide
  have hvalues : ∀ b ∈ bs, Tight b.2 ∧ b.2 ≠ [] := by decide
  have htags : ∀ t ∈ a.children, IsWord t := by decide
  obtain ⟨hstart, hcomplete⟩ :=
    session_agrees_with_lines env a settings bs rfl hnames hvalues (by simp [a]) htags
  obtain ⟨hrefused, _⟩ := session_agrees_with_lines env { a with bindings := ["$x=1", "2y=3"] }
    settings [("$x", "1"), ("2y", "3")] rfl (by decide) (by decide) (by simp [a]) htags
  have hsome : ∃ s, a.session env settings.display = .ok s := ⟨_, rfl⟩
  obtain ⟨s, hs⟩ := hsome
  have hrun : s = (a.freshSession env settings.display).run e [".bind $x 1", ".bind y-z a b = c",
      ".bind x [true]", ".document document ad movie"] := by
    rw [hs] at hstart
    exact Except.ok.inj hstart
  refine ⟨hnames, hvalues, htags, ⟨s, hs, hrun, ?_, hcomplete s hs "[na" (by decide)⟩, hrefused⟩
  rw [hrun]
  rfl

end Arguments
end ManifestShell
