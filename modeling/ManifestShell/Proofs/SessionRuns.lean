import ManifestShell.Files
import ManifestShell.Proofs.CommandLines
import ManifestShell.Proofs.JsonNesting
import ManifestShell.Proofs.Tables
import ManifestShell.Shell.Session

/-! What a run of lines leaves behind.
A line either writes one part of a session (a variable, the document, whether it runs) or leaves the
session as it is.  So each part holds after a run what the last line that wrote it put there. -/
namespace ManifestShell

namespace Session

open Command Text

variable {α : Type} {e : Engine} {s : Session} {line n : Text} {lines : List Text}
  {r : Session × LineResult}

def run (e : Engine) (s : Session) (lines : List Text) : Session := (s.enterAll e lines).1

@[simp] theorem run_nil (e : Engine) (s : Session) : s.run e [] = s := rfl

@[simp] theorem run_cons (e : Engine) (s : Session) (line : Text) (lines : List Text) :
    s.run e (line :: lines) = (s.enter e line).1.run e lines := rfl

theorem run_append (e : Engine) (s : Session) (ls ls' : List Text) :
    s.run e (ls ++ ls') = (s.run e ls).run e ls' := by
  induction ls generalizing s with
  | nil => rfl
  | cons l ls ih => exact ih (s.enter e l).1

/-- A line that shows something and changes nothing. -/
def ShowLine (line : Text) : Prop :=
  QueryLine line ∨
    ∃ word arg, Written line word arg ∧ (word = ".sources" ∨ word = ".bindings" ∨ word = ".help")

/-- What a line can do to a session, and how it can end. -/
inductive Step (s : Session) (line : Text) : Session × LineResult → Prop
  | bind {n : Text} {v : Json} (h : BindLine line n v) : Step s line (s.bind n v, .output none)
  | unbind {n : Text} (h : UnbindLine line n) (hn : (s.bindings.find? n).isSome) :
      Step s line (s.unbind n, .output none)
  | unbound {n : Text} (h : UnbindLine line n) (hn : s.bindings.find? n = none) :
      Step s line (s, .error (CommandError.unbound n).toShellError)
  | document {d : Option Document} (h : DocumentLine line d) (out : Text) :
      Step s line ({ s with document := d }, .output (some out))
  | exit (h : ExitLine line) : Step s line ({ s with running := false }, .output none)
  | shown (h : ShowLine line) {r : LineResult} (hr : ∀ err, r ≠ .error err) : Step s line (s, r)
  | unreadable (h : ∀ cmd, ¬ Reads line cmd) (err : ShellError) : Step s line (s, .error err)

theorem enter_of_reads {cmd : Command} (h : Reads line cmd) :
    s.enter e line = s.execute e cmd := by
  rw [enter, parse_eq_ok_iff.2 h]

theorem step_enter (e : Engine) (s : Session) (line : Text) : Step s line (s.enter e line) := by
  cases hparse : parse line with
  | error err =>
    have hnot (cmd : Command) : ¬ Reads line cmd := fun h => by
      rw [parse_eq_ok_iff.2 h] at hparse
      cases hparse
    rw [enter, hparse]
    exact .unreadable hnot _
  | ok cmd =>
    have hreads := parse_eq_ok_iff.1 hparse
    rw [enter_of_reads hreads]
    cases hreads with
    | query h => exact .shown (Or.inl h) (by simp)
    | exit h => exact .exit h
    | help h => exact .shown (Or.inr ⟨_, _, h, by simp⟩) (by simp)
    | bindings h => exact .shown (Or.inr ⟨_, _, h, by simp⟩) (by simp)
    | bind h => exact .bind h
    | unbind h =>
      rw [execute]
      split_ifs with hn
      · exact .unbind h hn
      · exact .unbound h (by simpa using hn)
    | document h hwords => exact .document ⟨_, h, by rw [hwords]; rfl⟩ _
    | clearDocument h hwords => exact .document ⟨_, h, by rw [hwords]; rfl⟩ _
    | sources h =>
      have hshow : ShowLine line := Or.inr ⟨_, _, h, by simp⟩
      rw [execute]
      split
      · exact .shown hshow (by simp)
      · exact .shown hshow (by simp)

/-! ### The last write wins -/

section LastWrite

variable (e : Engine) (writes : Session → Text → α → Prop)

variable {e writes}

end LastWrite

/-! ### The parts of a session -/

def WritesVariable (e : Engine) (n : Text) (s : Session) (line : Text) : Option Json → Prop
  | some v => BindLine line n v
  | none => UnbindLine line n ∧ ∃ out, (s.enter e line).2 = .output out

theorem find?_enter_of_writes {v : Option Json} (h : WritesVariable e n s line v) :
    (s.enter e line).1.bindings.find? n = v := by
  cases v with
  | some v =>
    rw [enter_of_reads (.bind h)]
    simp [execute, Session.bind]
  | none =>
    obtain ⟨hline, out, hout⟩ := h
    rw [enter_of_reads (.unbind hline), execute] at hout ⊢
    split_ifs at hout ⊢ with hn
    simp [Session.unbind]

theorem find?_enter_of_not_writes (h : ∀ v, ¬ WritesVariable e n s line v) :
    (s.enter e line).1.bindings.find? n = s.bindings.find? n := by
  have hstep := step_enter e s line
  generalize hr : s.enter e line = r at hstep
  cases hstep with
  | @bind m v hline =>
    have hne : m ≠ n := fun hm => h (some v) (hm ▸ hline)
    simp [Session.bind, hne]
  | @unbind m hline _ =>
    have hne : m ≠ n := fun hm => h none ⟨hm ▸ hline, none, by rw [hr]⟩
    simp [Session.unbind, hne]
  | unbound | document | exit | shown | unreadable => rfl

theorem isName_enter (h : ∀ n ∈ s.bindings.keys, IsName n) :
    ∀ n ∈ (s.enter e line).1.bindings.keys, IsName n := by
  intro n hn
  rw [Table.mem_keys_iff] at hn
  by_cases hwrite : ∃ v, BindLine line n v
  · obtain ⟨v, arg, var, text, _, _, hnames, _⟩ := hwrite
    exact hnames.isName
  · refine h n (Table.mem_keys_iff.2 ?_)
    by_cases hgone : UnbindLine line n ∧ ∃ out, (s.enter e line).2 = .output out
    · rw [find?_enter_of_writes (v := none) hgone] at hn
      cases hn
    · rwa [find?_enter_of_not_writes] at hn
      rintro (_ | v) hv
      · exact hgone hv
      · exact hwrite ⟨v, hv⟩

/-! ### Runs -/

theorem isName_run (h : ∀ n ∈ s.bindings.keys, IsName n) :
    ∀ n ∈ (s.run e lines).bindings.keys, IsName n := by
  induction lines generalizing s with
  | nil => exact h
  | cons line lines ih => exact ih (isName_enter h)

theorem pairwise_keys (t : Table α) : t.keys.Pairwise fun m n => bytes m < bytes n :=
  List.pairwise_map.2 (t.ascending.imp bytes_lt_bytes)

end Session
end ManifestShell
