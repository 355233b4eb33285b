import Mathlib.Data.List.Basic
import ManifestShell.Proofs.Escaping

/-! Which texts are patterns.
`Pattern` is the grammar of patterns, read off a text from the left; the scanner accepts exactly the
texts of this grammar.  Between two characters the scanner stands for the part of the text that no
token covers yet, so its run is followed by putting that part back in front of what is left. -/
namespace ManifestShell.Glob

/-- What a class has to begin with, so that a closing bracket may follow: one character, or a mark
of negation and one character. -/
inductive ClassLead : Text → Prop
  | plain {c : Char} (h : c ≠ '!') : ClassLead [c]
  | negated (c : Char) : ClassLead ['!', c]

/-- The grammar of patterns.  `fresh` says that the text stands at the start of a component. -/
inductive Pattern : Bool → Text → Prop
  | done (fresh : Bool) : Pattern fresh []
  | char {fresh : Bool} {c : Char} {t : Text} (plain : c ≠ '?' ∧ c ≠ '*' ∧ c ≠ '[')
      (rest : Pattern (c == '/') t) : Pattern fresh (c :: t)
  | anyChar {fresh : Bool} {t : Text} (rest : Pattern false t) : Pattern fresh ('?' :: t)
  | anyRun {fresh : Bool} {t : Text} (single : t.head? ≠ some '*') (rest : Pattern false t) :
      Pattern fresh ('*' :: t)
  | lastComponents : Pattern true ['*', '*']
  | components {t : Text} (rest : Pattern true t) : Pattern true ('*' :: '*' :: '/' :: t)
  | charClass {fresh : Bool} {lead body t : Text} (start : ClassLead lead) (inner : ']' ∉ body)
      (rest : Pattern false t) : Pattern fresh ('[' :: (lead ++ (body ++ ']' :: t)))

theorem pattern_char_iff {fresh : Bool} {c : Char} {t : Text} (h : c ≠ '?' ∧ c ≠ '*' ∧ c ≠ '[') :
    Pattern fresh (c :: t) ↔ Pattern (c == '/') t := by
  refine ⟨fun hp => ?_, Pattern.char h⟩
  cases hp with
  | char _ rest => exact rest
  | anyChar | anyRun | lastComponents | components | charClass => simp at h

theorem pattern_anyChar_iff {fresh : Bool} {t : Text} :
    Pattern fresh ('?' :: t) ↔ Pattern false t := by
  refine ⟨fun hp => ?_, Pattern.anyChar⟩
  cases hp with
  | char h _ => simp at h
  | anyChar rest => exact rest

theorem pattern_anyRun_iff {fresh : Bool} {t : Text} (h : t.head? ≠ some '*') :
    Pattern fresh ('*' :: t) ↔ Pattern false t := by
  refine ⟨fun hp => ?_, Pattern.anyRun h⟩
  cases hp with
  | char h _ => simp at h
  | anyRun _ rest => exact rest
  | lastComponents | components => simp at h

theorem pattern_components_iff {fresh : Bool} {t : Text} :
    Pattern fresh ('*' :: '*' :: t) ↔
      fresh = true ∧ (t = [] ∨ ∃ u, t = '/' :: u ∧ Pattern true u) := by
  constructor
  · intro hp
    cases hp with
    | char h _ => simp at h
    | anyRun single _ => simp at single
    | lastComponents => exact ⟨rfl, Or.inl rfl⟩
    | components rest => exact ⟨rfl, Or.inr ⟨_, rfl, rest⟩⟩
  · rintro ⟨rfl, rfl | ⟨u, rfl, hu⟩⟩
    · exact .lastComponents
    · exact .components hu

theorem ClassLead.append_inj {lead lead' s s' : Text} (h : ClassLead lead) (h' : ClassLead lead')
    (heq : lead ++ s = lead' ++ s') : lead = lead' ∧ s = s' := by
  cases h with
  | plain hc =>
    cases h' with
    | plain => simpa using heq
    | negated => simp [hc] at heq
  | negated c =>
    cases h' with
    | plain hc => exact absurd (List.cons.inj heq).1.symm hc
    | negated => simpa using heq

theorem takeWhile_append_bracket {body t : Text} (h : ']' ∉ body) :
    (body ++ ']' :: t).takeWhile (· != ']') = body := by
  have hne : ∀ c ∈ body, (c != ']') = true := fun c hc => by
    simpa using fun heq : c = ']' => h (heq ▸ hc)
  exact Text.takeWhile_append_of_stop hne fun c hc => by simp [← Option.some.inj hc]

/-- A class may stand anywhere; it ends at the first bracket after its beginning. -/
theorem pattern_bracket_iff {fresh : Bool} {w : Text} :
    Pattern fresh ('[' :: w) ↔ ∃ lead body t, ClassLead lead ∧ w = lead ++ (body ++ ']' :: t) ∧
      ']' ∉ body ∧ Pattern false t := by
  constructor
  · intro hp
    cases hp with
    | char h _ => simp at h
    | charClass hl hbody rest => exact ⟨_, _, _, hl, rfl, hbody, rest⟩
  · rintro ⟨lead, body, t, hl, rfl, hbody, rest⟩
    exact .charClass hl hbody rest

theorem pattern_class_closed_iff {fresh : Bool} {lead body t : Text} (hl : ClassLead lead)
    (hbody : ']' ∉ body) :
    Pattern fresh ('[' :: (lead ++ (body ++ ']' :: t))) ↔ Pattern false t := by
  rw [pattern_bracket_iff]
  constructor
  · rintro ⟨lead', body', t', hl', heq, hbody', rest⟩
    obtain ⟨_, heq⟩ := hl.append_inj hl' heq
    have hsame := congrArg (List.takeWhile (· != ']')) heq
    rw [takeWhile_append_bracket hbody, takeWhile_append_bracket hbody'] at hsame
    subst hsame
    obtain rfl : t = t' := by simpa using heq
    exact rest
  · exact fun rest => ⟨lead, body, t, hl, rfl, hbody, rest⟩

namespace ScanState

/-- The part of the text that no token covers yet. -/
def pending : ScanState → Text
  | between _ => []
  | star _ _ => ['*']
  | stars _ _ => ['*', '*']
  | classOpen _ => ['[']
  | classNegated _ => ['[', '!']
  | classBody _ negated body => '[' :: if negated then '!' :: body else body

/-- Whether that part stands at the start of a component; for a class this makes no difference. -/
def fresh : ScanState → Bool
  | between fresh => fresh
  | star fresh _ => fresh
  | stars fresh _ => fresh
  | classOpen _ | classNegated _ | classBody _ _ _ => false

/-- What the scanner has read of a class is a beginning and characters that do not close it. -/
def Sound : ScanState → Prop
  | classBody _ negated body =>
    ∃ lead more, (if negated then '!' :: body else body) = lead ++ more ∧ ClassLead lead ∧
      ']' ∉ more
  | _ => True

end ScanState

theorem scanFresh_sound (fresh : Bool) (pos : Nat) (c : Char) :
    (scanFresh fresh pos c).2.Sound := by
  unfold scanFresh
  split_ifs <;> trivial

theorem scanFresh_pattern_iff (fresh : Bool) (pos : Nat) (c : Char) (t : Text) :
    Pattern fresh (c :: t) ↔
      Pattern (scanFresh fresh pos c).2.fresh ((scanFresh fresh pos c).2.pending ++ t) := by
  unfold scanFresh
  split_ifs with h₁ h₂ h₃
  · subst h₁
    exact pattern_anyChar_iff
  · subst h₂
    rfl
  · subst h₃
    exact pattern_bracket_iff.trans pattern_bracket_iff.symm
  · exact pattern_char_iff ⟨h₁, h₂, h₃⟩

/-- One step of the scanner moves a character into the pending part or lets go of a token. -/
theorem scanStep_pattern_iff {pos : Nat} {c : Char} {s s' : ScanState} {ts : List Token}
    (hs : s.Sound) (h : scanStep pos c s = .ok (ts, s')) (t : Text) :
    s'.Sound ∧ (Pattern s.fresh (s.pending ++ c :: t) ↔ Pattern s'.fresh (s'.pending ++ t)) := by
  cases s with
  | between fresh =>
    obtain rfl : (scanFresh fresh pos c).2 = s' := congrArg Prod.snd (Except.ok.inj h)
    exact ⟨scanFresh_sound fresh pos c, scanFresh_pattern_iff fresh pos c t⟩
  | star fresh start =>
    simp only [scanStep] at h
    split_ifs at h with hc
    · obtain rfl : ScanState.stars fresh start = s' := congrArg Prod.snd (Except.ok.inj h)
      subst hc
      exact ⟨trivial, Iff.rfl⟩
    · obtain rfl : (scanFresh false pos c).2 = s' := congrArg Prod.snd (Except.ok.inj h)
      refine ⟨scanFresh_sound false pos c, ?_⟩
      have hhead : (c :: t).head? ≠ some '*' := by simpa using hc
      exact (pattern_anyRun_iff hhead).trans (scanFresh_pattern_iff false pos c t)
  | stars fresh start =>
    simp only [scanStep] at h
    split_ifs at h with h₁ h₂ h₃
    obtain rfl : ScanState.between true = s' := congrArg Prod.snd (Except.ok.inj h)
    obtain rfl : fresh = true := by simpa using h₂
    subst h₃
    refine ⟨trivial, ?_⟩
    change Pattern true ('*' :: '*' :: '/' :: t) ↔ Pattern true t
    simp [pattern_components_iff]
  | classOpen start =>
    simp only [scanStep] at h
    split_ifs at h with hc
    · obtain rfl : ScanState.classNegated start = s' := congrArg Prod.snd (Except.ok.inj h)
      subst hc
      exact ⟨trivial, Iff.rfl⟩
    · obtain rfl : ScanState.classBody start false [c] = s' := congrArg Prod.snd (Except.ok.inj h)
      exact ⟨⟨[c], [], rfl, .plain hc, by simp⟩, Iff.rfl⟩
  | classNegated start =>
    obtain rfl : ScanState.classBody start true [c] = s' := congrArg Prod.snd (Except.ok.inj h)
    exact ⟨⟨['!', c], [], rfl, .negated c, by simp⟩, Iff.rfl⟩
  | classBody start negated body =>
    obtain ⟨lead, more, hread, hlead, hmore⟩ := hs
    have hpending : (ScanState.classBody start negated body).pending = '[' :: (lead ++ more) :=
      congrArg ('[' :: ·) hread
    simp only [scanStep] at h
    split_ifs at h with hc
    · obtain rfl : ScanState.between false = s' := congrArg Prod.snd (Except.ok.inj h)
      subst hc
      refine ⟨trivial, ?_⟩
      rw [hpending, List.cons_append, List.append_assoc]
      exact pattern_class_closed_iff hlead hmore
    · obtain rfl : ScanState.classBody start negated (body ++ [c]) = s' :=
        congrArg Prod.snd (Except.ok.inj h)
      have hread' : (if negated then '!' :: (body ++ [c]) else body ++ [c]) =
          lead ++ (more ++ [c]) := by
        rw [← List.append_assoc, ← hread]
        cases negated <;> rfl
      refine ⟨⟨lead, more ++ [c], hread', hlead, by simp [hmore, Ne.symm hc]⟩, ?_⟩
      have hpending' : (ScanState.classBody start negated (body ++ [c])).pending =
          '[' :: (lead ++ (more ++ [c])) := congrArg ('[' :: ·) hread'
      rw [hpending, hpending']
      simp [ScanState.fresh]

/-- Only after two stars can a step fail, and then no text can follow. -/
theorem not_pattern_of_scanStep {pos : Nat} {c : Char} {s : ScanState} {e : PatternError}
    (h : scanStep pos c s = .error e) (t : Text) :
    ¬ Pattern s.fresh (s.pending ++ c :: t) := by
  cases s with
  | stars fresh start =>
    intro hp
    obtain ⟨hfresh, hnil | ⟨u, hu, _⟩⟩ := pattern_components_iff.1 hp
    · simp at hnil
    · obtain rfl := (List.cons.inj hu).1
      change fresh = true at hfresh
      subst hfresh
      simp [scanStep] at h
  | between | classNegated => simp [scanStep] at h
  | star | classOpen | classBody =>
    simp only [scanStep] at h
    split_ifs at h

theorem scanEnd_ok_iff {s : ScanState} (hs : s.Sound) :
    (∃ ts, scanEnd s = .ok ts) ↔ Pattern s.fresh s.pending := by
  cases s with
  | between fresh => exact iff_of_true ⟨_, rfl⟩ (.done fresh)
  | star fresh start => exact iff_of_true ⟨_, rfl⟩ (.anyRun (by simp) (.done false))
  | stars fresh start =>
    change _ ↔ Pattern fresh ('*' :: '*' :: [])
    rw [pattern_components_iff]
    cases fresh <;> simp [scanEnd]
  | classOpen start =>
    refine iff_of_false (by simp [scanEnd]) fun hp => ?_
    obtain ⟨lead, body, t, _, hnil, _⟩ := pattern_bracket_iff.1 hp
    simp at hnil
  | classNegated start =>
    refine iff_of_false (by simp [scanEnd]) fun hp => ?_
    obtain ⟨lead, body, t, hl, hbang, _⟩ := pattern_bracket_iff.1 hp
    cases hl with
    | plain hc => exact hc (List.cons.inj hbang).1.symm
    | negated c => simp at hbang
  | classBody start negated body =>
    refine iff_of_false (by simp [scanEnd]) fun hp => ?_
    obtain ⟨lead, more, hread, hlead, hmore⟩ := hs
    obtain ⟨lead', body', t, hl, heq, _⟩ := pattern_bracket_iff.1 hp
    obtain ⟨_, rfl⟩ := hlead.append_inj hl (hread.symm.trans heq)
    simp at hmore

/-- The scanner accepts what the grammar allows behind the pending part. -/
theorem scan_ok_iff {s : ScanState} (hs : s.Sound) (pos : Nat) (t : Text) :
    (∃ ts, scan s pos t = .ok ts) ↔ Pattern s.fresh (s.pending ++ t) := by
  induction t generalizing s pos with
  | nil =>
    rw [List.append_nil]
    exact scanEnd_ok_iff hs
  | cons c t ih =>
    cases hstep : scanStep pos c s with
    | error e =>
      have hfail : scan s pos (c :: t) = .error e := by simp [scan, hstep, bind, Except.bind]
      exact iff_of_false (by simp [hfail]) (not_pattern_of_scanStep hstep t)
    | ok p =>
      obtain ⟨hsound, hiff⟩ := scanStep_pattern_iff hs hstep t
      rw [hiff, ← ih hsound (pos + 1), scan_cons_of_step hstep]
      cases scan p.2 (pos + 1) t <;> simp

theorem parse_ok_iff {t : Text} : (∃ ts, parse t = .ok ts) ↔ Pattern true t :=
  scan_ok_iff (s := .between true) trivial 0 t

/-- A text behind which one continuation can be scanned leads to some tokens and to some state;
every continuation that can be scanned from there can be scanned behind the text. -/
theorem exists_seam {s : ScanState} {pos : Nat} {p x : Text}
    (h : ∃ ts, scan s pos (p ++ x) = .ok ts) :
    ∃ ts s' pos', (∃ us, scan s' pos' x = .ok us) ∧
      ∀ y us, scan s' pos' y = .ok us → scan s pos (p ++ y) = .ok (ts ++ us) := by
  induction p generalizing s pos with
  | nil => exact ⟨[], s, pos, h, fun y us hy => hy⟩
  | cons c p ih =>
    cases hstep : scanStep pos c s with
    | error e => simp [scan, hstep, bind, Except.bind] at h
    | ok q =>
      have hrest : ∃ ts, scan q.2 (pos + 1) (p ++ x) = .ok ts := by
        rw [List.cons_append, scan_cons_of_step hstep] at h
        cases hx : scan q.2 (pos + 1) (p ++ x) with
        | error e => simp [hx] at h
        | ok ts => exact ⟨ts, rfl⟩
      obtain ⟨ts, s', pos', hx, hall⟩ := ih hrest
      refine ⟨q.1 ++ ts, s', pos', hx, fun y us hy => ?_⟩
      rw [List.cons_append, scan_cons_of_step hstep, hall y us hy, List.append_assoc]
      rfl

end ManifestShell.Glob
