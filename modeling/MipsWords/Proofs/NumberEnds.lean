import Mathlib
import MipsWords.Proofs.ReaderLaws
import MipsWords.Proofs.Spelling.Shapes

/-!
# Where a number ends

A number is the one value without a last character of its own: it goes on as
long as the text has characters for it. So what is read as a number is a lexeme
of the grammar (`number_sound`), and it is settled which number it is as soon as
something else stands behind it (`settled_number`). Only at the end of a text it
is not.
-/

namespace MipsWords.Json.Reader

variable {α β : Type}

/-! ## Numbers in parts -/

theorem front?_bind {f : Option Char → Reader α} (s : List Char) :
    (front? >>= f) s = f s.head? s := rfl

theorem skip_bind_eq_ok {p : Reader α} {s rest : List Char} {a : α} :
    (skip >>= fun _ => p) s = .ok (a, rest) ↔ ∃ c tail, s = c :: tail ∧ p tail = .ok (a, rest) := by
  cases s with
  | nil => exact ⟨nofun, nofun⟩
  | cons c tail =>
      rw [skip_bind]
      simp

/-- An exponent behind its letter. -/
def exponent : Reader (Option Int) := do
  let sign ← front?
  if sign = some '+' ∨ sign = some '-' then skip
  let value := (Numeral.readFrom? 10 0 (← someDigits)).getD 0
  return some (if sign = some '-' then -value else value)

theorem exponentPart?_of_letter {c : Char} (hc : c = 'e' ∨ c = 'E') (tail : List Char) :
    exponentPart? (c :: tail) = exponent tail := by
  rcases hc with rfl | rfl <;> rfl

theorem exponentPart?_of_head {s : List Char} (he : s.head? ≠ some 'e')
    (he' : s.head? ≠ some 'E') : exponentPart? s = .ok (none, s) := by
  rw [exponentPart?, front?_bind]
  show _ = (pure none : Reader (Option Int)) s
  simp

theorem exponentPart?_eq : exponentPart? = front? >>= fun c? =>
    if c? = some 'e' ∨ c? = some 'E' then skip >>= fun _ => exponent else pure none := by
  funext s
  rw [front?_bind]
  split
  · next he =>
      match s with
      | c :: tail => exact exponentPart?_of_letter (by simpa using he) tail
  · next he => exact exponentPart?_of_head (not_or.mp he).1 (not_or.mp he).2

/-- The parts of a number behind its sign, and what is made of them. -/
def parts (judge : List Char → Option (List Char) → Option Int → Reader Found) : Reader Found := do
  judge (← integerPart) (← fractionPart?) (← exponentPart?)

/-- When its parts are read, nothing more of the text decides which number it is. -/
def Judges (judge : List Char → Option (List Char) → Option Int → Reader Found) : Prop :=
  ∀ digits fraction? exponent?, (∃ found, judge digits fraction? exponent? = pure found) ∨
    judge digits fraction? exponent? = fail .malformed

theorem exists_judge : ∃ judge : Option Char → List Char → Option (List Char) → Option Int →
    Reader Found, (∀ sign?, Judges (judge sign?)) ∧ number = front? >>= fun sign? =>
      if sign? == some '-' then skip >>= fun _ => parts (judge sign?) else parts (judge sign?) := by
  refine ⟨_, ?_, rfl⟩
  intro sign? digits fraction? exponent?
  dsimp only
  split
  · exact .inl ⟨_, rfl⟩
  · split
    · exact .inl ⟨_, rfl⟩
    · exact .inr rfl

/-! ## What settles a number -/

/-- What the reader finds stays when the text goes on behind something that was left. Nothing it
finds is against a schema. -/
structure Settled (p : Reader α) : Prop where
  suffix : ∀ {s rest a}, p s = .ok (a, rest) → rest <:+ s
  extend : ∀ {s rest a}, p s = .ok (a, rest) → rest ≠ [] →
    ∀ more, p (s ++ more) = .ok (a, rest ++ more)
  silent : ∀ {s complaint}, p s ≠ .error (.schema complaint)

theorem Settled.pure (a : α) : Settled (Pure.pure a : Reader α) where
  suffix h := by
    cases h
    exact List.suffix_rfl
  extend h _ more := by
    cases h
    rfl
  silent := nofun

theorem settled_malformed : Settled (fail .malformed : Reader α) where
  suffix := nofun
  extend := nofun
  silent := nofun

theorem Settled.bind {p : Reader α} {f : α → Reader β} (hp : Settled p)
    (hf : ∀ a, Settled (f a)) : Settled (p >>= f) where
  suffix h := by
    obtain ⟨a, mid, hfirst, hthen⟩ := bind_eq_ok.1 h
    exact ((hf a).suffix hthen).trans (hp.suffix hfirst)
  extend h hne more := by
    obtain ⟨a, mid, hfirst, hthen⟩ := bind_eq_ok.1 h
    have hmid : mid ≠ [] := by
      rintro rfl
      exact hne (List.suffix_nil.mp ((hf a).suffix hthen))
    rw [bind_of_ok (hp.extend hfirst hmid more), (hf a).extend hthen hne more]
  silent h := by
    rcases bind_eq_error.mp h with hfirst | ⟨a, mid, -, hthen⟩
    · exact hp.silent hfirst
    · exact (hf a).silent hthen

theorem settled_next : Settled next where
  suffix h := by
    obtain rfl := next_eq_ok.mp h
    exact List.suffix_cons _ _
  extend h _ more := by
    obtain rfl := next_eq_ok.mp h
    rfl
  silent {s _} := by cases s <;> nofun

theorem settled_skip : Settled skip := settled_next.bind fun _ => .pure ()

theorem settled_front? : Settled front? where
  suffix h := by
    cases h
    exact List.suffix_rfl
  extend {s _ _} h hne more := by
    cases h
    show Except.ok ((s ++ more).head?, s ++ more) = _
    rw [List.head?_append_of_ne_nil s hne]
  silent := nofun

theorem settled_digits : Settled digits where
  suffix h := by
    cases h
    exact List.dropWhile_suffix _
  extend {s _ _} h hne more := by
    cases h
    have hdrop : (s ++ more).dropWhile isDigit = s.dropWhile isDigit ++ more :=
      List.dropWhile_append.trans (if_neg (by simpa using hne))
    have htake : (s ++ more).takeWhile isDigit ++ (s.dropWhile isDigit ++ more) =
        s.takeWhile isDigit ++ (s.dropWhile isDigit ++ more) := by
      rw [← hdrop, List.takeWhile_append_dropWhile, hdrop, ← List.append_assoc,
        List.takeWhile_append_dropWhile]
    show Except.ok ((s ++ more).takeWhile isDigit, (s ++ more).dropWhile isDigit) = _
    rw [hdrop, List.append_cancel_right htake]
  silent := nofun

theorem settled_someDigits : Settled someDigits := by
  refine settled_next.bind fun c => ?_
  split
  · exact settled_digits.bind fun _ => .pure _
  · exact settled_malformed

theorem settled_integerPart : Settled integerPart := by
  refine settled_someDigits.bind fun run => ?_
  split
  · exact settled_malformed
  · exact .pure _

theorem settled_fractionPart? : Settled fractionPart? := by
  refine settled_front?.bind fun c? => ?_
  split
  · exact settled_skip.bind fun _ => settled_someDigits.bind fun _ => .pure _
  · exact .pure _

theorem settled_exponent : Settled exponent := by
  refine settled_front?.bind fun sign => ?_
  dsimp only
  split
  · exact settled_skip.bind fun _ => settled_someDigits.bind fun _ => .pure _
  · exact settled_someDigits.bind fun _ => .pure _

theorem settled_exponentPart? : Settled exponentPart? := by
  rw [exponentPart?_eq]
  refine settled_front?.bind fun c? => ?_
  split
  · exact settled_skip.bind fun _ => settled_exponent
  · exact .pure _

theorem settled_parts {judge : List Char → Option (List Char) → Option Int → Reader Found}
    (hjudge : Judges judge) : Settled (parts judge) := by
  refine settled_integerPart.bind fun whole => settled_fractionPart?.bind fun fraction? => ?_
  refine settled_exponentPart?.bind fun exponent? => ?_
  rcases hjudge whole fraction? exponent? with ⟨found, h⟩ | h
  · exact h ▸ .pure found
  · exact h ▸ settled_malformed

theorem settled_number : Settled number := by
  obtain ⟨judge, hjudge, hnumber⟩ := exists_judge
  rw [hnumber]
  refine settled_front?.bind fun sign? => ?_
  split
  · exact settled_skip.bind fun _ => settled_parts (hjudge sign?)
  · exact settled_parts (hjudge sign?)

/-! ## Lexemes -/

theorem digits_eq_ok {s rest cs : List Char} (h : digits s = .ok (cs, rest)) :
    (∀ c ∈ cs, isDigit c = true) ∧ s = cs ++ rest := by
  cases h
  exact ⟨fun c hc => List.mem_takeWhile_imp hc, List.takeWhile_append_dropWhile.symm⟩

theorem someDigits_sound {s rest cs : List Char} (h : someDigits s = .ok (cs, rest)) :
    Digits cs ∧ s = cs ++ rest := by
  obtain ⟨c, mid, hnext, hothers⟩ := bind_eq_ok.1 h
  obtain rfl := next_eq_ok.mp hnext
  split at hothers
  · next hc =>
      obtain ⟨others, _, hread, hpure⟩ := bind_eq_ok.1 hothers
      obtain ⟨rfl, rfl⟩ := pure_eq_ok.mp hpure
      obtain ⟨hdigits, rfl⟩ := digits_eq_ok hread
      exact ⟨⟨List.cons_ne_nil _ _, List.forall_mem_cons.mpr ⟨hc, hdigits⟩⟩, rfl⟩
  · cases hothers

theorem integerPart_sound {s rest whole : List Char} (h : integerPart s = .ok (whole, rest)) :
    Digits whole ∧ (whole = ['0'] ∨ whole.head? ≠ some '0') ∧ s = whole ++ rest := by
  obtain ⟨run, mid, hrun, hwhole⟩ := bind_eq_ok.1 h
  obtain ⟨hdigits, rfl⟩ := someDigits_sound hrun
  split at hwhole
  · cases hwhole
  · next hzero =>
      obtain ⟨rfl, rfl⟩ := pure_eq_ok.mp hwhole
      refine ⟨hdigits, ?_, rfl⟩
      match whole, hzero with
      | [], _ => exact .inr nofun
      | [c], _ => exact (em (c = '0')).imp (by rintro rfl; rfl) (by simp)
      | c :: d :: others, hzero =>
          right
          intro hc
          exact hzero d others (by rw [Option.some.inj hc])

/-- The texts of a fraction, or none. -/
def FractionText (text : List Char) : Prop := text = [] ∨ ∃ ds, Digits ds ∧ text = '.' :: ds

/-- The texts of an exponent, or none. -/
def ExponentText (text : List Char) : Prop :=
  text = [] ∨ ∃ e plus ds, (e = 'e' ∨ e = 'E') ∧ (plus = [] ∨ plus = ['+'] ∨ plus = ['-']) ∧
    Digits ds ∧ text = e :: (plus ++ ds)

theorem fractionPart?_sound {s rest : List Char} {fraction? : Option (List Char)}
    (h : fractionPart? s = .ok (fraction?, rest)) :
    ∃ text, FractionText text ∧ s = text ++ rest := by
  rw [fractionPart?, front?_bind] at h
  split at h
  · next hpoint =>
      obtain ⟨c, tail, rfl, hread⟩ := skip_bind_eq_ok.mp h
      obtain rfl : c = '.' := Option.some.inj hpoint
      obtain ⟨ds, _, hread, hpure⟩ := bind_eq_ok.1 hread
      obtain ⟨-, rfl⟩ := pure_eq_ok.mp hpure
      obtain ⟨hds, rfl⟩ := someDigits_sound hread
      exact ⟨'.' :: ds, .inr ⟨ds, hds, rfl⟩, rfl⟩
  · obtain ⟨-, rfl⟩ := pure_eq_ok.mp h
    exact ⟨[], .inl rfl, rfl⟩

theorem exponent_sound {s rest : List Char} {exponent? : Option Int}
    (h : exponent s = .ok (exponent?, rest)) :
    ∃ plus ds, (plus = [] ∨ plus = ['+'] ∨ plus = ['-']) ∧ Digits ds ∧
      s = plus ++ (ds ++ rest) := by
  rw [exponent, front?_bind] at h
  dsimp only at h
  split at h
  · next hsign =>
      obtain ⟨c, tail, rfl, hread⟩ := skip_bind_eq_ok.mp h
      obtain ⟨ds, _, hread, hpure⟩ := bind_eq_ok.1 hread
      obtain ⟨-, rfl⟩ := pure_eq_ok.mp hpure
      obtain ⟨hds, rfl⟩ := someDigits_sound hread
      exact ⟨[c], ds, .inr (by simpa using hsign), hds, rfl⟩
  · obtain ⟨ds, _, hread, hpure⟩ := bind_eq_ok.1 h
    obtain ⟨-, rfl⟩ := pure_eq_ok.mp hpure
    obtain ⟨hds, rfl⟩ := someDigits_sound hread
    exact ⟨[], ds, .inl rfl, hds, rfl⟩

theorem exponentPart?_sound {s rest : List Char} {exponent? : Option Int}
    (h : exponentPart? s = .ok (exponent?, rest)) :
    ∃ text, ExponentText text ∧ s = text ++ rest := by
  rw [exponentPart?_eq, front?_bind] at h
  split at h
  · next he =>
      obtain ⟨c, tail, rfl, hread⟩ := skip_bind_eq_ok.mp h
      obtain ⟨plus, ds, hplus, hds, rfl⟩ := exponent_sound hread
      exact ⟨_, .inr ⟨c, plus, ds, by simpa using he, hplus, hds, rfl⟩, by simp⟩
  · obtain ⟨-, rfl⟩ := pure_eq_ok.mp h
    exact ⟨[], .inl rfl, rfl⟩

theorem parts_sound {judge : List Char → Option (List Char) → Option Int → Reader Found}
    (hjudge : Judges judge) {s rest : List Char} {found : Found}
    (h : parts judge s = .ok (found, rest)) :
    ∃ whole fraction exponent, Digits whole ∧ (whole = ['0'] ∨ whole.head? ≠ some '0') ∧
      FractionText fraction ∧ ExponentText exponent ∧
      s = whole ++ (fraction ++ (exponent ++ rest)) := by
  obtain ⟨digits, _, hwhole, hfraction⟩ := bind_eq_ok.1 h
  obtain ⟨fraction?, _, hfraction, hexponent⟩ := bind_eq_ok.1 hfraction
  obtain ⟨exponent?, _, hexponent, hfound⟩ := bind_eq_ok.1 hexponent
  obtain ⟨hdigits, hzero, rfl⟩ := integerPart_sound hwhole
  obtain ⟨fraction, hf, rfl⟩ := fractionPart?_sound hfraction
  obtain ⟨exponent, he, rfl⟩ := exponentPart?_sound hexponent
  rcases hjudge digits fraction? exponent? with ⟨found, hpure⟩ | hfail
  · rw [hpure] at hfound
    obtain ⟨-, rfl⟩ := pure_eq_ok.mp hfound
    exact ⟨digits, fraction, exponent, hdigits, hzero, hf, he, rfl⟩
  · rw [hfail] at hfound
    cases hfound

/-- What is read as a number is one. -/
theorem number_sound {s rest : List Char} {found : Found} (h : number s = .ok (found, rest)) :
    ∃ lexeme, NumberLexeme lexeme ∧ s = lexeme ++ rest := by
  obtain ⟨judge, hjudge, hnumber⟩ := exists_judge
  rw [hnumber, front?_bind] at h
  split at h
  · next hsign =>
      obtain ⟨c, tail, rfl, hread⟩ := skip_bind_eq_ok.mp h
      obtain rfl : c = '-' := by simpa using hsign
      obtain ⟨whole, fraction, exponent, hdigits, hzero, hfraction, hexponent, rfl⟩ :=
        parts_sound (hjudge _) hread
      exact ⟨_, .intro (.inr rfl) hdigits hzero hfraction hexponent, by simp⟩
  · obtain ⟨whole, fraction, exponent, hdigits, hzero, hfraction, hexponent, rfl⟩ :=
      parts_sound (hjudge _) h
    exact ⟨_, .intro (.inl rfl) hdigits hzero hfraction hexponent, by simp⟩

end MipsWords.Json.Reader
