import Mathlib
import MipsWords.Json.Grammar
import MipsWords.Proofs.Numerals

/-!
# Strings are read as they are spelled

What the readers of a string accept is what the grammar derives, with whatever
text behind it: first one escape, then the characters up to the closing quote.
Both directions follow the text character by character; only an escape by number
takes a second look, because its digits are counted in bytes. Digits are ASCII,
so among digits bytes and characters are the same.

Every string has a spelling, so nothing that a file should say is out of reach.
-/

namespace MipsWords

namespace Json

open Reader

variable {α β : Type}

/-! ## Units of UTF-16 -/

theorem length_le_utf8Len (cs : List Char) : cs.length ≤ String.utf8Len cs := by
  induction cs with
  | nil => exact Nat.le_refl _
  | cons c rest ih =>
      have hpos := c.utf8Size_pos
      rw [String.utf8Len_cons, List.length_cons]
      omega

theorem utf8Len_of_ascii {cs : List Char} (h : ∀ c ∈ cs, c.toNat < 128) :
    String.utf8Len cs = cs.length := by
  induction cs with
  | nil => rfl
  | cons c rest ih =>
      have hc : c.utf8Size = 1 :=
        Char.utf8Size_eq_one_iff.mpr (Nat.le_of_lt_succ (h c (List.mem_cons_self ..)))
      rw [String.utf8Len_cons, List.length_cons, hc,
        ih fun d hd => h d (List.mem_cons_of_mem _ hd)]

theorem utf8Len_digits {n m : Nat} {cs : List Char} (h : Numeral.readFrom? 16 n cs = some m) :
    String.utf8Len cs = cs.length := by
  refine utf8Len_of_ascii fun c hc => ?_
  obtain ⟨d, hd⟩ := Option.isSome_iff_exists.mp (Numeral.isSome_digit?_of_readFrom? h c hc)
  exact Nat.lt_of_le_of_lt (Numeral.toNat_bounds_of_digit? hd).2 (by decide)

theorem utf16Unit_eq_ok {s rest : List Char} {unit : Nat} :
    utf16Unit s = .ok (unit, rest) ↔ ∃ digits, SpelledUnit unit digits ∧ s = digits ++ rest := by
  constructor
  · intro h
    simp only [utf16Unit] at h
    split at h
    · cases h
    · next hsize =>
        split at h
        · next hread =>
            cases h
            rw [String.utf8ByteSize_ofList, utf8Len_digits hread] at hsize
            have hle := List.length_take_le 4 s
            exact ⟨s.take 4, ⟨by omega, hread⟩, (List.take_append_drop 4 s).symm⟩
        · cases h
  · rintro ⟨digits, ⟨hlength, hread⟩, rfl⟩
    have htake : (digits ++ rest).take 4 = digits := List.take_left' hlength
    have hdrop : (digits ++ rest).drop 4 = rest := List.drop_left' hlength
    have hsize := length_le_utf8Len digits
    simp only [utf16Unit, htake, hdrop, String.utf8ByteSize_ofList]
    rw [if_neg (by omega), hread]

/-! ## Characters -/

theorem pure_eq_ok {a b : α} {s rest : List Char} :
    (pure a : Reader α) s = .ok (b, rest) ↔ b = a ∧ rest = s := by
  show Except.ok (a, s) = _ ↔ _
  rw [Except.ok.injEq, Prod.mk.injEq, eq_comm, eq_comm (a := s)]

theorem next_eq_ok {s rest : List Char} {c : Char} : next s = .ok (c, rest) ↔ s = c :: rest := by
  cases s with
  | nil => simp [next]
  | cons d tail => simp [next]

theorem bind_of_ok {p : Reader α} {f : α → Reader β} {s mid : List Char} {a : α}
    (h : p s = .ok (a, mid)) : (p >>= f) s = f a mid := by
  show (p s >>= fun got => f got.1 got.2) = _
  rw [h]
  rfl

theorem map_eq_ok {p : Reader α} {f : α → β} {s rest : List Char} {b : β} :
    (f <$> p) s = .ok (b, rest) ↔ ∃ a, p s = .ok (a, rest) ∧ b = f a := by
  show (p >>= fun a => pure (f a)) s = _ ↔ _
  rw [bind_eq_ok]
  constructor
  · rintro ⟨a, mid, hp, hpure⟩
    obtain ⟨rfl, rfl⟩ := pure_eq_ok.mp hpure
    exact ⟨a, hp, rfl⟩
  · rintro ⟨a, hp, rfl⟩
    exact ⟨a, rest, hp, rfl⟩

theorem expect_eq_ok {c : Char} {s rest : List Char} {u : Unit} :
    expect c s = .ok (u, rest) ↔ s = c :: rest := by
  constructor
  · intro h
    obtain ⟨d, mid, hnext, hthen⟩ := bind_eq_ok.1 h
    obtain rfl := next_eq_ok.mp hnext
    split at hthen
    · next heq => cases hthen; rw [heq]
    · cases hthen
  · rintro rfl
    refine bind_eq_ok.2 ⟨c, rest, rfl, ?_⟩
    rw [if_pos rfl]
    rfl

theorem numberedChar_eq_ok {s rest : List Char} {c : Char} :
    numberedChar s = .ok (c, rest) ↔
      ∃ digits, SpelledChar c ('\\' :: 'u' :: digits) ∧ s = digits ++ rest := by
  constructor
  · intro h
    obtain ⟨unit, mid, hunit, hrest⟩ := bind_eq_ok.1 h
    obtain ⟨digits, hdigits, rfl⟩ := utf16Unit_eq_ok.mp hunit
    split at hrest
    · cases hrest
    · next hlow =>
        split at hrest
        · next hhigh =>
            obtain ⟨_, _, hslash, hletter⟩ := bind_eq_ok.1 hrest
            obtain ⟨_, _, hletter, hpair⟩ := bind_eq_ok.1 hletter
            obtain ⟨low, _, hpair, hlast⟩ := bind_eq_ok.1 hpair
            obtain ⟨es, hes, rfl⟩ := utf16Unit_eq_ok.mp hpair
            obtain rfl := expect_eq_ok.mp hletter
            obtain rfl := expect_eq_ok.mp hslash
            split at hlast
            · next hsecond =>
                obtain ⟨hc, hend⟩ := pure_eq_ok.mp hlast
                rw [hc, hend]
                exact ⟨_, .pair hdigits hes hhigh hsecond, by simp⟩
            · cases hlast
        · next hhigh =>
            obtain ⟨rfl, rfl⟩ := pure_eq_ok.mp hrest
            exact ⟨digits, .unit hdigits (by simpa using hhigh) (by simpa using hlow), rfl⟩
  · rintro ⟨text, hspelled, rfl⟩
    cases hspelled with
    | short hmem => exact absurd hmem (by simp [shortEscapes])
    | @unit u _ hunit hhigh hlow =>
        refine bind_eq_ok.2 ⟨u, rest, utf16Unit_eq_ok.mpr ⟨text, hunit, rfl⟩, ?_⟩
        simp only [hlow, hhigh, Bool.false_eq_true, if_false]
        rfl
    | @pair high low ds es hhigh hlow hishigh hislow =>
        have hnotlow : isLowSurrogate high = false := by
          simp [isHighSurrogate, isLowSurrogate] at hishigh ⊢
          omega
        show numberedChar (ds ++ '\\' :: 'u' :: es ++ rest) = _
        rw [List.append_assoc]
        refine bind_eq_ok.2 ⟨high, _, utf16Unit_eq_ok.mpr ⟨ds, hhigh, rfl⟩, ?_⟩
        rw [if_neg (by simp [hnotlow]), if_pos hishigh]
        refine bind_eq_ok.2 ⟨(), _, expect_eq_ok.mpr rfl, ?_⟩
        refine bind_eq_ok.2 ⟨(), _, expect_eq_ok.mpr rfl, ?_⟩
        refine bind_eq_ok.2 ⟨low, rest, utf16Unit_eq_ok.mpr ⟨es, hlow, rfl⟩, ?_⟩
        rw [if_pos hislow]
        rfl

theorem escapedChar_eq_ok {s rest : List Char} {c : Char} :
    escapedChar s = .ok (c, rest) ↔ ∃ text, SpelledChar c ('\\' :: text) ∧ s = text ++ rest := by
  constructor
  · intro h
    obtain ⟨letter, mid, hnext, hrest⟩ := bind_eq_ok.1 h
    obtain rfl := next_eq_ok.mp hnext
    split at hrest
    case h_9 =>
      obtain ⟨digits, hspelled, rfl⟩ := numberedChar_eq_ok.mp hrest
      exact ⟨'u' :: digits, hspelled, rfl⟩
    case h_10 => cases hrest
    all_goals
      cases hrest
      exact ⟨[_], .short (by decide), rfl⟩
  · rintro ⟨text, hspelled, rfl⟩
    cases hspelled with
    | plain _ hslash _ => exact absurd rfl hslash
    | @short _ letter hmem =>
        simp only [shortEscapes, List.mem_cons, Prod.mk.injEq, List.not_mem_nil, or_false] at hmem
        rcases hmem with ⟨rfl, rfl⟩ | ⟨rfl, rfl⟩ | ⟨rfl, rfl⟩ | ⟨rfl, rfl⟩ | ⟨rfl, rfl⟩ |
          ⟨rfl, rfl⟩ | ⟨rfl, rfl⟩ | ⟨rfl, rfl⟩ <;> rfl
    | @unit u digits hunit hhigh hlow =>
        exact numberedChar_eq_ok.mpr ⟨digits, .unit hunit hhigh hlow, rfl⟩
    | @pair high low ds es hhigh hlow hishigh hislow =>
        exact numberedChar_eq_ok.mpr ⟨_, .pair hhigh hlow hishigh hislow, rfl⟩

/-! ## Strings -/

theorem chars_escape {s rest : List Char} {c : Char} (h : escapedChar s = .ok (c, rest)) :
    chars ('\\' :: s) = (chars rest).map fun (cs, rest) => (c :: cs, rest) := by
  rw [chars]
  split
  · next hfault => rw [h] at hfault; cases hfault
  · next hok =>
      rw [h] at hok
      cases hok
      rfl

theorem chars_escape_error {s : List Char} {fault : Fault} (h : escapedChar s = .error fault) :
    chars ('\\' :: s) = .error fault := by
  rw [chars]
  split
  · next hfault =>
      rw [h] at hfault
      cases hfault
      rfl
  · next hok => rw [h] at hok; cases hok

theorem chars_plain {c : Char} (s : List Char) (hquote : c ≠ '"') (hslash : c ≠ '\\') :
    chars (c :: s) = if c.toNat < 0x20 then .error .malformed
      else (chars s).map fun (cs, rest) => (c :: cs, rest) :=
  chars.eq_4 c s hquote hslash

theorem map_cons_eq_ok {r : Except Fault (List Char × List Char)} {c : Char} {cs rest : List Char} :
    (r.map fun (cs, rest) => (c :: cs, rest)) = .ok (cs, rest) ↔
      ∃ tail, r = .ok (tail, rest) ∧ cs = c :: tail := by
  cases r with
  | error fault => simp [Except.map]
  | ok got => simp [Except.map, Prod.ext_iff, and_comm, eq_comm]

/-- Behind a backslash a string goes on with an escape. -/
theorem chars_escape_eq_ok {s cs rest : List Char} :
    chars ('\\' :: s) = .ok (cs, rest) ↔
      ∃ c mid tail, escapedChar s = .ok (c, mid) ∧ chars mid = .ok (tail, rest) ∧ cs = c :: tail := by
  cases hescaped : escapedChar s with
  | error fault => simp [chars_escape_error hescaped]
  | ok got =>
      rw [chars_escape hescaped, map_cons_eq_ok]
      constructor
      · rintro ⟨tail, htail, rfl⟩
        exact ⟨got.1, got.2, tail, rfl, htail, rfl⟩
      · rintro ⟨c, mid, tail, hgot, htail, rfl⟩
        cases hgot
        exact ⟨tail, htail, rfl⟩

/-- A character stands for itself, or a backslash begins its spelling. -/
theorem SpelledChar.plain_or_escape {c : Char} {text : List Char} (h : SpelledChar c text) :
    (text = [c] ∧ c ≠ '"' ∧ c ≠ '\\' ∧ 0x20 ≤ c.toNat) ∨ ∃ tail, text = '\\' :: tail := by
  cases h with
  | plain hquote hslash hlow => exact .inl ⟨rfl, hquote, hslash, hlow⟩
  | short _ => exact .inr ⟨_, rfl⟩
  | unit _ _ _ => exact .inr ⟨_, rfl⟩
  | pair _ _ _ _ => exact .inr ⟨_, rfl⟩

theorem chars_eq_ok {s cs rest : List Char} :
    chars s = .ok (cs, rest) ↔ ∃ inner, SpelledChars cs inner ∧ s = inner ++ '"' :: rest := by
  constructor
  · intro h
    fun_induction chars s generalizing cs with
    | case1 => cases h
    | case2 tail => cases h; exact ⟨[], .nil, rfl⟩
    | case3 tail fault hfault => cases h
    | case4 tail c mid hc ih =>
        obtain ⟨others, hmid, rfl⟩ := map_cons_eq_ok.mp h
        obtain ⟨text, hspelled, rfl⟩ := escapedChar_eq_ok.mp hc
        obtain ⟨inner, hinner, rfl⟩ := ih hmid
        exact ⟨_, .cons hspelled hinner, by simp⟩
    | case5 => cases h
    | case6 c tail hquote hslash hlow ih =>
        obtain ⟨others, htail, rfl⟩ := map_cons_eq_ok.mp h
        obtain ⟨inner, hinner, rfl⟩ := ih htail
        exact ⟨_, .cons (.plain hquote hslash (Nat.not_lt.mp hlow)) hinner, rfl⟩
  · rintro ⟨inner, hspelled, rfl⟩
    induction hspelled with
    | nil => rw [List.nil_append, chars]
    | @cons c cs text others hc _ ih =>
        rw [List.append_assoc]
        rcases hc.plain_or_escape with ⟨rfl, hquote, hslash, hlow⟩ | ⟨tail, rfl⟩
        · show chars (c :: (others ++ '"' :: rest)) = _
          rw [chars_plain _ hquote hslash, if_neg (Nat.not_lt.mpr hlow)]
          exact map_cons_eq_ok.mpr ⟨cs, ih, rfl⟩
        · exact chars_escape_eq_ok.mpr
            ⟨c, _, cs, escapedChar_eq_ok.mpr ⟨tail, hc, rfl⟩, ih, rfl⟩

theorem quoted_eq_ok {s rest : List Char} {str : String} :
    quoted s = .ok (str, rest) ↔
      ∃ inner, SpelledChars str.toList inner ∧ s = inner ++ '"' :: rest := by
  rw [← chars_eq_ok, quoted]
  cases chars s with
  | error fault => simp [Except.map]
  | ok got =>
      simp only [Except.map, Except.ok.injEq, Prod.mk.injEq]
      rw [← String.toList_inj, String.toList_ofList, Prod.ext_iff]

/-! ## Every string has a spelling -/

theorem exists_spelledChar (c : Char) : ∃ text, SpelledChar c text := by
  by_cases hlow : 0x20 ≤ c.toNat
  · by_cases hquote : c = '"'
    · exact ⟨['\\', '"'], .short (by rw [hquote]; decide)⟩
    · by_cases hslash : c = '\\'
      · exact ⟨['\\', '\\'], .short (by rw [hslash]; decide)⟩
      · exact ⟨_, .plain hquote hslash hlow⟩
  · -- A control character is written by its number, which is below the surrogates.
    have hlength : (Numeral.padded 16 4 c.toNat).length = 4 := by
      have : ∀ n < 0x20, (Numeral.padded 16 4 n).length = 4 := by decide
      exact this _ (Nat.not_le.mp hlow)
    have hread := Numeral.readFrom?_padded (b := 16) (by decide) (by decide) 4 c.toNat
    have hspelled : SpelledChar (Char.ofNat c.toNat) _ := .unit ⟨hlength, hread⟩
      (by simp [isHighSurrogate]; omega) (by simp [isLowSurrogate]; omega)
    rw [Char.ofNat_toNat] at hspelled
    exact ⟨_, hspelled⟩

theorem exists_spelledString (s : String) : ∃ text, SpelledString s text := by
  suffices h : ∀ cs : List Char, ∃ inner, SpelledChars cs inner by
    obtain ⟨inner, hinner⟩ := h s.toList
    exact ⟨_, inner, hinner, rfl⟩
  intro cs
  induction cs with
  | nil => exact ⟨[], .nil⟩
  | cons c rest ih =>
      obtain ⟨text, htext⟩ := exists_spelledChar c
      obtain ⟨inner, hinner⟩ := ih
      exact ⟨_, .cons htext hinner⟩

end Json

end MipsWords
