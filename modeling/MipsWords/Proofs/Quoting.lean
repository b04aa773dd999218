import MipsWords.Proofs.Numerals
import MipsWords.Text.Quoted

/-!
# Quoted text reads back

Between quotes a character stands for itself or is written with a backslash.
Which of these it is shows in the first character, and what is written with a
backslash ends by itself: after one letter, or at the closing brace behind a
number. So one character can be read off the front whatever follows
(`unescape?`), and since no written character begins with the quote in use, the
quote behind the last one is found as well. Quoted text is determined, and so is
the text behind it.

No control is shown as itself, and what is written for it is visible ASCII.
-/

namespace MipsWords

/-! ## Controls -/

/-- The control characters, the line feed among them. -/
def Text.isControl (c : Char) : Bool := c.toNat < 0x20 || (0x7f ≤ c.toNat && c.toNat ≤ 0x9f)

/-- Whether a text has a control character in it. -/
def Text.hasControl (s : String) : Bool := s.toList.any isControl

theorem Text.hasControl_append (s t : String) :
    hasControl (s ++ t) = (hasControl s || hasControl t) := by
  rw [hasControl, String.toList_append, List.any_append]
  rfl

theorem Text.isControl_of_bounds {c : Char} (h : 0x20 ≤ c.toNat ∧ c.toNat ≤ 0x7e) :
    isControl c = false := by
  simp only [isControl, Bool.or_eq_false_iff, Bool.and_eq_false_iff, decide_eq_false_iff_not]
  omega

/-- The first two ranges of characters that are not shown hold all controls. -/
theorem Text.isUnshown_of_isControl {c : Char} (h : isControl c = true) : isUnshown c = true := by
  simp only [isControl, Bool.or_eq_true, Bool.and_eq_true, decide_eq_true_eq] at h
  refine List.any_eq_true.mpr ?_
  rcases h with hlow | hhigh
  · exact ⟨(0x0, 0x1f), List.mem_cons_self, by simp; omega⟩
  · exact ⟨(0x7f, 0xa0), List.mem_cons_of_mem _ List.mem_cons_self, by simp; omega⟩

theorem Numeral.any_isControl_padded {b : Nat} (hb2 : 2 ≤ b) (hb : b ≤ 16) (width n : Nat) :
    (padded b width n).any Text.isControl = false := by
  refine List.any_eq_false.mpr fun c hc => ?_
  have := toNat_bounds_of_mem_padded hb2 hb hc
  rw [Text.isControl_of_bounds (by omega)]
  decide

namespace Quoted

open Text (hasControl isControl isUnshown)

variable {quote : Char}

/-- A quoted character is written in visible characters, if the quote is one. -/
theorem any_isControl_escaped (hquote : isControl quote = false) (c : Char) :
    (escaped quote c).any isControl = false := by
  rw [escaped]
  split_ifs with _ _ _ _ _ _ hunshown
  · rfl
  · rfl
  · rfl
  · rfl
  · rfl
  · rw [List.any_cons, List.any_cons, hquote]
    rfl
  · rw [List.any_append, List.any_append, Numeral.any_isControl_padded (by decide) (by decide)]
    rfl
  · have hc : isControl c = false := by
      by_contra hcontrol
      exact hunshown (Text.isUnshown_of_isControl (by simpa using hcontrol))
    rw [List.any_cons, hc]
    rfl

/-! ## Reading one character back -/

/-- What a letter behind a backslash stands for. -/
def unnamed (letter : Char) : Char :=
  if letter = '0' then '\x00'
  else if letter = 't' then '\t'
  else if letter = 'r' then '\r'
  else if letter = 'n' then '\n'
  else letter

/-- Takes one character, written with a backslash or not, off the front of a text. -/
def unescape? : List Char → Option (Char × List Char)
  | [] => none
  | '\\' :: 'u' :: '\x7b' :: rest =>
    (Numeral.read? 16 (rest.takeWhile (· ≠ '\x7d'))).map fun n =>
      (Char.ofNat n, (rest.dropWhile (· ≠ '\x7d')).drop 1)
  | '\\' :: letter :: rest => some (unnamed letter, rest)
  | c :: rest => some (c, rest)

theorem unescape?_number (c : Char) (rest : List Char) :
    unescape? ('\\' :: 'u' :: '\x7b' :: (Numeral.padded 16 1 c.toNat ++ '\x7d' :: rest)) =
      some (c, rest) := by
  have hdigits : ∀ d ∈ Numeral.padded 16 1 c.toNat, decide (d ≠ '\x7d') = true := by
    intro d hd
    have := Numeral.toNat_bounds_of_mem_padded (by decide) (by decide) hd
    refine decide_eq_true ?_
    rintro rfl
    exact absurd this (by decide)
  rw [unescape?, List.takeWhile_append_of_pos hdigits, List.dropWhile_append_of_pos hdigits,
    List.takeWhile_cons_of_neg (by decide), List.dropWhile_cons_of_neg (by decide), List.append_nil,
    Numeral.read?_padded (by decide) (by decide), Option.map_some, Char.ofNat_toNat]
  rfl

/-- A written character reads back, whatever stands behind it. -/
theorem unescape?_escaped (hquote : quote = '\'' ∨ quote = '"') (c : Char) (rest : List Char) :
    unescape? (escaped quote c ++ rest) = some (c, rest) := by
  rw [escaped]
  split_ifs with h0 ht hr hn hslash hc hunshown
  · rw [h0]; rfl
  · rw [ht]; rfl
  · rw [hr]; rfl
  · rw [hn]; rfl
  · rw [hslash]; rfl
  · rw [hc]
    rcases hquote with rfl | rfl <;> rfl
  · simpa using unescape?_number c rest
  · exact unescape?.eq_4 c rest (fun _ heq => absurd heq hslash) (fun _ _ heq => absurd heq hslash)

/-! ## What quoted text determines -/

theorem escaped_append_inj (hquote : quote = '\'' ∨ quote = '"') {c d : Char} {xs ys : List Char}
    (h : escaped quote c ++ xs = escaped quote d ++ ys) : c = d ∧ xs = ys := by
  have hread := unescape?_escaped hquote c xs
  rw [h, unescape?_escaped hquote] at hread
  obtain ⟨rfl, rfl⟩ := Prod.mk.inj (Option.some_inj.mp hread)
  exact ⟨rfl, rfl⟩

/-- No character is written so that it could be taken for the closing quote. -/
theorem escaped_eq_cons (hquote : quote = '\'' ∨ quote = '"') (c : Char) :
    ∃ d tail, escaped quote c = d :: tail ∧ d ≠ quote := by
  have hslash : '\\' ≠ quote := by
    rcases hquote with rfl | rfl <;> decide
  rw [escaped]
  split_ifs with _ _ _ _ _ hc
  case neg => exact ⟨c, [], rfl, hc⟩
  all_goals exact ⟨'\\', _, rfl, hslash⟩

/-- The closing quote is the first one that stands where a character could begin. -/
theorem flatMap_escaped_inj (hquote : quote = '\'' ∨ quote = '"') {cs ds xs ys : List Char}
    (h : cs.flatMap (escaped quote) ++ quote :: xs = ds.flatMap (escaped quote) ++ quote :: ys) :
    cs = ds ∧ xs = ys := by
  induction cs generalizing ds with
  | nil =>
      cases ds with
      | nil => exact ⟨rfl, (List.cons.inj h).2⟩
      | cons d rest =>
          obtain ⟨e, tail, heq, hne⟩ := escaped_eq_cons hquote d
          rw [List.flatMap_cons, heq] at h
          exact absurd (List.cons.inj h).1.symm hne
  | cons c others ih =>
      cases ds with
      | nil =>
          obtain ⟨e, tail, heq, hne⟩ := escaped_eq_cons hquote c
          rw [List.flatMap_cons, heq] at h
          exact absurd (List.cons.inj h).1 hne
      | cons d rest =>
          rw [List.flatMap_cons, List.flatMap_cons, List.append_assoc, List.append_assoc] at h
          obtain ⟨rfl, hrest⟩ := escaped_append_inj hquote h
          obtain ⟨rfl, rfl⟩ := ih hrest
          exact ⟨rfl, rfl⟩

theorem string_append_inj {s t : String} {xs ys : List Char}
    (h : (string s).toList ++ xs = (string t).toList ++ ys) : s = t ∧ xs = ys := by
  rw [string, string, String.toList_ofList, String.toList_ofList, List.cons_append,
    List.cons_append, List.append_assoc, List.append_assoc] at h
  obtain ⟨hchars, hrest⟩ := flatMap_escaped_inj (.inr rfl) (List.cons.inj h).2
  exact ⟨String.toList_injective hchars, hrest⟩

theorem character_append_inj {c d : Char} {xs ys : List Char}
    (h : (character c).toList ++ xs = (character d).toList ++ ys) : c = d ∧ xs = ys := by
  rw [character, character, String.toList_ofList, String.toList_ofList, List.cons_append,
    List.cons_append, List.append_assoc, List.append_assoc] at h
  obtain ⟨hchar, hrest⟩ := escaped_append_inj (.inl rfl) (List.cons.inj h).2
  exact ⟨hchar, (List.cons.inj hrest).2⟩

theorem hasControl_string (s : String) : hasControl (string s) = false := by
  have hchars : (s.toList.flatMap (escaped '"')).any isControl = false := by
    rw [List.any_flatMap, List.any_eq_false]
    intro c _
    rw [any_isControl_escaped rfl]
    decide
  rw [hasControl, string, String.toList_ofList, List.any_cons, List.any_append, hchars]
  rfl

theorem hasControl_character (c : Char) : hasControl (character c) = false := by
  rw [hasControl, character, String.toList_ofList, List.any_cons, List.any_append,
    any_isControl_escaped rfl]
  rfl

end Quoted

end MipsWords
