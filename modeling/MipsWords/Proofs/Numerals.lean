import Mathlib
import MipsWords.Text.Numeral

/-!
# A numeral reads back as its number

Writing goes through `Nat.toDigits`, which puts the last digit behind the
numeral of the quotient, and reading takes digits from the front. The two meet
in `readFrom?_append`: reading a text in two parts hands the number of the first
part on to the second, so the induction over the quotient ends with one digit.

Zeros in front are read as nothing, which is why a least width is harmless.
-/

namespace MipsWords.Numeral

variable {b : Nat}

/-! ## Digits -/

theorem digit?_digitChar {d : Nat} (hb : b ≤ 16) (hd : d < b) :
    digit? b d.digitChar = some d := by
  have hd16 : d < 16 := by omega
  interval_cases d <;> exact if_pos (decide_eq_true hd)

theorem digit?_zero (hb : 0 < b) : digit? b '0' = some 0 := if_pos (by simpa using hb)

theorem digit?_lt {c : Char} {d : Nat} (h : digit? b c = some d) : d < b := by
  rw [digit?] at h
  simpa using (Option.filter_eq_some_iff.mp h).2

/-- Every digit lies between `0` and `f`. -/
theorem toNat_bounds_of_digit? {c : Char} {d : Nat} (h : digit? b c = some d) :
    48 ≤ c.toNat ∧ c.toNat ≤ 102 := by
  rw [digit?] at h
  have hvalue := (Option.filter_eq_some_iff.mp h).1
  split at hvalue
  · next hc => exact ⟨hc.1, Nat.le_trans hc.2 (by decide)⟩
  · split at hvalue
    · next hc => exact ⟨Nat.le_trans (by decide) hc.1, hc.2⟩
    · split at hvalue
      · next hc => exact ⟨Nat.le_trans (by decide) hc.1, Nat.le_trans hc.2 (by decide)⟩
      · cases hvalue

/-- Up to base ten a digit is written in one way. -/
theorem toNat_of_digit? {c : Char} {d : Nat} (hb : b ≤ 10) (h : digit? b c = some d) :
    c.toNat = d + 48 := by
  have hd := digit?_lt h
  rw [digit?] at h
  have hvalue := (Option.filter_eq_some_iff.mp h).1
  split at hvalue
  · next hc =>
      have hlow : 48 ≤ c.toNat := hc.1
      have heq : c.toNat - 48 = d := Option.some.inj hvalue
      omega
  · split at hvalue
    · have heq : c.toNat - 97 + 10 = d := Option.some.inj hvalue
      omega
    · split at hvalue
      · have heq : c.toNat - 65 + 10 = d := Option.some.inj hvalue
        omega
      · cases hvalue

/-! ## Reading in parts -/

theorem readFrom?_append {n : Nat} {xs ys : List Char} :
    readFrom? b n (xs ++ ys) = (readFrom? b n xs).bind fun m => readFrom? b m ys := by
  induction xs generalizing n with
  | nil => rfl
  | cons c rest ih =>
      rw [List.cons_append, readFrom?, readFrom?]
      cases digit? b c with
      | none => rfl
      | some d => exact ih

/-- What is read behind a number stands behind it. -/
theorem readFrom?_eq_map (n : Nat) (cs : List Char) :
    readFrom? b n cs = (readFrom? b 0 cs).map (n * b ^ cs.length + ·) := by
  induction cs generalizing n with
  | nil => rw [readFrom?, readFrom?, Option.map_some, List.length_nil, Nat.pow_zero, Nat.mul_one,
      Nat.add_zero]
  | cons c rest ih =>
      rw [readFrom?, readFrom?]
      cases digit? b c with
      | none => rfl
      | some d =>
          rw [Option.bind_some, Option.bind_some, ih (n * b + d), ih (0 * b + d), Option.map_map]
          congr 1
          funext m
          rw [Function.comp_apply, List.length_cons]
          ring

theorem readFrom?_zeros (hb : 0 < b) (k : Nat) (ds : List Char) :
    readFrom? b 0 (List.replicate k '0' ++ ds) = readFrom? b 0 ds := by
  induction k with
  | zero => rfl
  | succ k ih =>
      rw [List.replicate_succ, List.cons_append, readFrom?, digit?_zero hb]
      simpa using ih

/-- Only a run of digits is read. -/
theorem isSome_digit?_of_readFrom? {n m : Nat} {cs : List Char}
    (h : readFrom? b n cs = some m) : ∀ c ∈ cs, (digit? b c).isSome := by
  induction cs generalizing n with
  | nil => intro c hc; cases hc
  | cons x rest ih =>
      rw [readFrom?] at h
      obtain ⟨d, hd, h⟩ := Option.bind_eq_some_iff.mp h
      intro c hc
      rcases List.mem_cons.mp hc with rfl | hc
      · rw [hd]; rfl
      · exact ih h c hc

/-- Digits behind a number multiply it by the base and add less than that. -/
theorem readFrom?_lt {n m : Nat} {cs : List Char} (h : readFrom? b n cs = some m) :
    m < (n + 1) * b ^ cs.length := by
  induction cs generalizing n with
  | nil => cases h; simp
  | cons c rest ih =>
      rw [readFrom?] at h
      obtain ⟨d, hd, h⟩ := Option.bind_eq_some_iff.mp h
      have hd := digit?_lt hd
      have hstep : n * b + d + 1 ≤ (n + 1) * b := by rw [Nat.add_mul]; omega
      calc m < (n * b + d + 1) * b ^ rest.length := ih h
        _ ≤ (n + 1) * b * b ^ rest.length := Nat.mul_le_mul_right _ hstep
        _ = (n + 1) * b ^ (c :: rest).length := by
          rw [List.length_cons, Nat.pow_succ', Nat.mul_assoc]

/-- Digits of one length are told apart by their number. -/
theorem readFrom?_injective (hb : b ≤ 10) {n n' m : Nat} {cs cs' : List Char}
    (hlength : cs.length = cs'.length) (h : readFrom? b n cs = some m)
    (h' : readFrom? b n' cs' = some m) : n = n' ∧ cs = cs' := by
  induction cs generalizing n n' cs' with
  | nil =>
      obtain rfl := List.length_eq_zero_iff.mp hlength.symm
      cases h
      cases h'
      exact ⟨rfl, rfl⟩
  | cons c rest ih =>
      match cs', hlength with
      | c' :: rest', hlength =>
          rw [readFrom?] at h h'
          obtain ⟨d, hd, h⟩ := Option.bind_eq_some_iff.mp h
          obtain ⟨d', hd', h'⟩ := Option.bind_eq_some_iff.mp h'
          obtain ⟨hn, rfl⟩ := ih (Nat.succ.inj hlength) h h'
          have hlt := digit?_lt hd
          have hlt' := digit?_lt hd'
          have hdigit : d = d' := by
            rw [Nat.mul_comm n, Nat.mul_comm n'] at hn
            rw [← Nat.mod_eq_of_lt hlt, ← Nat.mod_eq_of_lt hlt', ← Nat.mul_add_mod b n d, hn,
              Nat.mul_add_mod]
          subst hdigit
          have hchar : c = c' := by
            rw [← Char.toNat_inj, toNat_of_digit? hb hd, toNat_of_digit? hb hd']
          have hfront : n * b = n' * b := by omega
          exact ⟨Nat.eq_of_mul_eq_mul_right (by omega) hfront, by rw [hchar]⟩

/-! ## Reading back -/

theorem readFrom?_toDigits (hb2 : 2 ≤ b) (hb : b ≤ 16) (n : Nat) :
    readFrom? b 0 (Nat.toDigits b n) = some n := by
  induction n using Nat.strong_induction_on with
  | h n ih =>
      rw [Nat.toDigits_eq_if (by omega)]
      split
      · next hn => rw [readFrom?, digit?_digitChar hb hn]; simp [readFrom?]
      · next hn =>
          have hlt : n / b < n := Nat.div_lt_self (by omega) (by omega)
          have hmod : n % b < b := Nat.mod_lt n (by omega)
          rw [readFrom?_append, ih _ hlt, Option.bind_some, readFrom?, digit?_digitChar hb hmod,
            Option.bind_some, readFrom?, Nat.div_add_mod']

theorem readFrom?_padded (hb2 : 2 ≤ b) (hb : b ≤ 16) (width n : Nat) :
    readFrom? b 0 (padded b width n) = some n := by
  rw [padded, readFrom?_zeros (by omega), readFrom?_toDigits hb2 hb]

/-- Numerals with one least width are told apart by their number. -/
theorem padded_injective (hb2 : 2 ≤ b) (hb : b ≤ 16) {width n m : Nat}
    (h : padded b width n = padded b width m) : n = m := by
  have hread := readFrom?_padded hb2 hb width n
  rw [h, readFrom?_padded hb2 hb] at hread
  exact (Option.some_inj.mp hread).symm

/-- A numeral is made of characters between `0` and `f`. -/
theorem toNat_bounds_of_mem_padded (hb2 : 2 ≤ b) (hb : b ≤ 16) {width n : Nat} {c : Char}
    (h : c ∈ padded b width n) : 48 ≤ c.toNat ∧ c.toNat ≤ 102 := by
  have hsome := isSome_digit?_of_readFrom? (readFrom?_padded hb2 hb width n) c h
  obtain ⟨d, hd⟩ := Option.isSome_iff_exists.mp hsome
  exact toNat_bounds_of_digit? hd

theorem padded_ne_nil (width n : Nat) : padded b width n ≠ [] := by
  simp [padded, Nat.toDigits_ne_nil]

/-- A numeral in any base up to sixteen reads back as its number, whatever its least width. -/
theorem read?_padded (hb2 : 2 ≤ b) (hb : b ≤ 16) (width n : Nat) :
    read? b (padded b width n) = some n := by
  rw [read?, List.isEmpty_eq_false_iff.mpr (padded_ne_nil width n)]
  exact readFrom?_padded hb2 hb width n

/-- What stands in front of the digits, such as a blank, a comma or a minus sign, is no digit in any
base. -/
theorem not_mem_padded {c : Char} (hb2 : 2 ≤ b) (hb : b ≤ 16) (hc : c.toNat < 48) (width n : Nat) :
    c ∉ padded b width n := by
  intro hmem
  have hlow := (toNat_bounds_of_mem_padded hb2 hb hmem).1
  omega

/-- So a numeral goes on up to a blank. -/
theorem ne_blank_of_mem_padded (hb2 : 2 ≤ b) (hb : b ≤ 16) {width n : Nat} :
    ∀ c ∈ padded b width n, decide (c ≠ ' ') = true := by
  intro c hc
  refine decide_eq_true ?_
  rintro rfl
  exact not_mem_padded hb2 hb (by decide) width n hc

end MipsWords.Numeral
