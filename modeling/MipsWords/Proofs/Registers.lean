import Mathlib
import MipsWords.Register

/-!
# Names and codes of registers

Searching the list of registers for a code and searching it for a name are the
same search: the list holds every register, and neither a code nor a name comes
twice, so what is found is the one register that has it (`find?_eq_some_iff`).
The codes in use are those below 32 without the two that are kept back.

A name is read with one sign in front of it or with none. No name begins with
the sign, so taking it off twice is never right, and what is left after taking
it off once is compared as it stands.
-/

namespace MipsWords.Register

theorem mem_all (r : Register) : r ∈ all := by
  cases r <;> decide

theorem code_injective : Function.Injective code := by
  have hnodup : (all.map code).Nodup := by decide
  exact fun r s h => List.inj_on_of_nodup_map hnodup (mem_all r) (mem_all s) h

theorem name_injective : Function.Injective name := by
  have hnodup : (all.map name).Nodup := by decide +kernel
  exact fun r s h => List.inj_on_of_nodup_map hnodup (mem_all r) (mem_all s) h

/-- The list is searched for the one register with a key. -/
theorem find?_eq_some_iff {α : Type} [DecidableEq α] {key : Register → α}
    (hkey : Function.Injective key) {a : α} {r : Register} :
    all.find? (fun s => decide (key s = a)) = some r ↔ key r = a := by
  constructor
  · intro h
    simpa using List.find?_some h
  · rintro rfl
    cases hfind : all.find? fun s => decide (key s = key r) with
    | none => exact absurd (decide_eq_true rfl) (List.find?_eq_none.mp hfind r (mem_all r))
    | some s =>
        have hs : key s = key r := by simpa using List.find?_some hfind
        rw [hkey hs]

/-! ## Codes -/

theorem ofCode_eq_ok_iff {code : Nat} {r : Register} : ofCode code = .ok r ↔ r.code = code := by
  rw [← find?_eq_some_iff code_injective, ofCode]
  cases all.find? (·.code = code) <;> simp

theorem ofCode_eq_error {code : Nat} (h : ∀ r : Register, r.code ≠ code) :
    ofCode code = .error (.registerCode code) := by
  have hfind : all.find? (·.code = code) = none :=
    List.find?_eq_none.mpr fun r _ hr => h r (by simpa using hr)
  rw [ofCode, hfind]

/-- The codes that no register has although they fit a register field. -/
def isReserved (code : Nat) : Bool := code == 26 || code == 27

theorem isReserved_code (r : Register) : isReserved r.code = false := by
  cases r <;> rfl

theorem code_lt (r : Register) : r.code < 32 := by
  cases r <;> decide

theorem exists_code {code : Nat} (hlt : code < 32) (h : isReserved code = false) :
    ∃ r : Register, r.code = code := by
  have hall : ∀ c < 32, isReserved c = false → ∃ r ∈ all, r.code = c := by decide
  obtain ⟨r, _, hr⟩ := hall code hlt h
  exact ⟨r, hr⟩

theorem exists_code_iff {code : Nat} :
    (∃ r : Register, r.code = code) ↔ code < 32 ∧ code ≠ 26 ∧ code ≠ 27 := by
  have hfree : isReserved code = false ↔ code ≠ 26 ∧ code ≠ 27 := by simp [isReserved]
  rw [← hfree]
  constructor
  · rintro ⟨r, rfl⟩
    exact ⟨r.code_lt, r.isReserved_code⟩
  · rintro ⟨hlt, h⟩
    exact exists_code hlt h

theorem render_eq_ok_iff {code : Nat} {s : String} :
    render code = .ok s ↔ ∃ r : Register, r.code = code ∧ r.text = s := by
  simp only [← ofCode_eq_ok_iff, render]
  cases ofCode code <;> simp [Except.map]

theorem render_code (r : Register) : render r.code = .ok r.text :=
  render_eq_ok_iff.mpr ⟨r, rfl, rfl⟩

theorem render_eq_error {code : Nat} (h : ∀ r : Register, r.code ≠ code) :
    render code = .error (.registerCode code) := by
  rw [render, ofCode_eq_error h]
  rfl

theorem render_reserved {code : Nat} (h : isReserved code = true) :
    render code = .error (.registerCode code) := by
  refine render_eq_error fun r hr => ?_
  rw [← hr, isReserved_code] at h
  cases h

/-! ## Names -/

/-- A name is made of lower-case letters and digits. -/
theorem isLower_or_isDigit_of_mem_name (r : Register) :
    ∀ c ∈ r.name.toList, c.isLower = true ∨ c.isDigit = true := by
  have hall : r.name.toList.all (fun c => c.isLower || c.isDigit) = true := by
    cases r <;> decide
  simpa using hall

theorem toList_text (r : Register) : r.text.toList = '$' :: r.name.toList := by
  rw [text, String.toList_append]
  rfl

theorem bare_text (r : Register) : bare r.text = r.name := by
  rw [bare, toList_text]
  exact String.ofList_toList

theorem bare_name (r : Register) : bare r.name = r.name := by
  rw [bare]
  split
  · next rest heq =>
      have hsign := r.isLower_or_isDigit_of_mem_name '$' (heq ▸ List.mem_cons_self)
      exact absurd hsign (by decide)
  · rfl

/-- Without the sign there is a name left of two texts only, the name and the name with the sign. -/
theorem bare_eq_name_iff {s : String} {r : Register} :
    bare s = r.name ↔ s = r.name ∨ s = r.text := by
  constructor
  · intro h
    rw [bare] at h
    split at h
    · next rest heq =>
        refine .inr (String.toList_injective ?_)
        rw [heq, toList_text, ← h, String.toList_ofList]
    · exact .inl h
  · rintro (rfl | rfl)
    · exact r.bare_name
    · exact r.bare_text

theorem parse_eq_ok_iff {s : String} {r : Register} :
    parse s = .ok r ↔ s = r.name ∨ s = r.text := by
  rw [← bare_eq_name_iff, eq_comm (a := bare s), ← find?_eq_some_iff name_injective, parse]
  cases all.find? (·.name = bare s) <;> simp

theorem parse_eq_error {s : String} (h : ∀ r : Register, s ≠ r.name ∧ s ≠ r.text) :
    parse s = .error (.registerName s) := by
  have hfind : all.find? (·.name = bare s) = none := by
    refine List.find?_eq_none.mpr fun r _ hr => ?_
    exact not_or.mpr (h r) (bare_eq_name_iff.mp (of_decide_eq_true hr).symm)
  rw [parse, hfind]

/-- The text of a register reads back as the register. -/
theorem parse_text (r : Register) : parse r.text = .ok r := parse_eq_ok_iff.mpr (.inr rfl)

/-- Of the characters in front of the digits a register has the sign alone in its text. -/
theorem not_mem_text {c : Char} (hc : c.toNat < 48) (hsign : c ≠ '$') (r : Register) :
    c ∉ r.text.toList := by
  rw [toList_text, List.mem_cons, not_or]
  refine ⟨hsign, fun hmem => ?_⟩
  rcases r.isLower_or_isDigit_of_mem_name c hmem with hlower | hdigit
  · simp only [Char.isLower, Bool.and_eq_true, decide_eq_true_eq] at hlower
    have hbound : 97 ≤ c.toNat := hlower.1
    omega
  · simp only [Char.isDigit, Bool.and_eq_true, decide_eq_true_eq] at hdigit
    have hbound : 48 ≤ c.toNat := hdigit.1
    omega

/-- Names and codes correspond. A register is read from its name and from its name with one sign in
front, both of lower-case letters and digits but for the sign, and from no other text, which is
reported as it was given. The codes below 32 but 26 and 27 belong to one register each; such a code
is written as the name with the sign, and the register of the code is read from that text with its
sign and without. Every other code is reported. So of any text that is read, the code of the
register is written as its one name with the sign, which is read as the same register. -/
theorem names_match_codes :
    (∀ (s : String) (r : Register), parse s = .ok r ↔ s = r.name ∨ s = "$" ++ r.name) ∧
    (∀ r : Register, ∀ c ∈ r.name.toList, c.isLower = true ∨ c.isDigit = true) ∧
    (∀ s : String, (∀ r : Register, s ≠ r.name ∧ s ≠ "$" ++ r.name) →
      parse s = .error (.registerName s)) ∧
    (∀ code : Nat, (∃ s, render code = .ok s) ↔ code < 32 ∧ code ≠ 26 ∧ code ≠ 27) ∧
    (∀ (code : Nat) (s : String), render code = .ok s →
      ∃ (r : Register) (name : String), s = "$" ++ name ∧ (∀ r' : Register, r'.code = code ↔ r' = r) ∧
        parse s = .ok r ∧ parse name = .ok r) ∧
    (∀ code : Nat, ¬(code < 32 ∧ code ≠ 26 ∧ code ≠ 27) →
      render code = .error (.registerCode code)) ∧
    ∀ (s : String) (r : Register), parse s = .ok r →
      render r.code = .ok ("$" ++ r.name) ∧ parse ("$" ++ r.name) = parse s := by
  refine ⟨fun s r => parse_eq_ok_iff, isLower_or_isDigit_of_mem_name, fun s => parse_eq_error,
    fun code => ?_, fun code s h => ?_, fun code h => ?_, fun s r h => ?_⟩
  · simp only [render_eq_ok_iff, ← exists_code_iff]
    exact ⟨fun ⟨_, r, hr, _⟩ => ⟨r, hr⟩, fun ⟨r, hr⟩ => ⟨_, r, hr, rfl⟩⟩
  · obtain ⟨r, rfl, rfl⟩ := render_eq_ok_iff.mp h
    refine ⟨r, r.name, rfl, fun r' => code_injective.eq_iff, r.parse_text, ?_⟩
    exact parse_eq_ok_iff.mpr (.inl rfl)
  · exact render_eq_error fun r hr => h (exists_code_iff.mp ⟨r, hr⟩)
  · exact ⟨r.render_code, r.parse_text.trans h.symm⟩

/-- A name with one sign, with two and in upper case; one of the two codes that are kept back, and
those on both sides of them. -/
theorem names_match_codes_sign :
    parse "$gp" = .ok gp ∧ render gp.code = .ok "$gp" ∧
      parse "$$gp" = .error (.registerName "$$gp") ∧ parse "GP" = .error (.registerName "GP") ∧
      render 27 = .error (.registerCode 27) ∧
      ∃ (r : Register) (name : String), "$t9" = "$" ++ name ∧ r.code = 25 ∧ parse name = .ok r := by
  obtain ⟨hread, -, hunread, -, hwritten, hunwritten, hback⟩ := names_match_codes
  have hgp : parse "$gp" = .ok gp := (hread _ _).mpr (.inr rfl)
  have hdouble : ∀ r : Register, "$$gp" ≠ r.name ∧ "$$gp" ≠ "$" ++ r.name := by
    intro r
    cases r <;> decide
  have hupper : ∀ r : Register, "GP" ≠ r.name ∧ "GP" ≠ "$" ++ r.name := by
    intro r
    cases r <;> decide
  obtain ⟨r, name, htext, hcode, -, hname⟩ := hwritten 25 "$t9" rfl
  exact ⟨hgp, (hback _ _ hgp).1, hunread _ hdouble, hunread _ hupper, hunwritten 27 (by decide),
    r, name, htext, (hcode r).mpr rfl, hname⟩

end MipsWords.Register
