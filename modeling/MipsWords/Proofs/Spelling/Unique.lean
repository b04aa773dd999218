import MipsWords.Proofs.Spelling.Records

/-!
# A text spells one value

The first character of a spelling tells which kind of value it is. From there on
a string ends at its quote and an array or object at its bracket, where the text
is shorter by that bracket and the induction goes on. Only a number does not
tell where it ends: `1` is a spelling, and so is `12`. It ends before the first
character that no number has (`Follow`), and such a character, or the end of the
text, is what stands behind every value.
-/

namespace MipsWords.Json

open Reader

/-! ## Numbers -/

/-- A character that a number can have in it. -/
def isNumberChar (c : Char) : Bool :=
  isDigit c || c == '-' || c == '+' || c == '.' || c == 'e' || c == 'E'

/-- The text does not go on with what a number could go on with. -/
def Follow (rest : List Char) : Prop := rest.takeWhile isNumberChar = []

theorem follow_nil : Follow [] := rfl

theorem follow_cons {c : Char} {rest : List Char} (hc : isNumberChar c = false) :
    Follow (c :: rest) := List.takeWhile_cons_of_neg (by simp [hc])

theorem Blanks.follow {before rest : List Char} (hbefore : Blanks before) (hrest : Follow rest) :
    Follow (before ++ rest) := by
  cases before with
  | nil => exact hrest
  | cons c others =>
      have hspace : isSpace c = true := hbefore c (List.mem_cons_self ..)
      refine follow_cons ?_
      simp only [isSpace, Bool.or_eq_true, beq_iff_eq] at hspace
      rcases hspace with ((rfl | rfl) | rfl) | rfl <;> decide

theorem isNumberChar_of_digits {ds : List Char} (h : Digits ds) :
    ∀ c ∈ ds, isNumberChar c = true := fun c hc => by simp [isNumberChar, h.2 c hc]

theorem NumberLexeme.numberChars {lexeme : List Char} (h : NumberLexeme lexeme) :
    ∀ c ∈ lexeme, isNumberChar c = true := by
  cases h with
  | @intro sign whole fraction exponent hsign hwhole _ hfraction hexponent =>
      have hs : ∀ c ∈ sign, isNumberChar c = true := by
        rcases hsign with rfl | rfl <;> simp [isNumberChar]
      have hf : ∀ c ∈ fraction, isNumberChar c = true := by
        rcases hfraction with rfl | ⟨ds, hds, rfl⟩
        · simp
        · exact List.forall_mem_cons.mpr ⟨by simp [isNumberChar], isNumberChar_of_digits hds⟩
      have he : ∀ c ∈ exponent, isNumberChar c = true := by
        rcases hexponent with rfl | ⟨e, plus, ds, hletter, hplus, hds, rfl⟩
        · simp
        · refine List.forall_mem_cons.mpr ⟨?_, List.forall_mem_append.mpr ⟨?_, ?_⟩⟩
          · rcases hletter with rfl | rfl <;> simp [isNumberChar]
          · rcases hplus with rfl | rfl | rfl <;> simp [isNumberChar]
          · exact isNumberChar_of_digits hds
      simp only [List.forall_mem_append]
      exact ⟨⟨⟨hs, isNumberChar_of_digits hwhole⟩, hf⟩, he⟩

theorem NumberLexeme.takeWhile {lexeme rest : List Char} (h : NumberLexeme lexeme)
    (hrest : Follow rest) : (lexeme ++ rest).takeWhile isNumberChar = lexeme := by
  rw [List.takeWhile_append_of_pos h.numberChars, hrest, List.append_nil]

/-! ## Kinds of values -/

/-- What the first character of a value tells. -/
inductive Kind where
  | null | boolean | number | string | array | object
  deriving DecidableEq

/-- The kind of a value. -/
def Value.kind : Value → Kind
  | .null => .null
  | .boolean _ => .boolean
  | .number _ => .number
  | .string _ => .string
  | .array _ => .array
  | .object _ => .object

/-- The kind of the values that begin with a character. -/
def Kind.ofChar (c : Char) : Kind :=
  if c = 'n' then .null
  else if c = 't' then .boolean
  else if c = 'f' then .boolean
  else if c = '"' then .string
  else if c = '[' then .array
  else if c = '\x7b' then .object
  else .number

theorem kind_of_isDigit {c : Char} (h : isDigit c = true) : Kind.ofChar c = .number := by
  have hne (d : Char) (hd : isDigit d = false) : c ≠ d := by
    rintro rfl
    rw [h] at hd
    cases hd
  rw [Kind.ofChar, if_neg (hne _ rfl), if_neg (hne _ rfl), if_neg (hne _ rfl), if_neg (hne _ rfl),
    if_neg (hne _ rfl), if_neg (hne _ rfl)]

theorem NumberLexeme.kind {lexeme : List Char} (h : NumberLexeme lexeme) :
    ∃ c tail, lexeme = c :: tail ∧ Kind.ofChar c = .number := by
  cases h with
  | @intro sign whole fraction exponent hsign hwhole _ _ _ =>
      rcases hsign with rfl | rfl
      · obtain ⟨hne, hdigits⟩ := hwhole
        cases whole with
        | nil => exact absurd rfl hne
        | cons c digits =>
            exact ⟨c, _, rfl, kind_of_isDigit (hdigits c (List.mem_cons_self ..))⟩
      · exact ⟨_, _, rfl, by decide⟩

theorem Spelled.kind {v : Value} {text : List Char} (h : Spelled v text) :
    ∃ c tail, text = c :: tail ∧ Kind.ofChar c = v.kind := by
  cases h with
  | number hnumber => exact hnumber.kind
  | string hstring =>
      obtain ⟨inner, _, rfl⟩ := hstring
      exact ⟨_, _, rfl, rfl⟩
  | null | trueWord | falseWord | emptyArray _ | array _ | emptyObject _ | object _ =>
      exact ⟨_, _, rfl, rfl⟩

/-! ## Arrays and objects -/

theorem eq_of_read {α : Type} {p : Reader α} {s s' rest rest' : List Char} {a a' : α}
    (h : p s = .ok (a, rest)) (h' : p s' = .ok (a', rest')) (heq : s = s') :
    a = a' ∧ rest = rest' := by
  rw [heq, h'] at h
  cases h
  exact ⟨rfl, rfl⟩

/-- Blanks end at the first token. -/
theorem Blanks.rest_eq {before before' rest rest' : List Char} {c : Char} (hbefore : Blanks before)
    (hbefore' : Blanks before') (hc : isSpace c = false)
    (heq : before ++ c :: rest = before' ++ c :: rest') : rest = rest' :=
  (List.cons.inj (eq_of_read (peek_append hbefore hc) (peek_append hbefore' hc) heq).2).2

theorem SpelledString.unique {str str' : String} {text text' rest rest' : List Char}
    (h : SpelledString str text) (h' : SpelledString str' text')
    (heq : text ++ rest = text' ++ rest') : str = str' ∧ rest = rest' := by
  obtain ⟨inner, hinner, rfl⟩ := h
  obtain ⟨inner', hinner', rfl⟩ := h'
  exact eq_of_read (quoted_eq_ok.mpr ⟨inner, hinner, rfl⟩) (quoted_eq_ok.mpr ⟨inner', hinner', rfl⟩)
    (by simpa using heq)

theorem ArrayTail.follow {items : List Value} {tail : List Char} (h : ArrayTail false items tail)
    (rest : List Char) : Follow (tail ++ rest) := by
  cases h with
  | close hbefore =>
      rw [List.append_assoc]
      exact hbefore.follow (follow_cons rfl)
  | item hsep _ _ _ =>
      cases hsep with
      | comma hblank =>
          simp only [List.append_assoc]
          exact hblank.follow (follow_cons rfl)

theorem ObjectTail.follow {members : List (String × Value)} {tail : List Char}
    (h : ObjectTail false members tail) (rest : List Char) : Follow (tail ++ rest) := by
  cases h with
  | close hbefore =>
      rw [List.append_assoc]
      exact hbefore.follow (follow_cons rfl)
  | member hsep _ _ _ _ _ _ =>
      cases hsep with
      | comma hblank =>
          simp only [List.append_assoc]
          exact hblank.follow (follow_cons rfl)

/-- Texts shorter than `n` spell one value each, whatever follows them. -/
def UniqueBelow (n : Nat) : Prop :=
  ∀ ⦃v v' : Value⦄ ⦃text text' rest rest' : List Char⦄, text.length < n → Spelled v text →
    Spelled v' text' → Follow rest → Follow rest' → text ++ rest = text' ++ rest' →
    v = v' ∧ rest = rest'

/-- What the first token tells of the elements to come: none, if it is the closing bracket. -/
theorem ArrayTail.peek_eq {items : List Value} {first : Bool} {tail : List Char}
    (h : ArrayTail first items tail) (rest : List Char) :
    ∃ c mid, peek (tail ++ rest) = .ok (c, mid) ∧ (c = ']' ↔ items = []) := by
  cases h with
  | close hbefore =>
      rw [List.append_assoc]
      exact ⟨_, _, peek_append hbefore rfl, by simp⟩
  | item hsep hbefore hv _ =>
      simp only [List.append_assoc]
      cases hsep with
      | first =>
          obtain ⟨c, others, rfl, hspace, hc⟩ := hv.head
          exact ⟨_, _, peek_append hbefore hspace, by simpa using hc⟩
      | comma hblank =>
          rw [List.append_assoc]
          exact ⟨_, _, peek_append hblank rfl, by simp⟩

theorem ArrayTail.nil_iff {items items' : List Value} {first : Bool}
    {tail tail' rest rest' : List Char} (h : ArrayTail first items tail)
    (h' : ArrayTail first items' tail') (heq : tail ++ rest = tail' ++ rest') :
    items = [] ↔ items' = [] := by
  obtain ⟨c, mid, hpeek, hc⟩ := h.peek_eq rest
  obtain ⟨c', mid', hpeek', hc'⟩ := h'.peek_eq rest'
  rw [← hc, ← hc', (eq_of_read hpeek hpeek' heq).1]

/-- Two separators before elements end at the same place. -/
theorem Separator.unique {first : Bool} {sep sep' tail tail' : List Char} (h : Separator first sep)
    (h' : Separator first sep') (heq : sep ++ tail = sep' ++ tail') : tail = tail' := by
  cases h with
  | first =>
      cases h'
      exact heq
  | comma hblank =>
      cases h' with
      | comma hblank' =>
          simp only [List.append_assoc, List.singleton_append] at heq
          exact hblank.rest_eq hblank' rfl heq

theorem Spelled.unique_behind_blanks {n : Nat} (hn : UniqueBelow n) {v v' : Value}
    {before before' text text' rest rest' : List Char} (hlt : text.length < n)
    (hbefore : Blanks before) (hbefore' : Blanks before') (h : Spelled v text)
    (h' : Spelled v' text') (hrest : Follow rest) (hrest' : Follow rest')
    (heq : before ++ (text ++ rest) = before' ++ (text' ++ rest')) : v = v' ∧ rest = rest' := by
  obtain ⟨c, tail, rfl, hspace, -⟩ := h.head
  obtain ⟨c', tail', rfl, hspace', -⟩ := h'.head
  exact hn hlt h h' hrest hrest'
    (eq_of_read (peek_append hbefore hspace) (peek_append hbefore' hspace') heq).2

theorem ArrayTail.unique {n : Nat} (hn : UniqueBelow n) {items items' : List Value} {first : Bool}
    {tail tail' rest rest' : List Char} (hlt : tail.length < n) (h : ArrayTail first items tail)
    (h' : ArrayTail first items' tail') (heq : tail ++ rest = tail' ++ rest') :
    items = items' ∧ rest = rest' := by
  induction h generalizing items' tail' with
  | @close first before hbefore =>
      obtain rfl := (ArrayTail.nil_iff (.close hbefore) h' heq).mp rfl
      cases h' with
      | close hbefore' =>
          simp only [List.append_assoc, List.singleton_append] at heq
          exact ⟨rfl, hbefore.rest_eq hbefore' rfl heq⟩
  | @item first sep before text tail v others hsep hbefore hv htail ih =>
      cases h' with
      | close hbefore' =>
          have hnil := ArrayTail.nil_iff (.item hsep hbefore hv htail) (.close hbefore') heq
          cases hnil.mpr rfl
      | item hsep' hbefore' hv' htail' =>
          simp only [List.append_assoc] at heq
          simp only [List.length_append] at hlt
          obtain ⟨rfl, hothers⟩ := hv.unique_behind_blanks hn (by omega) hbefore hbefore' hv'
            (htail.follow rest) (htail'.follow rest') (hsep.unique hsep' heq)
          obtain ⟨rfl, rfl⟩ := ih (by omega) htail' hothers
          exact ⟨rfl, rfl⟩

theorem ObjectTail.unique {n : Nat} (hn : UniqueBelow n) {members members' : List (String × Value)}
    {first : Bool} {tail tail' rest rest' : List Char} (hlt : tail.length < n)
    (h : ObjectTail first members tail) (h' : ObjectTail first members' tail')
    (heq : tail ++ rest = tail' ++ rest') : members = members' ∧ rest = rest' := by
  induction h generalizing members' tail' with
  | @close first before hbefore =>
      rw [List.append_assoc] at heq
      have hclose : key? first (before ++ '\x7d' :: rest) = .ok (none, rest) := key?_close hbefore
      cases h' with
      | close hbefore' =>
          rw [List.append_assoc] at heq
          exact ⟨rfl, (eq_of_read hclose (key?_close hbefore') heq).2⟩
      | member hsep' hbefore' hkey' _ _ _ _ =>
          simp only [List.append_assoc] at heq
          cases (eq_of_read hclose (key?_key hsep' hbefore' hkey') heq).1
  | @member first sep before keyText between behind text tail key v others hsep hbefore hkey
      hbetween hbehind hv htail ih =>
      simp only [List.append_assoc, List.cons_append] at heq
      simp only [List.length_append, List.length_cons] at hlt
      cases h' with
      | close hbefore' =>
          rw [List.append_assoc] at heq
          cases (eq_of_read (key?_key hsep hbefore hkey) (key?_close hbefore') heq).1
      | member hsep' hbefore' hkey' hbetween' hbehind' hv' htail' =>
          simp only [List.append_assoc, List.cons_append] at heq
          obtain ⟨hkeys, hcolon⟩ := eq_of_read (key?_key hsep hbefore hkey)
            (key?_key hsep' hbefore' hkey') heq
          obtain rfl := Option.some.inj hkeys
          obtain ⟨rfl, hothers⟩ := hv.unique_behind_blanks hn (by omega) hbehind hbehind' hv'
            (htail.follow rest) (htail'.follow rest') (hbetween.rest_eq hbetween' rfl hcolon)
          obtain ⟨rfl, rfl⟩ := ih (by omega) htail' hothers
          exact ⟨rfl, rfl⟩

/-! ## Values and documents -/

theorem uniqueBelow (n : Nat) : UniqueBelow n := by
  induction n with
  | zero => exact fun _ _ _ _ _ _ hlt => absurd hlt (Nat.not_lt_zero _)
  | succ n ih =>
      intro v v' text text' rest rest' hlt h h' hrest hrest' heq
      have hkind : v.kind = v'.kind := by
        obtain ⟨c, tail, rfl, hc⟩ := h.kind
        obtain ⟨c', tail', rfl, hc'⟩ := h'.kind
        rw [← hc, ← hc', (List.cons.inj heq).1]
      cases v with
      | null =>
          cases v' with
          | null =>
              cases h
              cases h'
              exact ⟨rfl, List.append_cancel_left heq⟩
          | _ => cases hkind
      | boolean b =>
          cases v' with
          | boolean b' =>
              cases h with
              | trueWord =>
                  cases h' with
                  | trueWord => exact ⟨rfl, List.append_cancel_left heq⟩
                  | falseWord => cases heq
              | falseWord =>
                  cases h' with
                  | trueWord => cases heq
                  | falseWord => exact ⟨rfl, List.append_cancel_left heq⟩
          | _ => cases hkind
      | number lexeme =>
          cases v' with
          | number lexeme' =>
              cases h with
              | number hlexeme =>
                  cases h' with
                  | number hlexeme' =>
                      have hsame := congrArg (List.takeWhile isNumberChar) heq
                      rw [hlexeme.takeWhile hrest, hlexeme'.takeWhile hrest'] at hsame
                      obtain rfl := hsame
                      exact ⟨rfl, List.append_cancel_left heq⟩
          | _ => cases hkind
      | string str =>
          cases v' with
          | string str' =>
              cases h with
              | string hstr =>
                  cases h' with
                  | string hstr' =>
                      obtain ⟨rfl, rfl⟩ := hstr.unique hstr' heq
                      exact ⟨rfl, rfl⟩
          | _ => cases hkind
      | array items =>
          cases v' with
          | array items' =>
              obtain ⟨tail, htail, rfl⟩ := spelled_array_iff.mp h
              obtain ⟨tail', htail', rfl⟩ := spelled_array_iff.mp h'
              obtain ⟨rfl, rfl⟩ := htail.unique ih (Nat.lt_of_succ_lt_succ hlt) htail'
                (List.cons.inj heq).2
              exact ⟨rfl, rfl⟩
          | _ => cases hkind
      | object members =>
          cases v' with
          | object members' =>
              obtain ⟨tail, htail, rfl⟩ := spelled_object_iff.mp h
              obtain ⟨tail', htail', rfl⟩ := spelled_object_iff.mp h'
              obtain ⟨rfl, rfl⟩ := htail.unique ih (Nat.lt_of_succ_lt_succ hlt) htail'
                (List.cons.inj heq).2
              exact ⟨rfl, rfl⟩
          | _ => cases hkind

/-- A text is at most one document. -/
theorem SpelledDocument.unique {v v' : Value} {text : List Char} (h : SpelledDocument v text)
    (h' : SpelledDocument v' text) : v = v' := by
  obtain ⟨before, inner, after, hbefore, hv, hafter, rfl⟩ := h
  obtain ⟨before', inner', after', hbefore', hv', hafter', heq⟩ := h'
  rw [List.append_assoc, List.append_assoc] at heq
  have hfollow {cs : List Char} (hcs : Blanks cs) : Follow cs :=
    List.append_nil cs ▸ hcs.follow follow_nil
  exact (hv.unique_behind_blanks (uniqueBelow _) (Nat.lt_succ_self _) hbefore hbefore' hv'
    (hfollow hafter) (hfollow hafter') heq).1

end MipsWords.Json
