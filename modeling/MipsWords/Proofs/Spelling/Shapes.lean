import Mathlib
import MipsWords.Json.Shape
import MipsWords.Proofs.Spelling.Strings

/-!
# Shapes are read as they are spelled

A reader of a shape accepts the spellings of certain values, and which values
these are is a relation between values and what the reader makes of them
(`Accepts`). The relation is the specification: with it a reader is used without
a look at how it reads.

The grammar derives an object from its first member on and ends with a brace;
the readers see a comma or a brace and then go on. `ObjectTail` and `ArrayTail`
are the derivations cut that way, so that the loops over members and elements
are followed one step for one constructor. No shape admits a number, and every
other value tells by itself where it ends, so what follows a value never
matters.
-/

namespace MipsWords.Json

open Reader

variable {α β : Type}

/-! ## Tokens -/

theorem blanks_nil : Blanks [] := by simp [Blanks]

theorem Blanks.append {before after : List Char} (hbefore : Blanks before) (hafter : Blanks after) :
    Blanks (before ++ after) := List.forall_mem_append.mpr ⟨hbefore, hafter⟩

theorem peek_eq_ok {s rest : List Char} {c : Char} :
    peek s = .ok (c, rest) ↔
      ∃ before tail, Blanks before ∧ isSpace c = false ∧ rest = c :: tail ∧ s = before ++ rest := by
  constructor
  · intro h
    have hsplit := List.takeWhile_append_dropWhile (p := isSpace) (l := s)
    rw [peek] at h
    split at h
    · cases h
    · next tail hdrop =>
        cases h
        have hc : ¬isSpace c = true := by
          have := List.head_dropWhile_not isSpace (l := s) (by rw [hdrop]; simp)
          simpa [hdrop] using this
        refine ⟨s.takeWhile isSpace, tail, ?_, by simpa using hc, rfl, by rw [← hdrop, hsplit]⟩
        exact fun d hd => List.mem_takeWhile_imp hd
  · rintro ⟨before, tail, hbefore, hc, rfl, rfl⟩
    rw [peek, List.dropWhile_append_of_pos hbefore, List.dropWhile_cons_of_neg (by simp [hc])]

/-- The next token behind blanks. -/
theorem peek_append {before tail : List Char} {c : Char} (hbefore : Blanks before)
    (hc : isSpace c = false) : peek (before ++ c :: tail) = .ok (c, c :: tail) :=
  peek_eq_ok.mpr ⟨before, tail, hbefore, hc, rfl, rfl⟩

theorem token_eq_ok {c : Char} (hc : isSpace c = false) {s rest : List Char} {u : Unit} :
    token c s = .ok (u, rest) ↔ ∃ before, Blanks before ∧ s = before ++ c :: rest := by
  constructor
  · intro h
    obtain ⟨d, mid, hpeek, hskip⟩ := bind_eq_ok.1 h
    obtain ⟨before, tail, hbefore, -, rfl, rfl⟩ := peek_eq_ok.mp hpeek
    split at hskip
    · next heq => cases hskip; exact ⟨before, hbefore, by rw [heq]⟩
    · cases hskip
  · rintro ⟨before, hbefore, rfl⟩
    refine bind_eq_ok.2 ⟨c, c :: rest, peek_append hbefore hc, ?_⟩
    rw [if_pos rfl]
    rfl

theorem word_eq_ok {cs s rest : List Char} {u : Unit} :
    word cs s = .ok (u, rest) ↔ s = cs ++ rest := by
  induction cs generalizing s with
  | nil => exact ⟨fun h => (pure_eq_ok.mp h).2.symm, fun h => pure_eq_ok.mpr ⟨rfl, h.symm⟩⟩
  | cons c others ih =>
      constructor
      · intro h
        obtain ⟨_, mid, hfirst, hothers⟩ := bind_eq_ok.1 h
        rw [expect_eq_ok.mp hfirst, ih.mp hothers]
        rfl
      · rintro rfl
        exact bind_eq_ok.2 ⟨(), others ++ rest, expect_eq_ok.mpr rfl, ih.mpr rfl⟩

theorem document_eq_ok {p : Reader α} {text : String} {a : α} :
    document p text = .ok a ↔ ∃ rest, p text.toList = .ok (a, rest) ∧ Blanks rest := by
  rw [document]
  cases p text.toList with
  | error fault => simp [bind, Except.bind]
  | ok got =>
      obtain ⟨b, mid⟩ := got
      show (if mid.all isSpace then Except.ok b else .error Fault.malformed) = _ ↔ _
      constructor
      · intro h
        split at h
        · next hall => cases h; exact ⟨mid, rfl, List.all_eq_true.mp hall⟩
        · cases h
      · rintro ⟨rest, hgot, hblank⟩
        cases hgot
        exact if_pos (List.all_eq_true.mpr hblank)

/-! ## Values of one token -/

/-- The reader takes the spellings of the values that `denotes` relates to its result, blanks in
front, and nothing else. -/
structure Accepts (p : Reader α) (denotes : α → Value → Prop) : Prop where
  sound : ∀ ⦃s rest : List Char⦄ ⦃a : α⦄, p s = .ok (a, rest) →
    ∃ v before text, Blanks before ∧ Spelled v text ∧ denotes a v ∧ s = before ++ (text ++ rest)
  complete : ∀ ⦃before text rest : List Char⦄ ⦃a : α⦄ ⦃v : Value⦄, Blanks before →
    Spelled v text → denotes a v → p (before ++ (text ++ rest)) = .ok (a, rest)

theorem Accepts.congr {p : Reader α} {denotes denotes' : α → Value → Prop} (h : Accepts p denotes)
    (heq : ∀ a v, denotes a v ↔ denotes' a v) : Accepts p denotes' := by
  have hsame : denotes = denotes' := funext fun a => funext fun v => propext (heq a v)
  exact hsame ▸ h

/-- What is read can be put into a record. -/
theorem Accepts.put {p : Reader α} {denotes : α → Value → Prop} (h : Accepts p denotes)
    (put : α → β) :
    Accepts (p >>= fun a => pure (put a)) fun b v => ∃ a, denotes a v ∧ b = put a where
  sound s rest b hread := by
    obtain ⟨a, mid, hfirst, hpure⟩ := bind_eq_ok.1 hread
    obtain ⟨rfl, rfl⟩ := pure_eq_ok.mp hpure
    obtain ⟨v, before, text, hbefore, hspelled, hv, heq⟩ := h.sound hfirst
    exact ⟨v, before, text, hbefore, hspelled, ⟨a, hv, rfl⟩, heq⟩
  complete before text rest b v hbefore hspelled hv := by
    obtain ⟨a, hv, rfl⟩ := hv
    exact bind_eq_ok.2 ⟨a, rest, h.complete hbefore hspelled hv, rfl⟩

/-- Faults that are made errors of another kind change nothing about what is accepted. -/
theorem mapError_eq_ok {ε ε' : Type} {r : Except ε α} {f : ε → ε'} {a : α} :
    r.mapError f = .ok a ↔ r = .ok a := by
  cases r <;> simp [Except.mapError]

theorem document_accepts {p : Reader α} {denotes : α → Value → Prop}
    (h : Accepts p denotes) {text : String} {a : α} :
    document p text = .ok a ↔ ∃ v, SpelledDocument v text.toList ∧ denotes a v := by
  rw [document_eq_ok]
  constructor
  · rintro ⟨rest, hread, hrest⟩
    obtain ⟨v, before, inner, hbefore, hspelled, hv, htext⟩ := h.sound hread
    exact ⟨v, ⟨before, inner, rest, hbefore, hspelled, hrest, by rw [htext, List.append_assoc]⟩, hv⟩
  · rintro ⟨v, ⟨before, inner, after, hbefore, hspelled, hafter, htext⟩, hv⟩
    rw [htext, List.append_assoc]
    exact ⟨after, h.complete hbefore hspelled hv, hafter⟩

theorem peek_bind {f : Char → Reader α} {before tail : List Char} {c : Char}
    (hbefore : Blanks before) (hc : isSpace c = false) :
    (peek >>= f) (before ++ c :: tail) = f c (c :: tail) :=
  bind_of_ok (peek_append hbefore hc)

theorem skip_bind {p : Reader α} {c : Char} {tail : List Char} :
    (skip >>= fun _ => p) (c :: tail) = p tail :=
  bind_of_ok rfl

theorem accepts_boolean : Accepts boolean fun b v => v = .boolean b where
  sound s rest b h := by
    obtain ⟨c, mid, hpeek, hrest⟩ := bind_eq_ok.1 h
    obtain ⟨before, tail, hbefore, -, rfl, rfl⟩ := peek_eq_ok.mp hpeek
    split at hrest
    · obtain ⟨_, mid, hword, hpure⟩ := bind_eq_ok.1 hrest
      obtain ⟨rfl, rfl⟩ := pure_eq_ok.mp hpure
      exact ⟨_, before, _, hbefore, .trueWord, rfl, by rw [word_eq_ok.mp hword]⟩
    · obtain ⟨_, mid, hword, hpure⟩ := bind_eq_ok.1 hrest
      obtain ⟨rfl, rfl⟩ := pure_eq_ok.mp hpure
      exact ⟨_, before, _, hbefore, .falseWord, rfl, by rw [word_eq_ok.mp hword]⟩
    · exact absurd hrest wrongType_ne_ok
  complete before text rest b v hbefore hspelled hv := by
    subst hv
    cases hspelled with
    | trueWord =>
        refine (peek_bind hbefore rfl).trans ?_
        exact bind_eq_ok.2 ⟨(), rest, word_eq_ok.mpr rfl, rfl⟩
    | falseWord =>
        refine (peek_bind hbefore rfl).trans ?_
        exact bind_eq_ok.2 ⟨(), rest, word_eq_ok.mpr rfl, rfl⟩

theorem accepts_text (expected : String) : Accepts (text expected) fun s v => v = .string s where
  sound s rest str h := by
    obtain ⟨c, mid, hpeek, hrest⟩ := bind_eq_ok.1 h
    obtain ⟨before, tail, hbefore, -, rfl, rfl⟩ := peek_eq_ok.mp hpeek
    split at hrest
    · rw [skip_bind] at hrest
      obtain ⟨inner, hinner, rfl⟩ := quoted_eq_ok.mp hrest
      exact ⟨_, before, _, hbefore, .string ⟨inner, hinner, rfl⟩, rfl, by simp⟩
    · exact absurd hrest wrongType_ne_ok
  complete before text rest str v hbefore hspelled hv := by
    subst hv
    cases hspelled with
    | string hstring =>
        obtain ⟨inner, hinner, rfl⟩ := hstring
        refine (peek_bind hbefore rfl).trans (skip_bind.trans ?_)
        exact quoted_eq_ok.mpr ⟨inner, hinner, by simp⟩

theorem accepts_text? (expected : String) :
    Accepts (text? expected) fun str? v => v = str?.elim .null .string where
  sound s rest str? h := by
    obtain ⟨c, mid, hpeek, hrest⟩ := bind_eq_ok.1 h
    obtain ⟨before, tail, hbefore, -, rfl, rfl⟩ := peek_eq_ok.mp hpeek
    split at hrest
    · obtain ⟨_, mid, hword, hpure⟩ := bind_eq_ok.1 hrest
      obtain ⟨rfl, rfl⟩ := pure_eq_ok.mp hpure
      exact ⟨_, before, _, hbefore, .null, rfl, by rw [word_eq_ok.mp hword]⟩
    · obtain ⟨str, htext, rfl⟩ := map_eq_ok.mp hrest
      obtain ⟨v, others, _, hothers, hspelled, rfl, htail⟩ := (accepts_text expected).sound htext
      exact ⟨_, _, _, hbefore.append hothers, hspelled, rfl, by rw [htail]; simp⟩
  complete before body rest str? v hbefore hspelled hv := by
    subst hv
    cases str? with
    | none =>
        cases hspelled
        refine (peek_bind hbefore rfl).trans ?_
        exact bind_eq_ok.2 ⟨(), rest, word_eq_ok.mpr rfl, rfl⟩
    | some str =>
        have hread : text expected ([] ++ (body ++ rest)) = .ok (str, rest) :=
          (accepts_text expected).complete blanks_nil hspelled rfl
        cases hspelled with
        | string hstring =>
            obtain ⟨inner, hinner, rfl⟩ := hstring
            refine (peek_bind hbefore rfl).trans ?_
            exact map_eq_ok.mpr ⟨str, hread, rfl⟩

theorem accepts_unit : Accepts unit fun _ v => v = .null where
  sound s rest u h := by
    obtain ⟨c, mid, hpeek, hrest⟩ := bind_eq_ok.1 h
    obtain ⟨before, tail, hbefore, -, rfl, rfl⟩ := peek_eq_ok.mp hpeek
    split at hrest
    · exact ⟨_, before, _, hbefore, .null, rfl, by rw [word_eq_ok.mp hrest]⟩
    · exact absurd hrest wrongType_ne_ok
  complete before text rest u v hbefore hspelled hv := by
    subst hv
    cases hspelled
    exact (peek_bind hbefore rfl).trans (word_eq_ok.mpr rfl)

/-! ## Objects -/

/-- What separates a member or an element from what stands before it. -/
inductive Separator : Bool → List Char → Prop where
  | first : Separator true []
  | comma {before : List Char} : Blanks before → Separator false (before ++ [','])

/-- The spellings of the members of an object from some place on, the closing brace included. -/
inductive ObjectTail : Bool → List (String × Value) → List Char → Prop where
  | close {first : Bool} {before : List Char} : Blanks before →
      ObjectTail first [] (before ++ ['}'])
  | member {first : Bool} {sep before keyText between behind text tail : List Char} {key : String}
      {v : Value} {members : List (String × Value)} : Separator first sep → Blanks before →
      SpelledString key keyText → Blanks between → Blanks behind → Spelled v text →
      ObjectTail false members tail →
      ObjectTail first ((key, v) :: members)
        (sep ++ (before ++ (keyText ++ (between ++ ':' :: (behind ++ (text ++ tail))))))

theorem ObjectTail.of_members {members : List (String × Value)} {text sep : List Char}
    {first : Bool} (h : SpelledMembers members text) (hsep : Separator first sep) :
    ObjectTail first members (sep ++ (text ++ ['}'])) := by
  induction members generalizing text sep first with
  | nil => cases h
  | cons member others ih =>
      cases h with
      | last hmember =>
          cases hmember with
          | intro hbefore hkey hbetween hbehind hv hafter =>
              have htail := ObjectTail.member hsep hbefore hkey hbetween hbehind hv (.close hafter)
              simpa using htail
      | cons hmember hothers =>
          cases hmember with
          | intro hbefore hkey hbetween hbehind hv hafter =>
              have htail := ObjectTail.member hsep hbefore hkey hbetween hbehind hv
                (ih hothers (.comma hafter))
              simpa using htail

theorem ObjectTail.members {members : List (String × Value)} {first : Bool} {tail : List Char}
    (h : ObjectTail first members tail) :
    (members = [] ∧ ∃ before, Blanks before ∧ tail = before ++ ['}']) ∨
      ∃ sep text, Separator first sep ∧ SpelledMembers members text ∧
        tail = sep ++ (text ++ ['}']) := by
  induction h with
  | close hbefore => exact .inl ⟨rfl, _, hbefore, rfl⟩
  | @member first sep before keyText between behind text tail key v others hsep hbefore hkey
      hbetween hbehind hv _ ih =>
      right
      rcases ih with ⟨rfl, after, hafter, rfl⟩ | ⟨_, rest, hcomma, hothers, rfl⟩
      · exact ⟨sep, _, hsep, .last (.intro hbefore hkey hbetween hbehind hv hafter), by simp⟩
      · cases hcomma with
        | comma hafter =>
            exact ⟨sep, _, hsep, .cons (.intro hbefore hkey hbetween hbehind hv hafter) hothers,
              by simp⟩

theorem spelled_object_iff {members : List (String × Value)} {text : List Char} :
    Spelled (.object members) text ↔ ∃ tail, ObjectTail true members tail ∧ text = '{' :: tail := by
  constructor
  · intro h
    cases h with
    | emptyObject hbefore => exact ⟨_, .close hbefore, rfl⟩
    | object hmembers => exact ⟨_, .of_members hmembers .first, rfl⟩
  · rintro ⟨tail, htail, rfl⟩
    rcases htail.members with ⟨rfl, before, hbefore, rfl⟩ | ⟨_, rest, hsep, hmembers, rfl⟩
    · exact .emptyObject hbefore
    · cases hsep
      exact .object hmembers

/-! ## Keys -/

theorem key?_sound {first : Bool} {s rest : List Char} {key? : Option String}
    (h : Reader.key? first s = .ok (key?, rest)) :
    match key? with
    | none => ∃ before, Blanks before ∧ s = before ++ '}' :: rest
    | some key => ∃ sep before text, Separator first sep ∧ Blanks before ∧ SpelledString key text ∧
        s = sep ++ (before ++ (text ++ rest)) := by
  obtain ⟨c, mid, hpeek, hrest⟩ := bind_eq_ok.1 h
  obtain ⟨before, tail, hbefore, -, rfl, rfl⟩ := peek_eq_ok.mp hpeek
  split at hrest
  · cases hrest
    exact ⟨before, hbefore, rfl⟩
  · cases first with
    | false => cases hrest
    | true =>
        obtain ⟨key, hkey, rfl⟩ := map_eq_ok.mp (skip_bind.symm.trans hrest)
        obtain ⟨inner, hinner, rfl⟩ := quoted_eq_ok.mp hkey
        exact ⟨[], before, _, .first, hbefore, ⟨inner, hinner, rfl⟩, by simp⟩
  · cases first with
    | true => cases hrest
    | false =>
        obtain ⟨_, mid, hquote, hkey⟩ := bind_eq_ok.1 (skip_bind.symm.trans hrest)
        obtain ⟨between, hbetween, rfl⟩ := (token_eq_ok rfl).mp hquote
        obtain ⟨key, hread, rfl⟩ := map_eq_ok.mp hkey
        obtain ⟨inner, hinner, rfl⟩ := quoted_eq_ok.mp hread
        exact ⟨_, between, _, .comma hbefore, hbetween, ⟨inner, hinner, rfl⟩, by simp⟩
  · cases hrest

theorem key?_close {first : Bool} {before rest : List Char} (hbefore : Blanks before) :
    key? first (before ++ '}' :: rest) = .ok (none, rest) :=
  (peek_bind hbefore rfl).trans rfl

theorem key?_key {first : Bool} {sep before text rest : List Char} {key : String}
    (hsep : Separator first sep) (hbefore : Blanks before) (hkey : SpelledString key text) :
    key? first (sep ++ (before ++ (text ++ rest))) = .ok (some key, rest) := by
  obtain ⟨inner, hinner, rfl⟩ := hkey
  have hquoted : quoted (inner ++ ['"'] ++ rest) = .ok (key, rest) :=
    quoted_eq_ok.mpr ⟨inner, hinner, by simp⟩
  cases hsep with
  | first =>
      refine (peek_bind hbefore rfl).trans (skip_bind.trans ?_)
      exact map_eq_ok.mpr ⟨key, hquoted, rfl⟩
  | @comma between hbetween =>
      have hcomma : between ++ [','] ++ (before ++ ('"' :: (inner ++ ['"']) ++ rest)) =
          between ++ ',' :: (before ++ '"' :: (inner ++ ['"'] ++ rest)) := by simp
      rw [hcomma]
      refine (peek_bind hbetween rfl).trans (skip_bind.trans ?_)
      refine bind_eq_ok.2 ⟨(), _, (token_eq_ok rfl).mpr ⟨before, hbefore, rfl⟩, ?_⟩
      exact map_eq_ok.mpr ⟨key, hquoted, rfl⟩

/-! ## Choices -/

/-- What a choice makes of a name. -/
def picked? (options : List (String × α)) (name : String) : Option α :=
  (options.find? (·.1 == name)).map (·.2)

theorem pick_eq_ok {options : List (String × α)} {name : String} {s rest : List Char} {a : α} :
    pick options name s = .ok (a, rest) ↔ picked? options name = some a ∧ rest = s := by
  rw [pick, picked?]
  cases options.find? (·.1 == name) with
  | none => simp [fail]
  | some option => rw [pure_eq_ok]; simp [eq_comm]

/-- A name is chosen by its string, or by an object with it as the only key and `null`. -/
theorem accepts_choice (options : List (String × α)) :
    Accepts (choice options) fun a v => ∃ name, picked? options name = some a ∧
      (v = .string name ∨ v = .object [(name, .null)]) where
  sound s rest a h := by
    obtain ⟨c, mid, hpeek, hrest⟩ := bind_eq_ok.1 h
    obtain ⟨before, tail, hbefore, -, rfl, rfl⟩ := peek_eq_ok.mp hpeek
    split at hrest
    · obtain ⟨name, mid, hname, hpick⟩ := bind_eq_ok.1 (skip_bind.symm.trans hrest)
      obtain ⟨inner, hinner, rfl⟩ := quoted_eq_ok.mp hname
      obtain ⟨hpicked, rfl⟩ := pick_eq_ok.mp hpick
      exact ⟨_, before, _, hbefore, .string ⟨inner, hinner, rfl⟩, ⟨name, hpicked, .inl rfl⟩,
        by simp⟩
    · obtain ⟨_, _, hquote, hname⟩ := bind_eq_ok.1 (skip_bind.symm.trans hrest)
      obtain ⟨name, _, hname, hpick⟩ := bind_eq_ok.1 hname
      obtain ⟨_, _, hpick, hcolon⟩ := bind_eq_ok.1 hpick
      obtain ⟨_, _, hcolon, hnull⟩ := bind_eq_ok.1 hcolon
      obtain ⟨_, _, hnull, hclose⟩ := bind_eq_ok.1 hnull
      obtain ⟨_, _, hclose, hpure⟩ := bind_eq_ok.1 hclose
      obtain ⟨rfl, rfl⟩ := pure_eq_ok.mp hpure
      obtain ⟨after, hafter, rfl⟩ := (token_eq_ok rfl).mp hclose
      obtain ⟨_, behind, _, hbehind, hv, rfl, rfl⟩ := accepts_unit.sound hnull
      obtain ⟨between, hbetween, rfl⟩ := (token_eq_ok rfl).mp hcolon
      obtain ⟨hpicked, rfl⟩ := pick_eq_ok.mp hpick
      obtain ⟨inner, hinner, rfl⟩ := quoted_eq_ok.mp hname
      obtain ⟨opening, hopening, rfl⟩ := (token_eq_ok rfl).mp hquote
      have htail := ObjectTail.member .first hopening ⟨inner, hinner, rfl⟩ hbetween hbehind hv
        (.close hafter)
      exact ⟨_, before, _, hbefore, spelled_object_iff.mpr ⟨_, htail, rfl⟩,
        ⟨name, hpicked, .inr rfl⟩, by simp⟩
    · cases hrest
  complete before text rest a v hbefore hspelled hv := by
    obtain ⟨name, hpicked, rfl | rfl⟩ := hv
    · cases hspelled with
      | string hstring =>
          obtain ⟨inner, hinner, rfl⟩ := hstring
          refine (peek_bind hbefore rfl).trans (skip_bind.trans ?_)
          refine bind_eq_ok.2 ⟨name, rest, quoted_eq_ok.mpr ⟨inner, hinner, by simp⟩, ?_⟩
          exact pick_eq_ok.mpr ⟨hpicked, rfl⟩
    · obtain ⟨tail, htail, rfl⟩ := spelled_object_iff.mp hspelled
      cases htail with
      | @member _ sep opening _ between behind text tail _ _ _ hsep hopening hkey hbetween hbehind
          hnull hclose =>
          cases hsep
          cases hclose with
          | @close _ after hafter =>
              obtain ⟨inner, hinner, rfl⟩ := hkey
              refine (peek_bind hbefore rfl).trans (skip_bind.trans ?_)
              refine bind_eq_ok.2 ⟨(), inner ++ '"' :: (between ++ ':' ::
                (behind ++ (text ++ (after ++ '}' :: rest)))), ?_, ?_⟩
              · exact (token_eq_ok rfl).mpr ⟨opening, hopening, by simp⟩
              refine bind_eq_ok.2 ⟨name, _, quoted_eq_ok.mpr ⟨inner, hinner, rfl⟩, ?_⟩
              refine bind_eq_ok.2 ⟨a, _, pick_eq_ok.mpr ⟨hpicked, rfl⟩, ?_⟩
              refine bind_eq_ok.2 ⟨(), _, (token_eq_ok rfl).mpr ⟨between, hbetween, rfl⟩, ?_⟩
              refine bind_eq_ok.2 ⟨(), _, accepts_unit.complete hbehind hnull rfl, ?_⟩
              refine bind_eq_ok.2 ⟨(), rest, (token_eq_ok rfl).mpr ⟨after, hafter, rfl⟩, ?_⟩
              rfl

/-! ## Maps of texts -/

/-- The members of a map of texts, as members of an object. -/
def textMembers (members : List (String × String)) : List (String × Value) :=
  members.map fun member => (member.1, .string member.2)

theorem entriesFrom_eq_ok {first : Bool} {s rest : List Char} {members : List (String × String)} :
    entriesFrom first s = .ok (members, rest) ↔
      members = [] ∧ entry? first s = .ok (none, rest) ∨
      ∃ member mid others, entry? first s = .ok (some member, mid) ∧
        entriesFrom false mid = .ok (others, rest) ∧ members = member :: others := by
  rw [entriesFrom]
  split
  · next fault hfault => simp [hfault]
  · next mid hnone => simp [hnone, eq_comm, and_comm]
  · next member mid hsome =>
      rw [hsome]
      constructor
      · intro h
        cases hothers : entriesFrom false mid with
        | error fault => rw [hothers] at h; cases h
        | ok got =>
            rw [hothers] at h
            cases h
            exact .inr ⟨member, mid, got.1, rfl, hothers, rfl⟩
      · rintro (⟨-, hnone⟩ | ⟨_, _, others, hmember, hothers, rfl⟩)
        · cases hnone
        · cases hmember
          rw [hothers]
          rfl

theorem entry?_sound {first : Bool} {s rest : List Char} {member? : Option (String × String)}
    (h : entry? first s = .ok (member?, rest)) :
    match member? with
    | none => ∃ before, Blanks before ∧ s = before ++ '}' :: rest
    | some (key, name) => ∃ sep before keyText between behind text, Separator first sep ∧
        Blanks before ∧ SpelledString key keyText ∧ Blanks between ∧ Blanks behind ∧
        Spelled (.string name) text ∧
        s = sep ++ (before ++ (keyText ++ (between ++ ':' :: (behind ++ (text ++ rest))))) := by
  obtain ⟨key?, mid, hkey, hrest⟩ := bind_eq_ok.1 h
  have hspelled := key?_sound hkey
  cases key? with
  | none =>
      obtain ⟨rfl, rfl⟩ := pure_eq_ok.mp hrest
      exact hspelled
  | some key =>
      obtain ⟨sep, before, keyText, hsep, hbefore, hkeyText, rfl⟩ := hspelled
      obtain ⟨_, _, hcolon, htext⟩ := bind_eq_ok.1 hrest
      obtain ⟨name, _, htext, hpure⟩ := bind_eq_ok.1 htext
      obtain ⟨rfl, rfl⟩ := pure_eq_ok.mp hpure
      obtain ⟨_, behind, text, hbehind, hname, rfl, rfl⟩ := (accepts_text _).sound htext
      obtain ⟨between, hbetween, rfl⟩ := (token_eq_ok rfl).mp hcolon
      exact ⟨sep, before, keyText, between, behind, text, hsep, hbefore, hkeyText, hbetween,
        hbehind, hname, rfl⟩

theorem entriesFrom_sound {first : Bool} {s rest : List Char} {members : List (String × String)}
    (h : entriesFrom first s = .ok (members, rest)) :
    ∃ tail, ObjectTail first (textMembers members) tail ∧ s = tail ++ rest := by
  fun_induction entriesFrom first s generalizing members with
  | case1 first s fault hfault => cases h
  | case2 first s mid hnone =>
      cases h
      obtain ⟨before, hbefore, rfl⟩ := entry?_sound hnone
      exact ⟨_, .close hbefore, by simp⟩
  | case3 first s member mid hsome ih =>
      cases hothers : entriesFrom false mid with
      | error fault => rw [hothers] at h; cases h
      | ok got =>
          rw [hothers] at h
          cases h
          obtain ⟨tail, htail, rfl⟩ := ih hothers
          obtain ⟨sep, before, keyText, between, behind, text, hsep, hbefore, hkey, hbetween,
            hbehind, hname, rfl⟩ := entry?_sound hsome
          exact ⟨_, .member hsep hbefore hkey hbetween hbehind hname htail, by simp⟩

theorem entriesFrom_complete {first : Bool} {tail rest : List Char}
    {members : List (String × String)} (h : ObjectTail first (textMembers members) tail) :
    entriesFrom first (tail ++ rest) = .ok (members, rest) := by
  induction members generalizing first tail with
  | nil =>
      cases h with
      | @close _ before hbefore =>
          rw [List.append_assoc]
          exact entriesFrom_eq_ok.mpr (.inl ⟨rfl, bind_eq_ok.2 ⟨none, rest, key?_close hbefore, rfl⟩⟩)
  | cons member others ih =>
      obtain ⟨key, name⟩ := member
      cases h with
      | @member _ sep before keyText between behind text tail _ _ _ hsep hbefore hkey hbetween
          hbehind hname htail =>
          simp only [List.append_assoc, List.cons_append]
          refine entriesFrom_eq_ok.mpr (.inr ⟨(key, name), tail ++ rest, others, ?_, ih htail, rfl⟩)
          refine bind_eq_ok.2 ⟨some key, _, key?_key hsep hbefore hkey, ?_⟩
          refine bind_eq_ok.2 ⟨(), _, (token_eq_ok rfl).mpr ⟨between, hbetween, rfl⟩, ?_⟩
          exact bind_eq_ok.2 ⟨name, tail ++ rest, (accepts_text _).complete hbehind hname rfl, rfl⟩

theorem accepts_entries : Accepts entries fun members v => v = .object (textMembers members) where
  sound s rest members h := by
    obtain ⟨c, mid, hpeek, hrest⟩ := bind_eq_ok.1 h
    obtain ⟨before, tail, hbefore, -, rfl, rfl⟩ := peek_eq_ok.mp hpeek
    split at hrest
    · obtain ⟨tail, htail, rfl⟩ := entriesFrom_sound (skip_bind.symm.trans hrest)
      exact ⟨_, before, _, hbefore, spelled_object_iff.mpr ⟨tail, htail, rfl⟩, rfl, rfl⟩
    · exact absurd hrest wrongType_ne_ok
  complete before text rest members v hbefore hspelled hv := by
    subst hv
    obtain ⟨tail, htail, rfl⟩ := spelled_object_iff.mp hspelled
    exact (peek_bind hbefore rfl).trans (skip_bind.trans (entriesFrom_complete htail))

end MipsWords.Json
