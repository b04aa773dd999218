import MipsWords.Json.Fault

/-!
# Readers of JSON

A reader takes a value off the front of a text and leaves the rest, or stops
with a fault. It never looks further than the character that decides, so the
first problem in the order of the text is the one it reports.

Every reader leaves a rest no longer than the text it was given (`Shrinks`),
which is what lets the loops over strings and objects end.
-/

namespace MipsWords.Json

/-- Reads from the front of a text. -/
abbrev Reader (α : Type) := StateT (List Char) (Except Fault) α

namespace Reader

variable {α β : Type}

/-- Stops with a fault. -/
def fail (fault : Fault) : Reader α := fun _ => .error fault

/-- Space, tab, carriage return and line feed may stand between tokens. -/
def isSpace (c : Char) : Bool := c == ' ' || c == '\t' || c == '\r' || c == '\n'

/-- Takes a character. -/
def next : Reader Char
  | [] => .error .ended
  | c :: rest => .ok (c, rest)

/-- Leaves a character out. -/
def skip : Reader Unit := do
  let _ ← next
  pure ()

/-- Skips space and tells the next character, which stays in place. -/
def peek : Reader Char := fun s =>
  match s.dropWhile isSpace with
  | [] => .error .ended
  | c :: rest => .ok (c, c :: rest)

/-- Takes the next character, which must be `c`. -/
def expect (c : Char) : Reader Unit := do
  if (← next) = c then pure () else fail .malformed

/-- Skips space and takes the next character, which must be `c`. -/
def token (c : Char) : Reader Unit := do
  if (← peek) = c then skip else fail .malformed

/-- Takes the given characters one by one. -/
def word : List Char → Reader Unit
  | [] => pure ()
  | c :: rest => do
    expect c
    word rest

/-- Reads a whole text: one value, and nothing but space after it. -/
def document (r : Reader α) (text : String) : Except Fault α := do
  let (a, rest) ← r text.toList
  if rest.all isSpace then pure a else throw .malformed

/-! ## What readers leave -/

/-- The rest is no longer than the text. -/
def Shrinks (p : Reader α) : Prop := ∀ s a rest, p s = .ok (a, rest) → rest.length ≤ s.length

theorem Shrinks.pure (a : α) : Shrinks (Pure.pure a : Reader α) := by
  intro s b rest h
  cases h
  exact Nat.le_refl _

theorem Shrinks.fail (fault : Fault) : Shrinks (fail fault : Reader α) := by
  intro s b rest h
  cases h

theorem bind_eq_ok {p : Reader α} {f : α → Reader β} {s rest : List Char} {b : β} :
    (p >>= f) s = .ok (b, rest) ↔ ∃ a mid, p s = .ok (a, mid) ∧ f a mid = .ok (b, rest) := by
  show (p s >>= fun (a, mid) => f a mid) = _ ↔ _
  cases h : p s with
  | error fault => simp [bind, Except.bind]
  | ok got =>
    constructor
    · exact fun hf => ⟨got.1, got.2, rfl, hf⟩
    · rintro ⟨a, mid, heq, hf⟩
      cases heq
      exact hf

theorem Shrinks.bind {p : Reader α} {f : α → Reader β} (hp : Shrinks p)
    (hf : ∀ a, Shrinks (f a)) : Shrinks (p >>= f) := by
  intro s b rest h
  obtain ⟨a, mid, h₁, h₂⟩ := bind_eq_ok.1 h
  exact Nat.le_trans (hf a _ _ _ h₂) (hp _ _ _ h₁)

theorem Shrinks.map {p : Reader α} (f : α → β) (hp : Shrinks p) : Shrinks (f <$> p) := by
  show Shrinks (p >>= fun a => Pure.pure (f a))
  exact hp.bind fun a => .pure (f a)

/-- Taking a character leaves a shorter text. -/
theorem next_shorter {s rest : List Char} {c : Char} (h : next s = .ok (c, rest)) :
    rest.length < s.length := by
  cases s with
  | nil => cases h
  | cons d tail => cases h; simp

theorem shrinks_next : Shrinks next := fun _ _ _ h => Nat.le_of_lt (next_shorter h)

theorem skip_shorter {s rest : List Char} {u : Unit} (h : skip s = .ok (u, rest)) :
    rest.length < s.length := by
  obtain ⟨c, mid, h₁, h₂⟩ := bind_eq_ok.1 h
  cases h₂
  exact next_shorter h₁

theorem shrinks_skip : Shrinks skip := fun _ _ _ h => Nat.le_of_lt (skip_shorter h)

theorem shrinks_peek : Shrinks peek := by
  intro s c rest h
  have hle := (List.dropWhile_suffix isSpace (l := s)).length_le
  simp only [peek] at h
  split at h
  · cases h
  · next heq => cases h; rwa [heq] at hle

theorem shrinks_expect (c : Char) : Shrinks (expect c) := by
  refine shrinks_next.bind fun d => ?_
  split
  · exact .pure ()
  · exact .fail _

theorem shrinks_token (c : Char) : Shrinks (token c) := by
  refine shrinks_peek.bind fun d => ?_
  split
  · exact shrinks_skip
  · exact .fail _

/-- A token takes at least its one character. -/
theorem token_shorter {c : Char} {s rest : List Char} {u : Unit}
    (h : token c s = .ok (u, rest)) : rest.length < s.length := by
  obtain ⟨d, mid, h₁, h₂⟩ := bind_eq_ok.1 h
  have := shrinks_peek _ _ _ h₁
  split at h₂
  · have := skip_shorter h₂
    omega
  · cases h₂

end Reader

end MipsWords.Json
