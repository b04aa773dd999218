import MipsWords.Json.Reader

/-!
# JSON strings

A string is read from behind its opening quote. A character below the space may
not stand in it as it is. An escape by number gives a UTF-16 unit; a high
surrogate must be followed at once by the escape of a low one, and a low one may
not come first.

An escape by number with fewer than four bytes of text behind it counts as cut
off, whatever the bytes are.
-/

namespace MipsWords.Json.Reader

/-- The first unit of a pair. -/
def isHighSurrogate (unit : Nat) : Bool := 0xd800 ≤ unit && unit ≤ 0xdbff

/-- The second unit of a pair. -/
def isLowSurrogate (unit : Nat) : Bool := 0xdc00 ≤ unit && unit ≤ 0xdfff

/-- Reads four hexadecimal digits. A text with fewer than four bytes left ends too early. -/
def utf16Unit : Reader Nat := fun s =>
  let digits := s.take 4
  if (String.ofList digits).utf8ByteSize < 4 then .error .ended
  else
    match Numeral.readFrom? 16 0 digits with
    | some unit => .ok (unit, s.drop 4)
    | none => .error .malformed

/-- Reads what follows `\u`, both halves of a surrogate pair. -/
def numberedChar : Reader Char := do
  let unit ← utf16Unit
  if isLowSurrogate unit then fail .malformed
  else if isHighSurrogate unit then do
    expect '\\'
    expect 'u'
    let low ← utf16Unit
    if isLowSurrogate low then
      pure (Char.ofNat (0x10000 + (unit - 0xd800) * 0x400 + (low - 0xdc00)))
    else fail .malformed
  else pure (Char.ofNat unit)

/-- Reads what stands behind a backslash. -/
def escapedChar : Reader Char := do
  match ← next with
  | '"' => pure '"'
  | '\\' => pure '\\'
  | '/' => pure '/'
  | 'b' => pure '\x08'
  | 'f' => pure '\x0c'
  | 'n' => pure '\n'
  | 'r' => pure '\r'
  | 't' => pure '\t'
  | 'u' => numberedChar
  | _ => fail .malformed

theorem shrinks_utf16Unit : Shrinks utf16Unit := by
  intro s unit rest h
  simp only [utf16Unit] at h
  split at h
  · cases h
  · split at h
    · cases h; simp
    · cases h

theorem shrinks_numberedChar : Shrinks numberedChar := by
  refine shrinks_utf16Unit.bind fun unit => ?_
  split
  · exact .fail _
  · split
    · refine (shrinks_expect _).bind fun _ => (shrinks_expect _).bind fun _ => ?_
      refine shrinks_utf16Unit.bind fun low => ?_
      split
      · exact .pure _
      · exact .fail _
    · exact .pure _

theorem shrinks_escapedChar : Shrinks escapedChar := by
  refine shrinks_next.bind fun c => ?_
  split
  case h_9 => exact shrinks_numberedChar
  case h_10 => exact .fail _
  all_goals exact .pure _

/-- The characters up to the closing quote, which is taken too. -/
def chars (s : List Char) : Except Fault (List Char × List Char) :=
  match s with
  | [] => .error .ended
  | '"' :: rest => .ok ([], rest)
  | '\\' :: rest =>
    match _ : escapedChar rest with
    | .error fault => .error fault
    | .ok (c, rest) => (chars rest).map fun (cs, rest) => (c :: cs, rest)
  | c :: rest =>
    if c.toNat < 0x20 then .error .malformed
    else (chars rest).map fun (cs, rest) => (c :: cs, rest)
termination_by s.length
decreasing_by
  · have := shrinks_escapedChar _ _ _ ‹_›
    simp only [List.length_cons]
    omega
  · simp

/-- Reads a string from behind its opening quote to its closing one. -/
def quoted : Reader String := fun s =>
  (chars s).map fun (cs, rest) => (String.ofList cs, rest)

theorem length_chars {s cs rest : List Char} (h : chars s = .ok (cs, rest)) :
    rest.length ≤ s.length := by
  fun_induction chars s generalizing cs with
  | case1 => cases h
  | case2 => cases h; simp
  | case3 tail fault hf => cases h
  | case4 tail c mid hc ih =>
    cases hm : chars mid with
    | error fault => simp [hm, Except.map] at h
    | ok got =>
      simp only [hm, Except.map, Except.ok.injEq, Prod.mk.injEq] at h
      obtain ⟨_, rfl⟩ := h
      have := ih hm
      have := shrinks_escapedChar _ _ _ hc
      simp only [List.length_cons]
      omega
  | case5 => cases h
  | case6 c tail _ _ _ ih =>
    cases hm : chars tail with
    | error fault => simp [hm, Except.map] at h
    | ok got =>
      simp only [hm, Except.map, Except.ok.injEq, Prod.mk.injEq] at h
      obtain ⟨_, rfl⟩ := h
      have := ih hm
      simp only [List.length_cons]
      omega

theorem shrinks_quoted : Shrinks quoted := by
  intro s a rest h
  cases hm : chars s with
  | error fault => simp [quoted, hm, Except.map] at h
  | ok got =>
    simp only [quoted, hm, Except.map, Except.ok.injEq, Prod.mk.injEq] at h
    obtain ⟨_, rfl⟩ := h
    exact length_chars hm

end MipsWords.Json.Reader
