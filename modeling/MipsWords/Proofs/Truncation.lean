import Mathlib
import MipsWords.Proofs.ReaderLaws
import MipsWords.Proofs.Spelling.Shapes

/-!
# Truncated files

A reader that accepts a text has decided nothing by looking ahead: run on the
text without its end it comes to the end of what it was given, or it has read
the same value and what it leaves is what is missing less (`Streams`). The first
outcome is the fault `ended`, so neither of the other faults can be the fault of
a truncated file.

The property goes through every combination of readers (`streams_law`), because
a reader that runs into the end stops all that would follow it. Numbers are the
exception in every respect, since a digit more makes another number; but a
number is read only to be complained about, and a complaint accepts nothing.
-/

namespace MipsWords.Json.Reader

variable {α β : Type}

/-- What the reader accepts, cut anywhere, either ends too early or reads as the same value. -/
def Streams (p : Reader α) : Prop :=
  ∀ ⦃s t rest : List Char⦄ ⦃a : α⦄, p (s ++ t) = .ok (a, rest) →
    p s = .error .ended ∨ ∃ mid, p s = .ok (a, mid) ∧ rest = mid ++ t

theorem Streams.eq_ended {p : Reader α} (hp : Streams p) {s t rest : List Char} {a : α}
    {fault : Fault} (h : p (s ++ t) = .ok (a, rest)) (hcut : p s = .error fault) :
    fault = .ended := by
  rcases hp h with hend | ⟨_, hok, -⟩
  · rw [hcut] at hend
    exact Except.error.inj hend
  · rw [hcut] at hok
    cases hok

theorem Streams.eq_of_ok {p : Reader α} (hp : Streams p) {s t rest mid : List Char} {a b : α}
    (h : p (s ++ t) = .ok (a, rest)) (hcut : p s = .ok (b, mid)) : a = b ∧ rest = mid ++ t := by
  rcases hp h with hend | ⟨_, hok, hrest⟩
  · rw [hcut] at hend
    cases hend
  · rw [hcut] at hok
    cases hok
    exact ⟨rfl, hrest⟩

/-! ## The parts of readers -/

theorem streams_of_ne_ok {p : Reader α} (h : ∀ s a rest, p s ≠ .ok (a, rest)) : Streams p :=
  fun _ _ _ _ hok => absurd hok (h _ _ _)

theorem Streams.pure (a : α) : Streams (Pure.pure a : Reader α) := by
  intro s t rest b h
  cases h
  exact .inr ⟨s, rfl, rfl⟩

theorem Streams.fail (fault : Fault) : Streams (fail fault : Reader α) :=
  streams_of_ne_ok fun _ _ _ h => by cases h

theorem Streams.bind {p : Reader α} {f : α → Reader β} (hp : Streams p)
    (hf : ∀ a, Streams (f a)) : Streams (p >>= f) := by
  intro s t rest b h
  obtain ⟨a, mid, hfirst, hthen⟩ := bind_eq_ok.1 h
  rcases hp hfirst with hend | ⟨mid, hcut, rfl⟩
  · exact .inl (bind_of_error hend)
  · rw [bind_of_ok hcut]
    exact hf a hthen

theorem streams_next : Streams next := by
  intro s t rest c h
  match s with
  | [] => exact .inl rfl
  | d :: tail => cases h; exact .inr ⟨tail, rfl, rfl⟩

/-- The next token is looked for behind spaces only, so it is there or the text ends. -/
theorem streams_peek : Streams peek := by
  intro s t rest c h
  cases hdrop : s.dropWhile isSpace with
  | nil => exact .inl (by rw [peek, hdrop])
  | cons d tail =>
      rw [peek, List.dropWhile_append, hdrop] at h
      cases h
      exact .inr ⟨c :: tail, by rw [peek, hdrop], rfl⟩

/-- An escape that is cut off has fewer than four bytes, because its digits take one each. -/
theorem streams_utf16Unit : Streams utf16Unit := by
  intro s t rest unit h
  obtain ⟨digits, ⟨hlength, hread⟩, heq⟩ := utf16Unit_eq_ok.mp h
  rcases List.append_eq_append_iff.mp heq with ⟨missing, rfl, rfl⟩ | ⟨mid, rfl, rfl⟩
  · cases missing with
    | nil =>
        rw [List.append_nil] at hlength hread
        exact .inr ⟨[], utf16Unit_eq_ok.mpr ⟨s, ⟨hlength, hread⟩, by simp⟩, rfl⟩
    | cons c others =>
        rw [List.length_append, List.length_cons] at hlength
        obtain ⟨n, hs, -⟩ := Option.bind_eq_some_iff.mp (Numeral.readFrom?_append ▸ hread)
        have htake : s.take 4 = s := List.take_of_length_le (by omega)
        left
        simp only [utf16Unit, htake, String.utf8ByteSize_ofList, utf8Len_digits hs]
        rw [if_pos (by omega)]
  · exact .inr ⟨mid, utf16Unit_eq_ok.mpr ⟨digits, ⟨hlength, hread⟩, rfl⟩, rfl⟩

/-- The characters of a string, one by one: a cut between two of them or inside an escape leaves
the closing quote to be missed. -/
theorem streams_chars (hescaped : Streams escapedChar) :
    Streams (chars : Reader (List Char)) := by
  intro s t rest cs h
  fun_induction chars s generalizing cs with
  | case1 => exact .inl rfl
  | case2 tail =>
      rw [List.cons_append, chars] at h
      cases h
      exact .inr ⟨tail, rfl, rfl⟩
  | case3 tail fault hfault =>
      obtain ⟨c, mid, others, hc, -, -⟩ := chars_escape_eq_ok.mp h
      exact .inl (congrArg _ (hescaped.eq_ended hc hfault))
  | case4 tail c mid hc ih =>
      obtain ⟨d, _, others, hd, hothers, rfl⟩ := chars_escape_eq_ok.mp h
      obtain ⟨rfl, rfl⟩ := hescaped.eq_of_ok hd hc
      rcases ih hothers with hend | ⟨mid, hcut, rfl⟩
      · rw [hend]
        exact .inl rfl
      · rw [hcut]
        exact .inr ⟨mid, rfl, rfl⟩
  | case5 c tail hquote hslash hlow =>
      rw [List.cons_append, chars_plain _ hquote hslash, if_pos hlow] at h
      cases h
  | case6 c tail hquote hslash hlow ih =>
      rw [List.cons_append, chars_plain _ hquote hslash, if_neg hlow] at h
      obtain ⟨others, hothers, rfl⟩ := map_cons_eq_ok.mp h
      rcases ih hothers with hend | ⟨mid, hcut, rfl⟩
      · rw [hend]
        exact .inl rfl
      · rw [hcut]
        exact .inr ⟨mid, rfl, rfl⟩

theorem streams_number (expected : String) :
    Streams (number >>= fun found => fail (.schema (.wrongType found expected)) : Reader α) :=
  streams_of_ne_ok fun _ _ _ h => by
    obtain ⟨found, mid, -, hfail⟩ := bind_eq_ok.1 h
    cases hfail

/-- The members of a map, one by one: a cut leaves the closing brace to be missed. -/
theorem streams_entriesFrom (hentry : ∀ first, Streams ( entry? first)) (first : Bool) :
    Streams (entriesFrom first) := by
  intro s t rest members h
  fun_induction entriesFrom first s generalizing members with
  | case1 first s fault hfault =>
      obtain ⟨member?, mid, hwhole⟩ : ∃ member? mid, entry? first (s ++ t) = .ok (member?, mid) := by
        rcases entriesFrom_eq_ok.mp h with ⟨-, hnone⟩ | ⟨member, mid, _, hsome, -, -⟩
        · exact ⟨none, rest, hnone⟩
        · exact ⟨some member, mid, hsome⟩
      exact .inl (congrArg _ ((hentry first).eq_ended hwhole hfault))
  | case2 first s mid hnone =>
      rcases entriesFrom_eq_ok.mp h with ⟨rfl, hwhole⟩ | ⟨member, _, _, hwhole, -, -⟩
      · exact .inr ⟨mid, rfl, ((hentry first).eq_of_ok hwhole hnone).2⟩
      · cases ((hentry first).eq_of_ok hwhole hnone).1
  | case3 first s member mid hsome ih =>
      rcases entriesFrom_eq_ok.mp h with ⟨-, hwhole⟩ | ⟨_, _, others, hwhole, hothers, rfl⟩
      · cases ((hentry first).eq_of_ok hwhole hsome).1
      · obtain ⟨heq, rfl⟩ := (hentry first).eq_of_ok hwhole hsome
        cases heq
        rcases ih hothers with hend | ⟨after, hcut, rfl⟩
        · rw [hend]
          exact .inl rfl
        · rw [hcut]
          exact .inr ⟨after, rfl, rfl⟩

/-- Every reader of settings and tables streams. -/
theorem streams_law : Law @Streams where
  pure := .pure
  fail := .fail
  bind := .bind
  next := streams_next
  peek := streams_peek
  utf16Unit := streams_utf16Unit
  number := streams_number
  chars := streams_chars
  entriesFrom := streams_entriesFrom

/-! ## Documents -/

/-- A document without its end is the same document, if only blanks are missing, or ends too
early. -/
theorem document_cut {p : Reader α} (hp : Streams p) {text missing : String} {a : α}
    (h : document p (text ++ missing) = .ok a) :
    (Blanks missing.toList ∧ document p text = .ok a) ∨ document p text = .error .ended := by
  obtain ⟨rest, hread, hblank⟩ := document_eq_ok.mp h
  rw [String.toList_append] at hread
  rcases hp hread with hend | ⟨mid, hcut, rfl⟩
  · right
    rw [document, hend]
    rfl
  · obtain ⟨hmid, hmissing⟩ := List.forall_mem_append.mp hblank
    exact .inl ⟨hmissing, document_eq_ok.mpr ⟨mid, hcut, hmid⟩⟩

/-- The same of a document whose faults are errors among others. -/
theorem mapError_document_cut {p : Reader α} (hp : Streams p)
    {text missing : String} {a : α} (h : (document p (text ++ missing)).mapError Error.json = .ok a) :
    (Blanks missing.toList ∧ (document p text).mapError Error.json = .ok a) ∨
      (document p text).mapError Error.json = .error (.json .ended) := by
  rcases document_cut hp (mapError_eq_ok.mp h) with ⟨hmissing, hcut⟩ | hend
  · exact .inl ⟨hmissing, mapError_eq_ok.mpr hcut⟩
  · exact .inr (by rw [hend]; rfl)

end MipsWords.Json.Reader

namespace MipsWords

open Json (Blanks)
open Json.Reader

/-! ## Settings and tables -/

namespace Settings

/-- Settings without their end load as before, if only blanks are missing, or end too early. -/
theorem ofJson_cut {text missing : String} {s : Settings} (h : ofJson (text ++ missing) = .ok s) :
    (Blanks missing.toList ∧ ofJson text = .ok s) ∨ ofJson text = .error (.json .ended) :=
  mapError_document_cut streams_law.settings h

end Settings

namespace Table

/-- The keys are judged behind the end of the text, so a table without its end has none to be bad. -/
theorem ofJson_cut {text missing : String} {t : Table} (h : ofJson (text ++ missing) = .ok t) :
    (Blanks missing.toList ∧ ofJson text = .ok t) ∨ ofJson text = .error (.json .ended) := by
  rw [ofJson] at h ⊢
  cases hwhole : Members.ofJson (text ++ missing) with
  | error e => rw [hwhole] at h; cases h
  | ok members =>
      rw [hwhole] at h
      rcases mapError_document_cut streams_law.table hwhole with ⟨hmissing, hcut⟩ | hend
      · exact .inl ⟨hmissing, by rw [Members.ofJson, hcut]; exact h⟩
      · exact .inr (by rw [Members.ofJson, hend]; rfl)

end Table

/-- A file that is cut off loads as the whole one does, if only blanks are missing, or is known to
have ended too early. -/
theorem ofJson_truncated (text missing : String) :
    (∀ s, Settings.ofJson (text ++ missing) = .ok s →
      (Blanks missing.toList ∧ Settings.ofJson text = .ok s) ∨
        Settings.ofJson text = .error (.json .ended)) ∧
    (∀ t, Table.ofJson (text ++ missing) = .ok t →
      (Blanks missing.toList ∧ Table.ofJson text = .ok t) ∨
        Table.ofJson text = .error (.json .ended)) :=
  ⟨fun _ => Settings.ofJson_cut, fun _ => Table.ofJson_cut⟩

/-- Between the two halves of a character, and between the digits of a key. -/
theorem ofJson_truncated_inside :
    Settings.ofJson ("[[],[],[\"\\ud83d" ++ "\\ude00\"]]") = .ok { tablePath? := some "😀" } ∧
    Settings.ofJson "[[],[],[\"\\ud83d" = .error (.json .ended) ∧
    Table.ofJson ("[\x7b\"0000" ++ "10\":\"j\"\x7d]") = .ok (Table.empty.insertOpcode 2 "j") ∧
    Table.ofJson "[\x7b\"0000" = .error (.json .ended) := by
  have hsettings : Settings.ofJson ("[[],[],[\"\\ud83d" ++ "\\ude00\"]]") =
      .ok { tablePath? := some "😀" } := by decide +kernel
  have htable : Table.ofJson ("[\x7b\"0000" ++ "10\":\"j\"\x7d]") =
      .ok (Table.empty.insertOpcode 2 "j") := by decide +kernel
  refine ⟨hsettings, ?_, htable, ?_⟩
  · rcases (ofJson_truncated _ _).1 _ hsettings with ⟨hblank, -⟩ | hend
    · exact absurd (hblank '"' (by decide)) (by decide)
    · exact hend
  · rcases (ofJson_truncated _ _).2 _ htable with ⟨hblank, -⟩ | hend
    · exact absurd (hblank '"' (by decide)) (by decide)
    · exact hend

end MipsWords
