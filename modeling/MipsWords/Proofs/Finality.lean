import MipsWords.Proofs.NumberEnds
import MipsWords.Proofs.TableFile
import MipsWords.Proofs.Truncation

/-!
# Complaints are final

A complaint about the shape of a file is made as soon as it is known, so what
stands behind that place can neither mask it nor put another in its place
(`ofJson_final`). In particular it comes before any complaint about a key, since
keys are judged when all has been read. What is final is the complaint with its
words. The place that is put behind the words, ` at line L column C`, is no part
of a complaint (`Fault.message`), and it can move with what follows.

Read from one place on, a reader is final (`FinalAt`) if what it has read stays
as it is when the text goes on, and what it complains about does too. Only a
complaint about a number at the end of the text does not (`OpenNumber`), and then
without that number there would have been nothing to complain about yet. The loops
over strings and maps are final from any place if they are from all later ones,
which is the induction over what is left of the text.
-/

namespace MipsWords.Json.Reader

variable {α β : Type}

/-- The complaint is about a number that the text ends with, and only there. -/
inductive OpenNumber (p : Reader α) : Complaint → List Char → Prop where
  | intro {before lexeme : List Char} {found : Found} {expected : String}
      (hended : p before = .error .ended) (hlexeme : NumberLexeme lexeme)
      (hfound : number lexeme = .ok (found, [])) :
      OpenNumber p (.wrongType found expected) (before ++ lexeme)

/-- What the reader comes to here does not change when the text goes on. -/
structure FinalAt (p : Reader α) (s : List Char) : Prop where
  suffix : ∀ {a rest}, p s = .ok (a, rest) → rest <:+ s
  extend : ∀ {a rest}, p s = .ok (a, rest) → ∀ more, p (s ++ more) = .ok (a, rest ++ more)
  schema : ∀ {complaint}, p s = .error (.schema complaint) →
    (∀ more, p (s ++ more) = .error (.schema complaint)) ∨ OpenNumber p complaint s

/-- A reader that is final from every place, and has only come to an end where more could follow. -/
structure Final (p : Reader α) : Prop where
  streams : Streams p
  finalAt : ∀ s, FinalAt p s

/-! ## Combinations -/

theorem FinalAt.bind {p : Reader α} {f : α → Reader β} {s : List Char} (hstreams : Streams p)
    (hp : FinalAt p s) (hf : ∀ {a mid}, p s = .ok (a, mid) → FinalAt (f a) mid) :
    FinalAt (p >>= f) s where
  suffix h := by
    obtain ⟨a, mid, hfirst, hthen⟩ := bind_eq_ok.1 h
    exact ((hf hfirst).suffix hthen).trans (hp.suffix hfirst)
  extend h more := by
    obtain ⟨a, mid, hfirst, hthen⟩ := bind_eq_ok.1 h
    rw [bind_of_ok (hp.extend hfirst more), (hf hfirst).extend hthen more]
  schema h := by
    rcases bind_eq_error.mp h with hfirst | ⟨a, mid, hfirst, hthen⟩
    · rcases hp.schema hfirst with hmore | ⟨hended, hlexeme, hfound⟩
      · exact .inl fun more => bind_of_error (hmore more)
      · exact .inr ⟨bind_of_error hended, hlexeme, hfound⟩
    · obtain ⟨front, hfront⟩ := hp.suffix hfirst
      rcases (hf hfirst).schema hthen with hmore | ⟨hended, hlexeme, hfound⟩
      · exact .inl fun more => by rw [bind_of_ok (hp.extend hfirst more), hmore]
      · next before lexeme found expected =>
        -- Without the number the first reader ends too early or leaves what is before it.
        subst hfront
        rw [← List.append_assoc] at hfirst ⊢
        refine .inr ⟨?_, hlexeme, hfound⟩
        rcases hstreams hfirst with hcut | ⟨mid, hcut, hmid⟩
        · exact bind_of_error hcut
        · rw [bind_of_ok hcut, ← List.append_cancel_right hmid, hended]

theorem Final.bind {p : Reader α} {f : α → Reader β} (hp : Final p) (hf : ∀ a, Final (f a)) :
    Final (p >>= f) where
  streams := hp.streams.bind fun a => (hf a).streams
  finalAt s := (hp.finalAt s).bind hp.streams fun _ => (hf _).finalAt _

theorem FinalAt.pure (a : α) (s : List Char) : FinalAt (Pure.pure a : Reader α) s where
  suffix h := by
    cases h
    exact List.suffix_rfl
  extend h more := by
    cases h
    rfl
  schema := nofun

theorem FinalAt.fail (fault : Fault) (s : List Char) : FinalAt (fail fault : Reader α) s where
  suffix := nofun
  extend := nofun
  schema h := .inl fun _ => h

theorem FinalAt.map {p : Reader α} (f : α → β) {s : List Char} (hstreams : Streams p)
    (hp : FinalAt p s) : FinalAt (f <$> p) s := by
  show FinalAt (p >>= fun a => Pure.pure (f a)) s
  exact hp.bind hstreams fun _ => .pure _ _

/-! ## The parts of readers -/

theorem final_next : Final next where
  streams := streams_next
  finalAt s := {
    suffix h := by
      obtain rfl := next_eq_ok.mp h
      exact List.suffix_cons _ _
    extend h more := by
      obtain rfl := next_eq_ok.mp h
      rfl
    schema := by cases s <;> nofun }

theorem final_peek : Final peek where
  streams := streams_peek
  finalAt s := {
    suffix h := by
      obtain ⟨before, tail, -, -, -, rfl⟩ := peek_eq_ok.mp h
      exact List.suffix_append _ _
    extend h more := by
      obtain ⟨before, tail, hbefore, hc, rfl, rfl⟩ := peek_eq_ok.mp h
      exact peek_eq_ok.mpr ⟨before, tail ++ more, hbefore, hc, rfl, List.append_assoc ..⟩
    schema h := by
      rw [peek] at h
      split at h <;> cases h }

theorem final_utf16Unit : Final utf16Unit where
  streams := streams_utf16Unit
  finalAt s := {
    suffix h := by
      obtain ⟨digits, -, rfl⟩ := utf16Unit_eq_ok.mp h
      exact List.suffix_append _ _
    extend h more := by
      obtain ⟨digits, hdigits, rfl⟩ := utf16Unit_eq_ok.mp h
      exact utf16Unit_eq_ok.mpr ⟨digits, hdigits, List.append_assoc ..⟩
    schema h := by
      simp only [utf16Unit] at h
      split at h
      · cases h
      · split at h <;> cases h }

/-- A number is settled by what stands behind it. With nothing behind it the complaint is open. -/
theorem final_number (expected : String) :
    Final (number >>= fun found => fail (.schema (.wrongType found expected)) : Reader α) where
  streams := streams_number expected
  finalAt s := {
    suffix h := by
      obtain ⟨found, mid, -, hfail⟩ := bind_eq_ok.1 h
      cases hfail
    extend h := by
      obtain ⟨found, mid, -, hfail⟩ := bind_eq_ok.1 h
      cases hfail
    schema h := by
      rcases bind_eq_error.mp h with hnumber | ⟨found, rest, hnumber, hfail⟩
      · exact absurd hnumber settled_number.silent
      · cases hfail
        by_cases hrest : rest = []
        · subst hrest
          obtain ⟨lexeme, hlexeme, rfl⟩ := number_sound hnumber
          rw [List.append_nil] at hnumber ⊢
          have hnone : (number >>= fun found =>
              fail (.schema (.wrongType found expected)) : Reader α) [] = .error .ended := rfl
          exact .inr (.intro hnone hlexeme hnumber)
        · exact .inl fun more => bind_of_ok (settled_number.extend hnumber hrest more) }

/-! ## Loops -/

theorem chars_eq : (chars : Reader (List Char)) = next >>= fun c =>
    if c = '"' then pure []
    else if c = '\\' then escapedChar >>= fun c => (c :: ·) <$> (chars : Reader (List Char))
    else if c.toNat < 0x20 then fail .malformed
    else (c :: ·) <$> (chars : Reader (List Char)) := by
  funext s
  cases s with
  | nil =>
      rw [chars]
      rfl
  | cons c tail =>
      rw [bind_of_ok (next_eq_ok.mpr rfl)]
      split
      · next hquote =>
          rw [hquote, chars]
          rfl
      · next hquote =>
          split
          · next hslash =>
              rw [hslash]
              cases hescaped : escapedChar tail with
              | error fault => rw [chars_escape_error hescaped, bind_of_error hescaped]
              | ok got => rw [chars_escape hescaped, bind_of_ok hescaped, map_apply]
          · next hslash =>
              rw [chars_plain tail hquote hslash]
              split
              · rfl
              · rw [map_apply]

theorem entriesFrom_eq (first : Bool) :
    (entriesFrom first : Reader (List (String × String))) = entry? first >>= fun member? =>
      match member? with
      | none => pure []
      | some member => (member :: ·) <$> (entriesFrom false : Reader (List (String × String))) := by
  funext s
  rw [entriesFrom]
  split
  · next hfault => rw [bind_of_error hfault]
  · next hnone =>
      rw [bind_of_ok hnone]
      rfl
  · next member mid hsome =>
      rw [bind_of_ok hsome]
      exact (map_apply (entriesFrom false) (member :: ·) mid).symm

theorem final_chars (hescaped : Final escapedChar) : Final (chars : Reader (List Char)) where
  streams := streams_chars hescaped.streams
  finalAt s := by
    have hstreams := streams_chars hescaped.streams
    induction hlength : s.length using Nat.strongRecOn generalizing s with
    | ind n ih =>
        subst hlength
        -- One character or one escape, and the loop goes on with a shorter text.
        rw [chars_eq]
        refine (final_next.finalAt s).bind streams_next fun {c mid} hc => ?_
        have hmid := next_shorter hc
        split
        · exact .pure _ _
        · split
          · refine (hescaped.finalAt mid).bind hescaped.streams fun {d rest} hd => ?_
            have hrest := shrinks_escapedChar _ _ _ hd
            exact (ih rest.length (by omega) rest rfl).map _ hstreams
          · split
            · exact .fail _ _
            · exact (ih mid.length hmid mid rfl).map _ hstreams

theorem final_entriesFrom (hentry : ∀ first, Final ( entry? first)) (first : Bool) :
    Final (entriesFrom first) where
  streams := streams_entriesFrom (fun first => (hentry first).streams) first
  finalAt s := by
    have hstreams := streams_entriesFrom fun first => (hentry first).streams
    induction hlength : s.length using Nat.strongRecOn generalizing s first with
    | ind n ih =>
        subst hlength
        rw [entriesFrom_eq]
        have hfirst := (hentry first).finalAt s
        refine hfirst.bind (hentry first).streams fun {member? mid} hmember => ?_
        cases member? with
        | none => exact .pure _ _
        | some member =>
            have hmid := entry?_shorter hmember
            exact (ih mid.length hmid false mid rfl).map _ (hstreams false)

/-- Every reader of settings and tables is final. -/
theorem final_law : Law @Final where
  pure a := ⟨.pure a, .pure a⟩
  fail fault := ⟨.fail fault, .fail fault⟩
  bind := .bind
  next := final_next
  peek := final_peek
  utf16Unit := final_utf16Unit
  number := final_number
  chars := final_chars
  entriesFrom := final_entriesFrom

/-! ## Documents -/

theorem document_eq_schema {p : Reader α} {text : String} {complaint : Complaint} :
    document p text = .error (.schema complaint) ↔ p text.toList = .error (.schema complaint) := by
  rw [document]
  cases p text.toList with
  | error fault => simp [bind, Except.bind]
  | ok got =>
      show (if got.2.all isSpace then Except.ok got.1 else .error Fault.malformed) = _ ↔ _
      split <;> simp

theorem document_ended {p : Reader α} {text : String} (h : p text.toList = .error .ended) :
    document p text = .error .ended := by
  rw [document, h]
  rfl

end MipsWords.Json.Reader

namespace MipsWords

open Json
open Json.Reader

variable {α : Type}

/-- A file is complained about because of a number that it ends with, and only because of it:
without the number it has nothing wrong but that it ends too early. -/
def EndsInNumber (load : String → Except Error α) (text : String) (complaint : Complaint) : Prop :=
  ∃ before lexeme found expected, text = before ++ String.ofList lexeme ∧ NumberLexeme lexeme ∧
    number lexeme = .ok (found, []) ∧ complaint = .wrongType found expected ∧
    load before = .error (.json .ended)

/-- The complaint about a file is the same whatever is added behind it. -/
def IsFinal (load : String → Except Error α) (text : String) (complaint : Complaint) : Prop :=
  ∀ more, load (text ++ more) = .error (.json (.schema complaint))

theorem mapError_document_schema {p : Reader α} {text : String} {complaint : Complaint} :
    (document p text).mapError Error.json = .error (.json (.schema complaint)) ↔
      p text.toList = .error (.schema complaint) := by
  rw [← document_eq_schema]
  cases document p text <;> simp [Except.mapError]

/-- A document with a complaint has a final one, or ends in a number. -/
theorem document_final {p : Reader α} (hp : Final p) {text : String} {complaint : Complaint}
    (h : (document p text).mapError Error.json = .error (.json (.schema complaint))) :
    IsFinal (fun text => (document p text).mapError Error.json) text complaint ∨
      EndsInNumber (fun text => (document p text).mapError Error.json) text complaint := by
  rcases (hp.finalAt text.toList).schema (mapError_document_schema.mp h) with hmore | hopen
  · left
    intro more
    rw [mapError_document_schema, String.toList_append]
    exact hmore more.toList
  · right
    generalize htext : text.toList = s at hopen
    cases hopen with
    | @intro before lexeme found expected hended hlexeme hfound =>
        refine ⟨String.ofList before, lexeme, found, expected, ?_, hlexeme, hfound, rfl, ?_⟩
        · rw [← String.toList_inj, htext]
          simp
        · have hbefore : p (String.ofList before).toList = .error .ended := by
            rw [String.toList_ofList, hended]
          show (document p (String.ofList before)).mapError Error.json = _
          rw [document_ended hbefore]
          rfl

theorem Settings.ofJson_complaint {text : String} {complaint : Complaint}
    (h : ofJson text = .error (.json (.schema complaint))) :
    IsFinal ofJson text complaint ∨ EndsInNumber ofJson text complaint :=
  document_final final_law.settings h

theorem Table.ofJson_complaint {text : String} {complaint : Complaint}
    (h : ofJson text = .error (.json (.schema complaint))) :
    IsFinal ofJson text complaint ∨ EndsInNumber ofJson text complaint := by
  -- Keys are judged when the members have been read, and their errors are not complaints.
  have hread : ∀ {text : String} {e : Error}, Members.ofJson text = .error e →
      ofJson text = .error e := by
    intro text e h
    rw [ofJson, h]
    rfl
  have hmembers : Members.ofJson text = .error (.json (.schema complaint)) := by
    cases hmembers : Members.ofJson text with
    | error e =>
        have herror := hread hmembers
        rw [h] at herror
        cases herror
        rfl
    | ok members =>
        rw [ofJson, hmembers] at h
        obtain ⟨key, hkey⟩ := eq_tableKey_of_ofMembers h
        cases hkey
  rcases document_final final_law.table hmembers with hfinal | hopen
  · exact .inl fun more => hread (hfinal more)
  · obtain ⟨before, lexeme, found, expected, htext, hlexeme, hfound, hcomplaint, hended⟩ := hopen
    exact .inr ⟨before, lexeme, found, expected, htext, hlexeme, hfound, hcomplaint, hread hended⟩

/-- A complaint about the shape of a file is final, unless it is about a number at the very end of
it. That holds of its kind and its words, but not of the ` at line L column C` behind the words, which
is left out of them. -/
theorem ofJson_final (text : String) (complaint : Complaint) :
    (Settings.ofJson text = .error (.json (.schema complaint)) →
      IsFinal Settings.ofJson text complaint ∨ EndsInNumber Settings.ofJson text complaint) ∧
    (Table.ofJson text = .error (.json (.schema complaint)) →
      IsFinal Table.ofJson text complaint ∨ EndsInNumber Table.ofJson text complaint) :=
  ⟨Settings.ofJson_complaint, Table.ofJson_complaint⟩

/-- Whatever follows, a bad key that was read before and a missing brace do not count. -/
theorem ofJson_final_duplicate :
    (∀ more, Settings.ofJson ("\x7b\"disasm\":[\"octal\"" ++ more) =
      .error (.json (.schema (.unknownVariant "octal" ["decimal", "hex"])))) ∧
    ∀ more, Table.ofJson ("\x7b\"opcodes\":\x7b\"2\":\"j\"\x7d,\"opcodes\"" ++ more) =
      .error (.json (.schema (.duplicateField "opcodes"))) := by
  have hsettings : Settings.ofJson "\x7b\"disasm\":[\"octal\"" =
      .error (.json (.schema (.unknownVariant "octal" ["decimal", "hex"]))) := by decide +kernel
  have htable : Table.ofJson "\x7b\"opcodes\":\x7b\"2\":\"j\"\x7d,\"opcodes\"" =
      .error (.json (.schema (.duplicateField "opcodes"))) := by decide +kernel
  constructor
  · rcases (ofJson_final _ _).1 hsettings with hfinal | ⟨_, _, _, _, _, _, _, hcomplaint, _⟩
    · exact hfinal
    · cases hcomplaint
  · rcases (ofJson_final _ _).2 htable with hfinal | ⟨_, _, _, _, _, _, _, hcomplaint, _⟩
    · exact hfinal
    · cases hcomplaint

/-- A number at the end of a file may go on. -/
example :
    Settings.ofJson "[1" =
      .error (.json (.schema (.wrongType (.integer 1) "struct GeneralConfig"))) ∧
    Settings.ofJson ("[1" ++ "2") =
      .error (.json (.schema (.wrongType (.integer 12) "struct GeneralConfig"))) := by
  decide +kernel

end MipsWords
