import MipsWords.Error
import MipsWords.Proofs.Listing
import MipsWords.Proofs.Operands
import MipsWords.Proofs.Quoting

/-!
# The wording of an error tells which error it is

A message begins with words that go with the kind of the error. None of these
beginnings begins another, so the kind shows whatever follows. What follows are
the parts of the payload, and each can be told from what stands behind it:
quoted text ends at its quote, and numerals, which hold no blank, at the blank
behind them or at the end. So the payload shows as well.

Two kinds are left out: a fault of a JSON text and a file that cannot be read
come with words from elsewhere.
-/

namespace MipsWords

/-! ## Numerals -/

namespace Numeral

theorem decimal_injective {n m : Nat} (h : decimal n = decimal m) : n = m :=
  padded_injective (by decide) (by decide) (String.ofList_injective h)

theorem binary_injective {width n m : Nat} (h : binary width n = binary width m) : n = m :=
  padded_injective (by decide) (by decide) (String.ofList_injective h)

theorem hasControl_decimal (n : Nat) : Text.hasControl (decimal n) = false := by
  rw [Text.hasControl, Operand.toList_decimal, any_isControl_padded (by decide) (by decide)]

theorem hasControl_binary (width n : Nat) : Text.hasControl (binary width n) = false := by
  rw [Text.hasControl, toList_binary, any_isControl_padded (by decide) (by decide)]

end Numeral

/-! ## Queries -/

namespace Query

/-- What the words for a query go on with behind its opcode. -/
def functionWords : Option Nat → String
  | none => ""
  | some code => " function " ++ Numeral.binary 6 code

theorem describe_eq (q : Query) :
    q.describe = "opcode " ++ (Numeral.binary 6 q.opcode ++ functionWords q.function?) := by
  obtain ⟨opcode, function?⟩ := q
  cases function? with
  | none =>
      show _ = "opcode " ++ (Numeral.binary 6 opcode ++ "")
      rw [String.append_empty]
      rfl
  | some code =>
      show "opcode " ++ Numeral.binary 6 opcode ++ " function " ++ Numeral.binary 6 code =
        "opcode " ++ (Numeral.binary 6 opcode ++ (" function " ++ Numeral.binary 6 code))
      rw [String.append_assoc, String.append_assoc]

theorem takeWhile_functionWords (function? : Option Nat) :
    (functionWords function?).toList.takeWhile (· ≠ ' ') = [] := by
  cases function? with
  | none => rfl
  | some code =>
      have hwords : " function ".toList = ' ' :: "function ".toList := by decide
      rw [functionWords, String.toList_append, hwords]
      rfl

theorem functionWords_injective {function? function?' : Option Nat}
    (h : functionWords function? = functionWords function?') : function? = function?' := by
  have hne : ∀ code, functionWords (some code) ≠ functionWords none := fun code heq =>
    absurd (String.append_eq_empty_iff.mp heq).1 (by decide)
  cases function? with
  | none =>
      cases function?' with
      | none => rfl
      | some code => exact absurd h.symm (hne code)
  | some code =>
      cases function?' with
      | none => exact absurd h (hne code)
      | some code' => rw [Numeral.binary_injective (String.append_right_inj _ |>.mp h)]

theorem describe_injective {q q' : Query} (h : q.describe = q'.describe) : q = q' := by
  rw [describe_eq, describe_eq, String.append_right_inj, ← String.toList_inj,
    String.toList_append, String.toList_append, Numeral.toList_binary, Numeral.toList_binary] at h
  have hdigits : ∀ n, ∀ c ∈ Numeral.padded 2 6 n, decide (c ≠ ' ') = true :=
    fun _ => Numeral.ne_blank_of_mem_padded (by decide) (by decide)
  obtain ⟨hopcode, hfunction⟩ := append_inj_of_takeWhile (hdigits _) (hdigits _)
    (takeWhile_functionWords _) (takeWhile_functionWords _) h
  cases q
  cases q'
  rw [Query.mk.injEq]
  exact ⟨Numeral.padded_injective (by decide) (by decide) hopcode,
    functionWords_injective (String.toList_injective hfunction)⟩

theorem hasControl_describe (q : Query) : Text.hasControl q.describe = false := by
  have hfunction : Text.hasControl (functionWords q.function?) = false := by
    cases q.function? with
    | none => rfl
    | some code =>
        rw [functionWords, Text.hasControl_append, Numeral.hasControl_binary]
        decide
  rw [describe_eq, Text.hasControl_append, Text.hasControl_append, Numeral.hasControl_binary,
    hfunction]
  decide

end Query

/-! ## Errors -/

namespace Error

/-- An error without its payload. -/
inductive Kind where
  | wordLength | bitCharacter | hexWord | registerCode | registerName | unknownMnemonic | tableKey
  | json | unreadable

/-- The variant of an error. -/
def kind : Error → Kind
  | .wordLength _ => .wordLength
  | .bitCharacter .. => .bitCharacter
  | .hexWord _ => .hexWord
  | .registerCode _ => .registerCode
  | .registerName _ => .registerName
  | .unknownMnemonic _ => .unknownMnemonic
  | .tableKey _ => .tableKey
  | .json _ => .json
  | .unreadable .. => .unreadable

/-- The words that the messages of a kind begin with. -/
def Kind.stem : Kind → String
  | wordLength => "instruction word must be 32 bits, got "
  | bitCharacter => "invalid bit character "
  | hexWord => "invalid hexadecimal instruction word "
  | registerCode => "unknown register code "
  | registerName => "unknown register name "
  | unknownMnemonic => "no mnemonic for "
  | tableKey => "invalid table key "
  | json => "malformed JSON: "
  | unreadable => "failed to read "

/-- What a message goes on with behind its first words. -/
def detail : Error → String
  | .wordLength found => Numeral.decimal found
  | .bitCharacter character position =>
    Quoted.character character ++ (" at position " ++ Numeral.decimal position)
  | .hexWord text => Quoted.string text
  | .registerCode code => Numeral.decimal code
  | .registerName name => Quoted.string name
  | .unknownMnemonic query => query.describe
  | .tableKey key => Quoted.string key ++ ", expected six binary digits"
  | .json fault => fault.message
  | .unreadable path failure => path ++ (": " ++ failure.reason)

/-- The kinds with no words from elsewhere in their messages. -/
def Kind.isOwn : Kind → Bool
  | json | unreadable => false
  | wordLength | bitCharacter | hexWord | registerCode | registerName | unknownMnemonic
  | tableKey => true

theorem message_eq (e : Error) : e.message = e.kind.stem ++ e.detail := by
  cases e with
  | wordLength | hexWord | registerCode | registerName | unknownMnemonic | json => rfl
  | bitCharacter character position =>
      show "invalid bit character " ++ Quoted.character character ++ " at position " ++
        Numeral.decimal position = _ ++ (_ ++ (_ ++ _))
      rw [String.append_assoc, String.append_assoc]
      rfl
  | tableKey key =>
      show "invalid table key " ++ Quoted.string key ++ ", expected six binary digits" =
        _ ++ (_ ++ _)
      rw [String.append_assoc]
      rfl
  | unreadable path failure =>
      show "failed to read " ++ path ++ ": " ++ failure.reason = _ ++ (_ ++ (_ ++ _))
      rw [String.append_assoc, String.append_assoc]
      rfl

/-- No message of another kind begins with the first words of a kind. -/
theorem Kind.eq_of_stem_prefix {k k' : Kind} (h : k.stem.toList <+: k'.stem.toList) : k = k' := by
  cases k <;> cases k' <;> first | rfl | exact absurd h (by decide)

theorem kind_eq_of_message_eq {e e' : Error} (h : e.message = e'.message) : e.kind = e'.kind := by
  have hstem : ∀ e : Error, e.kind.stem.toList <+: e.message.toList := fun e => by
    rw [message_eq, String.toList_append]
    exact List.prefix_append _ _
  rcases List.prefix_or_prefix_of_prefix (hstem e) (h ▸ hstem e') with hfirst | hsecond
  · exact Kind.eq_of_stem_prefix hfirst
  · exact (Kind.eq_of_stem_prefix hsecond).symm

/-- Behind the words of its kind, the payload of an error shows. -/
theorem eq_of_detail_eq {e e' : Error} (hown : e.kind.isOwn = true) (hkind : e.kind = e'.kind)
    (h : e.detail = e'.detail) : e = e' := by
  have hquoted : ∀ {s t tail : String},
      Quoted.string s ++ tail = Quoted.string t ++ tail → s = t := by
    intro s t tail heq
    rw [← String.toList_inj, String.toList_append, String.toList_append] at heq
    exact (Quoted.string_append_inj heq).1
  have hquoted_alone : ∀ {s t : String}, Quoted.string s = Quoted.string t → s = t :=
    fun {s t} heq => hquoted (congrArg (· ++ "") heq)
  cases e <;> cases e' <;> try cases hkind
  case wordLength.wordLength found found' => rw [Numeral.decimal_injective h]
  case bitCharacter.bitCharacter character position character' position' =>
    simp only [detail, ← String.toList_inj, String.toList_append] at h
    obtain ⟨rfl, hposition⟩ := Quoted.character_append_inj h
    have hdecimal := String.toList_injective (List.append_cancel_left hposition)
    rw [Numeral.decimal_injective hdecimal]
  case hexWord.hexWord text text' => rw [hquoted_alone h]
  case registerCode.registerCode code code' => rw [Numeral.decimal_injective h]
  case registerName.registerName name name' => rw [hquoted_alone h]
  case unknownMnemonic.unknownMnemonic query query' => rw [Query.describe_injective h]
  case tableKey.tableKey key key' => rw [hquoted h]
  case json.json => cases hown
  case unreadable.unreadable => cases hown

theorem hasControl_message {e : Error} (hown : e.kind.isOwn = true) :
    Text.hasControl e.message = false := by
  have hstem : Text.hasControl e.kind.stem = false := by
    cases e.kind <;> rfl
  rw [message_eq, Text.hasControl_append, hstem, Bool.false_or]
  cases e with
  | wordLength found => exact Numeral.hasControl_decimal found
  | bitCharacter character position =>
      rw [detail, Text.hasControl_append, Text.hasControl_append, Quoted.hasControl_character,
        Numeral.hasControl_decimal]
      rfl
  | hexWord text => exact Quoted.hasControl_string text
  | registerCode code => exact Numeral.hasControl_decimal code
  | registerName name => exact Quoted.hasControl_string name
  | unknownMnemonic query => exact Query.hasControl_describe query
  | tableKey key =>
      rw [detail, Text.hasControl_append, Quoted.hasControl_string]
      rfl
  | json => cases hown
  | unreadable => cases hown

/-- An error with no words from elsewhere has the message of no other error, of another kind or
with another payload, and whatever the payload holds, the message is one line without a control in
it. -/
theorem message_identifies {e : Error} (hown : e.kind.isOwn = true) :
    (∀ e' : Error, e.message = e'.message ↔ e = e') ∧
      ∀ c ∈ e.message.toList, c ≠ '\n' ∧ Text.isControl c = false := by
  refine ⟨fun e' => ⟨fun h => ?_, fun h => by rw [h]⟩, fun c hc => ?_⟩
  · have hkind := kind_eq_of_message_eq h
    rw [message_eq, message_eq, hkind] at h
    exact eq_of_detail_eq hown hkind (String.append_right_inj _ |>.mp h)
  · have hcontrol : Text.isControl c = false := by
      simpa using List.any_eq_false.mp (hasControl_message hown) c hc
    refine ⟨?_, hcontrol⟩
    rintro rfl
    cases hcontrol

/-- A line feed, and the two characters that stand for it between quotes. -/
theorem message_identifies_escape :
    let e := hexWord "0x\n"
    e.kind.isOwn = true ∧ e.message = "invalid hexadecimal instruction word \"0x\\n\"" ∧
      e.message ≠ (hexWord "0x\\n").message ∧
      ∀ c ∈ e.message.toList, c ≠ '\n' ∧ Text.isControl c = false := by
  intro e
  have hown : e.kind.isOwn = true := rfl
  obtain ⟨hsame, hcontrol⟩ := message_identifies hown
  have hne : e ≠ hexWord "0x\\n" := by decide
  exact ⟨hown, by decide +kernel, fun h => hne ((hsame _).mp h), hcontrol⟩

end Error

end MipsWords
