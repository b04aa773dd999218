import MipsWords.Proofs.Spelling.Respelling
import MipsWords.Proofs.Spelling.Unique

/-!
# What a settings file says

A settings file is read into the settings it stands for, section by section and
field by field, and each of these readings is an effect: a field puts the value
that is read in the place of the one held, and a section does so with the fields
that it gives. Effects of different fields commute, since they write different
fields of the settings. So a file comes to what the schema says, whatever the
order of its keys.
-/

namespace MipsWords.Settings

open Json
open Json.Reader

/-! ## Sections over settings that hold something -/

/-- What a section `general` leaves of a trace flag that was `held`. -/
def GeneralOver (held trace : Bool) (v : Value) : Prop :=
  v.IsRecord ["trace"] ∧ Given (fun b v => v = .boolean b) held trace (v.part? ["trace"] "trace")

/-- What a section `disasm` leaves of a style that was `held`. -/
def StyleOver (held style : Style) (v : Value) : Prop :=
  let keys := ["immediate_radix", "target_radix"]
  v.IsRecord keys ∧
    Given DenotesRadix held.immediate style.immediate (v.part? keys "immediate_radix") ∧
    Given DenotesRadix held.target style.target (v.part? keys "target_radix")

/-- What a section `table` leaves of a path that was `held`. -/
def PathOver (held path? : Option String) (v : Value) : Prop :=
  v.IsRecord ["path"] ∧ Given DenotesPath held path? (v.part? ["path"] "path")

/-! ## Effects -/

/-- What a member of the section `general` does to settings. -/
def generalEffect : Effect Settings := fun key v s s' =>
  key = "trace" ∧ ∃ b, v = .boolean b ∧ s' = { s with trace := b }

/-- What a member of the section `disasm` does to settings. -/
def styleEffect : Effect Settings := fun key v s s' =>
  (key = "immediate_radix" ∧
    ∃ r, DenotesRadix r v ∧ s' = { s with style := { s.style with immediate := r } }) ∨
  (key = "target_radix" ∧
    ∃ r, DenotesRadix r v ∧ s' = { s with style := { s.style with target := r } })

/-- What a member of the section `table` does to settings. -/
def tableEffect : Effect Settings := fun key v s s' =>
  key = "path" ∧ ∃ path?, DenotesPath path? v ∧ s' = { s with tablePath? := path? }

/-- What a section does to settings, which are its defaults as well. -/
def sectionEffect : Effect Settings := fun key v s s' =>
  (key = "general" ∧ ∃ b, GeneralOver s.trace b v ∧ s' = { s with trace := b }) ∨
  (key = "disasm" ∧ ∃ style, StyleOver s.style style v ∧ s' = { s with style := style }) ∨
  (key = "table" ∧ ∃ path?, PathOver s.tablePath? path? v ∧ s' = { s with tablePath? := path? })

theorem commutes_generalEffect : generalEffect.Commutes := Effect.commutes_of_key And.left

theorem commutes_tableEffect : tableEffect.Commutes := Effect.commutes_of_key And.left

theorem commutes_styleEffect : styleEffect.Commutes := by
  rintro key key' v v' s mid s' hne (⟨rfl, r, hr, rfl⟩ | ⟨rfl, r, hr, rfl⟩)
    (⟨rfl, r', hr', rfl⟩ | ⟨rfl, r', hr', rfl⟩)
  · exact absurd rfl hne
  · exact ⟨_, .inr ⟨rfl, r', hr', rfl⟩, .inl ⟨rfl, r, hr, rfl⟩⟩
  · exact ⟨_, .inl ⟨rfl, r', hr', rfl⟩, .inr ⟨rfl, r, hr, rfl⟩⟩
  · exact absurd rfl hne

theorem commutes_sectionEffect : sectionEffect.Commutes := by
  rintro key key' v v' s mid s' hne
    (⟨rfl, b, hb, rfl⟩ | ⟨rfl, style, hstyle, rfl⟩ | ⟨rfl, path?, hpath, rfl⟩)
    (⟨rfl, b', hb', rfl⟩ | ⟨rfl, style', hstyle', rfl⟩ | ⟨rfl, path?', hpath', rfl⟩)
  · exact absurd rfl hne
  · exact ⟨_, .inr (.inl ⟨rfl, style', hstyle', rfl⟩), .inl ⟨rfl, b, hb, rfl⟩⟩
  · exact ⟨_, .inr (.inr ⟨rfl, path?', hpath', rfl⟩), .inl ⟨rfl, b, hb, rfl⟩⟩
  · exact ⟨_, .inl ⟨rfl, b', hb', rfl⟩, .inr (.inl ⟨rfl, style, hstyle, rfl⟩)⟩
  · exact absurd rfl hne
  · exact ⟨_, .inr (.inr ⟨rfl, path?', hpath', rfl⟩), .inr (.inl ⟨rfl, style, hstyle, rfl⟩)⟩
  · exact ⟨_, .inl ⟨rfl, b', hb', rfl⟩, .inr (.inr ⟨rfl, path?, hpath, rfl⟩)⟩
  · exact ⟨_, .inr (.inl ⟨rfl, style', hstyle', rfl⟩), .inr (.inr ⟨rfl, path?, hpath, rfl⟩)⟩
  · exact absurd rfl hne

/-! ## Fields -/

theorem picked?_eq_some {name : String} {r : Radix} :
    picked? [("decimal", Radix.decimal), ("hex", .hex)] name = some r ↔ name = r.text := by
  by_cases hdecimal : name = "decimal"
  · subst hdecimal
    cases r <;> decide
  · by_cases hhex : name = "hex"
    · subst hhex
      cases r <;> decide
    · cases r <;> simp [picked?, Radix.text, hdecimal, hhex, Ne.symm hdecimal, Ne.symm hhex]

theorem accepts_radix : Accepts radix DenotesRadix := by
  refine (accepts_choice _).congr fun r v => ?_
  simp only [picked?_eq_some, exists_eq_left, DenotesRadix]

theorem accepts_path : Accepts (text? "path string") DenotesPath := by
  refine (accepts_text? _).congr fun path? v => ?_
  cases path? <;> rfl

theorem read_generalFields : Read generalFields generalEffect := by
  refine List.forall_mem_singleton.mpr fun s => (accepts_boolean.put _).congr fun s' v => ?_
  simp [generalEffect]

theorem read_styleFields : Read disasmFields styleEffect := by
  refine List.forall_mem_cons.mpr ⟨fun s => ?_, List.forall_mem_singleton.mpr fun s => ?_⟩
  · refine (accepts_radix.put _).congr fun s' v => ?_
    simp [styleEffect]
  · refine (accepts_radix.put _).congr fun s' v => ?_
    simp [styleEffect]

theorem read_tableFields : Read tableFields tableEffect := by
  refine List.forall_mem_singleton.mpr fun s => (accepts_path.put _).congr fun s' v => ?_
  simp [tableEffect]

/-! ## Sections -/

theorem run_generalEffect {v : Value} {s s' : Settings} :
    generalEffect.Run (v.given ["trace"]) s s' ↔
      ∃ b, Given (fun b v => v = .boolean b) s.trace b (v.part? ["trace"] "trace") ∧
        s' = { s with trace := b } := by
  rw [Value.given, Effect.run_filterMap_cons]
  simp only [List.filterMap_nil, Effect.run_nil, exists_eq_right']
  exact Effect.part_iff (fun w s' => by simp [generalEffect]) rfl

theorem part_immediate {part? : Option Value} {s s' : Settings} :
    styleEffect.Part "immediate_radix" part? s s' ↔
      ∃ r, Given DenotesRadix s.style.immediate r part? ∧
        s' = { s with style := { s.style with immediate := r } } :=
  Effect.part_iff (fun v s' => by simp [styleEffect]) rfl

theorem part_target {part? : Option Value} {s s' : Settings} :
    styleEffect.Part "target_radix" part? s s' ↔
      ∃ r, Given DenotesRadix s.style.target r part? ∧
        s' = { s with style := { s.style with target := r } } :=
  Effect.part_iff (fun v s' => by simp [styleEffect]) rfl

theorem run_styleEffect {v : Value} {s s' : Settings} :
    let keys := ["immediate_radix", "target_radix"]
    styleEffect.Run (v.given keys) s s' ↔
      ∃ style : Style,
        (Given DenotesRadix s.style.immediate style.immediate (v.part? keys "immediate_radix") ∧
          Given DenotesRadix s.style.target style.target (v.part? keys "target_radix")) ∧
        s' = { s with style := style } := by
  intro keys
  rw [Value.given, Effect.run_filterMap_cons]
  simp only [Effect.run_filterMap_cons, List.filterMap_nil, Effect.run_nil, exists_eq_right']
  constructor
  · rintro ⟨mid, hfirst, hsecond⟩
    obtain ⟨r, hr, rfl⟩ := part_immediate.mp hfirst
    obtain ⟨r', hr', rfl⟩ := part_target.mp hsecond
    exact ⟨⟨r, r'⟩, ⟨hr, hr'⟩, rfl⟩
  · rintro ⟨⟨r, r'⟩, ⟨hr, hr'⟩, rfl⟩
    exact ⟨_, part_immediate.mpr ⟨r, hr, rfl⟩, part_target.mpr ⟨r', hr', rfl⟩⟩

theorem run_tableEffect {v : Value} {s s' : Settings} :
    tableEffect.Run (v.given ["path"]) s s' ↔
      ∃ path?, Given DenotesPath s.tablePath? path? (v.part? ["path"] "path") ∧
        s' = { s with tablePath? := path? } := by
  rw [Value.given, Effect.run_filterMap_cons]
  simp only [List.filterMap_nil, Effect.run_nil, exists_eq_right']
  exact Effect.part_iff (fun w s' => by simp [tableEffect]) rfl

theorem sectionEffect_general {v : Value} {s s' : Settings} :
    sectionEffect "general" v s s' ↔
      ∃ b, GeneralOver s.trace b v ∧ s' = { s with trace := b } := by
  simp [sectionEffect]

theorem sectionEffect_disasm {v : Value} {s s' : Settings} :
    sectionEffect "disasm" v s s' ↔
      ∃ style, StyleOver s.style style v ∧ s' = { s with style := style } := by
  simp [sectionEffect]

theorem sectionEffect_table {v : Value} {s s' : Settings} :
    sectionEffect "table" v s s' ↔
      ∃ path?, PathOver s.tablePath? path? v ∧ s' = { s with tablePath? := path? } := by
  simp [sectionEffect]

theorem read_sections : Read sections sectionEffect := by
  refine List.forall_mem_cons.mpr ⟨fun s => ?_, List.forall_mem_cons.mpr ⟨fun s => ?_,
    List.forall_mem_singleton.mpr fun s => ?_⟩⟩
  · have h := accepts_record read_generalFields commutes_generalEffect (by decide) "GeneralConfig" s
    refine h.congr fun s' v => (and_congr_right fun _ => run_generalEffect).trans ?_
    rw [sectionEffect_general]
    simp only [GeneralOver, and_assoc, exists_and_left]
    rfl
  · have h := accepts_record read_styleFields commutes_styleEffect (by decide) "DisasmConfig" s
    refine h.congr fun s' v => (and_congr_right fun _ => run_styleEffect).trans ?_
    rw [sectionEffect_disasm]
    simp only [StyleOver, and_assoc, exists_and_left]
    rfl
  · have h := accepts_record read_tableFields commutes_tableEffect (by decide) "TableConfig" s
    refine h.congr fun s' v => (and_congr_right fun _ => run_tableEffect).trans ?_
    rw [sectionEffect_table]
    simp only [PathOver, and_assoc, exists_and_left]
    rfl

/-- Over the defaults, the sections together leave what the schema says. -/
theorem accepts_sections : Accepts (record "Config" sections {}) Denotes := by
  have h := accepts_record read_sections commutes_sectionEffect (by decide) "Config" {}
  refine h.congr fun s v => and_congr_right fun _ => ?_
  show sectionEffect.Run (v.given ["general", "disasm", "table"]) {} s ↔ _
  rw [Value.given]
  simp only [Effect.run_filterMap_cons, List.filterMap_nil, Effect.run_nil, exists_eq_right']
  constructor
  · rintro ⟨mid, hgeneral, mid', hdisasm, htable⟩
    obtain ⟨b, hb, rfl⟩ := (Effect.part_iff (fun _ _ => sectionEffect_general) rfl).mp hgeneral
    obtain ⟨style, hstyle, rfl⟩ := (Effect.part_iff (fun _ _ => sectionEffect_disasm) rfl).mp hdisasm
    obtain ⟨path?, hpath, rfl⟩ := (Effect.part_iff (fun _ _ => sectionEffect_table) rfl).mp htable
    exact ⟨hb, hstyle, hpath⟩
  · rintro ⟨hb, hstyle, hpath⟩
    refine ⟨_, (Effect.part_iff (fun _ _ => sectionEffect_general) rfl).mpr ⟨s.trace, hb, rfl⟩,
      _, (Effect.part_iff (fun _ _ => sectionEffect_disasm) rfl).mpr ⟨s.style, hstyle, rfl⟩,
      (Effect.part_iff (fun _ _ => sectionEffect_table) rfl).mpr ⟨s.tablePath?, hpath, rfl⟩⟩

theorem ofJson_eq_ok_iff {text : String} {s : Settings} :
    ofJson text = .ok s ↔ ∃ v, SpelledDocument v text.toList ∧ Denotes s v :=
  mapError_eq_ok.trans (document_accepts accepts_sections)

/-- A text that is a document loads as what its value denotes. -/
theorem ofJson_eq_ok_iff_denotes {text : String} {v : Value} {s : Settings}
    (h : SpelledDocument v text.toList) : ofJson text = .ok s ↔ Denotes s v := by
  rw [ofJson_eq_ok_iff]
  constructor
  · rintro ⟨w, hw, hs⟩
    exact hw.unique h ▸ hs
  · exact fun hs => ⟨v, h, hs⟩

/-! ## A value denotes one -/

theorem leftUnique_given {α : Type} {denotes : α → Value → Prop} (h : Relator.LeftUnique denotes)
    {default : α} : Relator.LeftUnique (Given denotes default) := by
  intro a b part? ha hb
  cases part? with
  | none => exact ha.trans hb.symm
  | some v => exact h ha hb

/-- A part that denotes the default can as well be left out. -/
theorem given_some_iff {α : Type} {denotes : α → Value → Prop} (h : Relator.LeftUnique denotes)
    {default a : α} {v : Value} (hv : denotes default v) :
    Given denotes default a (some v) ↔ Given denotes default a none := by
  constructor
  · exact fun ha => h ha hv
  · rintro rfl
    exact hv

theorem leftUnique_boolean : Relator.LeftUnique fun (b : Bool) v => v = Value.boolean b := by
  rintro b b' v rfl h
  exact Value.boolean.inj h

theorem text_injective : Function.Injective Radix.text := by
  intro r r' h
  cases r <;> cases r' <;> first | rfl | exact absurd h (by decide)

theorem leftUnique_radix : Relator.LeftUnique DenotesRadix := by
  rintro r r' v (rfl | rfl) (h | h)
  · exact text_injective (Value.string.inj h)
  · cases h
  · cases h
  · exact text_injective (by simpa using h)

theorem leftUnique_path : Relator.LeftUnique DenotesPath := by
  intro path? path?' v h h'
  cases path? <;> cases path?' <;> simp_all [DenotesPath]

theorem leftUnique_general : Relator.LeftUnique DenotesGeneral :=
  fun _ _ _ h h' => leftUnique_given leftUnique_boolean h.2 h'.2

theorem leftUnique_style : Relator.LeftUnique DenotesStyle := by
  rintro ⟨r, t⟩ ⟨r', t'⟩ v ⟨-, hr, ht⟩ ⟨-, hr', ht'⟩
  obtain rfl : r = r' := leftUnique_given leftUnique_radix hr hr'
  obtain rfl : t = t' := leftUnique_given leftUnique_radix ht ht'
  rfl

theorem leftUnique_table : Relator.LeftUnique DenotesTable :=
  fun _ _ _ h h' => leftUnique_given leftUnique_path h.2 h'.2

/-! ## Spellings of the same settings -/

/-- A value that says of a key what holds without it. -/
inductive IsDefault : String → Value → Prop where
  | trace : IsDefault "trace" (.boolean false)
  | immediate {v : Value} : DenotesRadix .decimal v → IsDefault "immediate_radix" v
  | target {v : Value} : DenotesRadix .hex v → IsDefault "target_radix" v
  | path : IsDefault "path" .null
  | general {v : Value} : DenotesGeneral false v → IsDefault "general" v
  | disasm {v : Value} : DenotesStyle {} v → IsDefault "disasm" v
  | table {v : Value} : DenotesTable none v → IsDefault "table" v

/-- Two spellings of a radix. -/
def RespelledRadix (v v' : Value) : Prop := ∃ r, DenotesRadix r v ∧ DenotesRadix r v'

theorem RespelledRadix.denotes_iff {v v' : Value} (h : RespelledRadix v v') (r : Radix) :
    DenotesRadix r v ↔ DenotesRadix r v' := by
  obtain ⟨r', hv, hv'⟩ := h
  constructor
  · exact fun hr => leftUnique_radix hr hv ▸ hv'
  · exact fun hr => leftUnique_radix hr hv' ▸ hv

/-- One change to the spelling of a section. -/
inductive RespelledSection : String → Value → Value → Prop where
  | general {v v' : Value} : Respelled ["trace"] IsDefault (fun _ _ _ => False) v v' →
      RespelledSection "general" v v'
  | disasm {v v' : Value} :
      Respelled ["immediate_radix", "target_radix"] IsDefault (fun _ => RespelledRadix) v v' →
      RespelledSection "disasm" v v'
  | table {v v' : Value} : Respelled ["path"] IsDefault (fun _ _ _ => False) v v' →
      RespelledSection "table" v v'

/-- One change to the spelling of a settings file, to the file itself or to one of its sections. -/
abbrev RespelledFile : Value → Value → Prop :=
  Respelled ["general", "disasm", "table"] IsDefault RespelledSection

/-! What the schema says, as what it asks of each part. -/

/-- What the schema asks of a part of the section `general`. -/
def asksGeneral (trace : Bool) (key : String) (part? : Option Value) : Prop :=
  key = "trace" → Given (fun b v => v = .boolean b) false trace part?

/-- What the schema asks of a part of the section `disasm`. -/
def asksStyle (style : Style) (key : String) (part? : Option Value) : Prop :=
  (key = "immediate_radix" → Given DenotesRadix .decimal style.immediate part?) ∧
  (key = "target_radix" → Given DenotesRadix .hex style.target part?)

/-- What the schema asks of a part of the section `table`. -/
def asksTable (path? : Option String) (key : String) (part? : Option Value) : Prop :=
  key = "path" → Given DenotesPath none path? part?

/-- What the schema asks of a section. -/
def asksFile (s : Settings) (key : String) (part? : Option Value) : Prop :=
  (key = "general" → Given DenotesGeneral false s.trace part?) ∧
  (key = "disasm" → Given DenotesStyle {} s.style part?) ∧
  (key = "table" → Given DenotesTable none s.tablePath? part?)

theorem denotesGeneral_iff {trace : Bool} {v : Value} :
    DenotesGeneral trace v ↔ Meets ["trace"] (asksGeneral trace) v := by
  simp [Meets, asksGeneral, DenotesGeneral]

theorem denotesStyle_iff {style : Style} {v : Value} :
    DenotesStyle style v ↔ Meets ["immediate_radix", "target_radix"] (asksStyle style) v := by
  simp [Meets, asksStyle, DenotesStyle]

theorem denotesTable_iff {path? : Option String} {v : Value} :
    DenotesTable path? v ↔ Meets ["path"] (asksTable path?) v := by
  simp [Meets, asksTable, DenotesTable]

theorem denotes_iff {s : Settings} {v : Value} :
    Denotes s v ↔ Meets ["general", "disasm", "table"] (asksFile s) v := by
  simp [Meets, asksFile, Denotes]

theorem respelled_general {trace : Bool} {v v' : Value}
    (h : Respelled ["trace"] IsDefault (fun _ _ _ => False) v v') :
    DenotesGeneral trace v ↔ DenotesGeneral trace v' := by
  rw [denotesGeneral_iff, denotesGeneral_iff]
  refine h.meets_iff (by decide) (fun key w hw => ?_) fun _ _ _ h => h.elim
  cases hw <;> simp [asksGeneral, given_some_iff leftUnique_boolean]

theorem respelled_style {style : Style} {v v' : Value}
    (h : Respelled ["immediate_radix", "target_radix"] IsDefault (fun _ => RespelledRadix) v v') :
    DenotesStyle style v ↔ DenotesStyle style v' := by
  rw [denotesStyle_iff, denotesStyle_iff]
  refine h.meets_iff (by decide) (fun key w hw => ?_) fun key w w' hw => ?_
  · cases hw with
    | immediate hw => simp [asksStyle, given_some_iff leftUnique_radix hw]
    | target hw => simp [asksStyle, given_some_iff leftUnique_radix hw]
    | trace | path | general _ | disasm _ | table _ => simp [asksStyle]
  · simp only [asksStyle, Given, hw.denotes_iff]

theorem respelled_table {path? : Option String} {v v' : Value}
    (h : Respelled ["path"] IsDefault (fun _ _ _ => False) v v') :
    DenotesTable path? v ↔ DenotesTable path? v' := by
  rw [denotesTable_iff, denotesTable_iff]
  refine h.meets_iff (by decide) (fun key w hw => ?_) fun _ _ _ h => h.elim
  have hnull : DenotesPath none .null := rfl
  cases hw <;> simp [asksTable, given_some_iff leftUnique_path hnull]

theorem respelled_file {s : Settings} {v v' : Value} (h : RespelledFile v v') :
    Denotes s v ↔ Denotes s v' := by
  rw [denotes_iff, denotes_iff]
  refine h.meets_iff (by decide) (fun key w hw => ?_) fun key w w' hw => ?_
  · cases hw with
    | general hw => simp [asksFile, given_some_iff leftUnique_general hw]
    | disasm hw => simp [asksFile, given_some_iff leftUnique_style hw]
    | table hw => simp [asksFile, given_some_iff leftUnique_table hw]
    | trace | path | immediate _ | target _ => simp [asksFile]
  · cases hw with
    | general hw => simp [asksFile, Given, respelled_general hw]
    | disasm hw => simp [asksFile, Given, respelled_style hw]
    | table hw => simp [asksFile, Given, respelled_table hw]

/-- However often a settings file is respelled, it says the same. -/
theorem denotes_iff_of_eqvGen {s : Settings} {v v' : Value}
    (h : Relation.EqvGen RespelledFile v v') : Denotes s v ↔ Denotes s v' := by
  induction h with
  | rel _ _ h => exact respelled_file h
  | refl _ => rfl
  | symm _ _ _ ih => exact ih.symm
  | trans _ _ _ _ _ ih ih' => exact ih.trans ih'

/-! ## Settings have a file -/

/-- Settings written out in full, as arrays. -/
def value (s : Settings) : Value :=
  .array [.array [.boolean s.trace],
    .array [.string s.style.immediate.text, .string s.style.target.text],
    .array [s.tablePath?.elim .null .string]]

theorem denotes_value (s : Settings) : Denotes s s.value := by
  have hpath : DenotesPath s.tablePath? (s.tablePath?.elim .null .string) := by
    cases s.tablePath? <;> rfl
  refine ⟨by simp [value, Value.IsRecord], ⟨by simp [Value.IsRecord], rfl⟩,
    ⟨by simp [Value.IsRecord], .inl rfl, .inl rfl⟩, ⟨by simp [Value.IsRecord], hpath⟩⟩

theorem exists_spelled_value (s : Settings) : ∃ text, Spelled s.value text := by
  have hboolean : ∃ text, Spelled (.boolean s.trace) text := by
    cases s.trace
    · exact ⟨_, .falseWord⟩
    · exact ⟨_, .trueWord⟩
  have hstring (str : String) : ∃ text, Spelled (.string str) text := by
    obtain ⟨text, htext⟩ := exists_spelledString str
    exact ⟨text, .string htext⟩
  have hpath : ∃ text, Spelled (s.tablePath?.elim .null .string) text := by
    cases s.tablePath? with
    | none => exact ⟨_, .null⟩
    | some path => exact hstring path
  refine exists_spelled_array ?_
  simp only [List.forall_mem_cons, List.not_mem_nil, IsEmpty.forall_iff, implies_true, and_true]
  refine ⟨exists_spelled_array ?_, exists_spelled_array ?_, exists_spelled_array ?_⟩
  · simpa using hboolean
  · simpa using ⟨hstring _, hstring _⟩
  · simpa using hpath

theorem exists_ofJson (s : Settings) : ∃ text, ofJson text = .ok s := by
  obtain ⟨text, htext⟩ := exists_spelled_value s
  refine ⟨String.ofList text, ofJson_eq_ok_iff.mpr ⟨s.value, ?_, denotes_value s⟩⟩
  rw [String.toList_ofList]
  exact ⟨[], text, [], blanks_nil, htext, blanks_nil, by simp⟩

/-! ## What cannot stand in a file -/

/-- The sections of a file with their fields. -/
def sectionKeys : List (String × List String) := [
  ("general", ["trace"]), ("disasm", ["immediate_radix", "target_radix"]), ("table", ["path"])]

/-- A value that a field can have. -/
def FieldValue (key : String) (v : Value) : Prop :=
  (key = "trace" → ∃ trace, v = .boolean trace) ∧
  (key = "immediate_radix" ∨ key = "target_radix" → ∃ r, DenotesRadix r v) ∧
  (key = "path" → ∃ path?, DenotesPath path? v)

/-- A file or one of its sections is no record of its keys, because one is unknown or repeated,
there are too many elements, or it is no record at all; or a field has a value it cannot have. -/
inductive Faulty : Value → Prop where
  | file {v : Value} : ¬v.IsRecord (sectionKeys.map (·.1)) → Faulty v
  | inside {name : String} {keys : List String} {v w : Value} : (name, keys) ∈ sectionKeys →
      v.part? (sectionKeys.map (·.1)) name = some w → ¬w.IsRecord keys → Faulty v
  | field {name key : String} {keys : List String} {v w x : Value} : (name, keys) ∈ sectionKeys →
      v.part? (sectionKeys.map (·.1)) name = some w → key ∈ keys → w.part? keys key = some x →
      ¬FieldValue key x → Faulty v

theorem mem_sectionKeys {name : String} {keys : List String} (h : (name, keys) ∈ sectionKeys) :
    (name = "general" ∧ keys = ["trace"]) ∨
      (name = "disasm" ∧ keys = ["immediate_radix", "target_radix"]) ∨
      (name = "table" ∧ keys = ["path"]) := by
  simpa [sectionKeys] using h

theorem Faulty.not_denotes {v : Value} (h : Faulty v) (s : Settings) : ¬Denotes s v := by
  rintro ⟨hrecord, hgeneral, hdisasm, htable⟩
  cases h with
  | file hfault => exact hfault hrecord
  | inside hname hpart hfault =>
      obtain ⟨rfl, rfl⟩ | ⟨rfl, rfl⟩ | ⟨rfl, rfl⟩ := mem_sectionKeys hname
      · exact hfault (hpart ▸ hgeneral : DenotesGeneral _ _).1
      · exact hfault (hpart ▸ hdisasm : DenotesStyle _ _).1
      · exact hfault (hpart ▸ htable : DenotesTable _ _).1
  | field hname hpart hkey hvalue hfault =>
      obtain ⟨rfl, rfl⟩ | ⟨rfl, rfl⟩ | ⟨rfl, rfl⟩ := mem_sectionKeys hname
      · obtain rfl := List.mem_singleton.mp hkey
        have hgiven := (hpart ▸ hgeneral : DenotesGeneral _ _).2
        rw [hvalue] at hgiven
        exact hfault ⟨fun _ => ⟨s.trace, hgiven⟩, by simp, by simp⟩
      · obtain ⟨-, himmediate, htarget⟩ := (hpart ▸ hdisasm : DenotesStyle _ _)
        obtain rfl | rfl : _ = "immediate_radix" ∨ _ = "target_radix" := by simpa using hkey
        · rw [hvalue] at himmediate
          exact hfault ⟨by simp, fun _ => ⟨s.style.immediate, himmediate⟩, by simp⟩
        · rw [hvalue] at htarget
          exact hfault ⟨by simp, fun _ => ⟨s.style.target, htarget⟩, by simp⟩
      · obtain rfl := List.mem_singleton.mp hkey
        have hgiven := (hpart ▸ htable : DenotesTable _ _).2
        rw [hvalue] at hgiven
        exact hfault ⟨by simp, by simp, fun _ => ⟨s.tablePath?, hgiven⟩⟩

theorem exists_given {α : Type} {denotes : α → Value → Prop} {default : α} {part? : Option Value}
    (h : ∀ v, part? = some v → ∃ a, denotes a v) : ∃ a, Given denotes default a part? := by
  cases part? with
  | none => exact ⟨default, rfl⟩
  | some v => exact h v rfl

theorem exists_denotesGeneral {w : Value} (hrecord : w.IsRecord ["trace"])
    (hfields : ∀ key x, key ∈ ["trace"] → w.part? ["trace"] key = some x → FieldValue key x) :
    ∃ trace, DenotesGeneral trace w := by
  obtain ⟨trace, htrace⟩ : ∃ trace, Given (fun b v => v = .boolean b) false trace
      (w.part? ["trace"] "trace") :=
    exists_given fun x hx => (hfields "trace" x (by decide) hx).1 rfl
  exact ⟨trace, hrecord, htrace⟩

theorem exists_denotesStyle {w : Value} (hrecord : w.IsRecord ["immediate_radix", "target_radix"])
    (hfields : ∀ key x, key ∈ ["immediate_radix", "target_radix"] →
      w.part? ["immediate_radix", "target_radix"] key = some x → FieldValue key x) :
    ∃ style, DenotesStyle style w := by
  obtain ⟨r, hr⟩ : ∃ r, Given DenotesRadix .decimal r
      (w.part? ["immediate_radix", "target_radix"] "immediate_radix") :=
    exists_given fun x hx => (hfields _ x (by decide) hx).2.1 (.inl rfl)
  obtain ⟨r', hr'⟩ : ∃ r, Given DenotesRadix .hex r
      (w.part? ["immediate_radix", "target_radix"] "target_radix") :=
    exists_given fun x hx => (hfields _ x (by decide) hx).2.1 (.inr rfl)
  exact ⟨⟨r, r'⟩, hrecord, hr, hr'⟩

theorem exists_denotesTable {w : Value} (hrecord : w.IsRecord ["path"])
    (hfields : ∀ key x, key ∈ ["path"] → w.part? ["path"] key = some x → FieldValue key x) :
    ∃ path?, DenotesTable path? w := by
  obtain ⟨path?, hpath⟩ : ∃ path?, Given DenotesPath none path? (w.part? ["path"] "path") :=
    exists_given fun x hx => (hfields "path" x (by decide) hx).2.2 rfl
  exact ⟨path?, hrecord, hpath⟩

/-- A value without a fault denotes settings. -/
theorem exists_denotes {v : Value} (h : ¬Faulty v) : ∃ s, Denotes s v := by
  have hfile : v.IsRecord (sectionKeys.map (·.1)) := by_contra fun hfault => h (.file hfault)
  have hinside {name : String} {keys : List String} (hname : (name, keys) ∈ sectionKeys) {w : Value}
      (hw : v.part? (sectionKeys.map (·.1)) name = some w) : w.IsRecord keys :=
    by_contra fun hfault => h (.inside hname hw hfault)
  have hfield {name : String} {keys : List String} (hname : (name, keys) ∈ sectionKeys) {w : Value}
      (hw : v.part? (sectionKeys.map (·.1)) name = some w) (key : String) (x : Value)
      (hkey : key ∈ keys) (hx : w.part? keys key = some x) : FieldValue key x :=
    by_contra fun hfault => h (.field hname hw hkey hx hfault)
  obtain ⟨trace, htrace⟩ : ∃ trace, Given DenotesGeneral false trace
      (v.part? (sectionKeys.map (·.1)) "general") := exists_given fun w hw =>
    exists_denotesGeneral (hinside (by decide) hw) (hfield (by decide) hw)
  obtain ⟨style, hstyle⟩ : ∃ style, Given DenotesStyle {} style
      (v.part? (sectionKeys.map (·.1)) "disasm") := exists_given fun w hw =>
    exists_denotesStyle (hinside (by decide) hw) (hfield (by decide) hw)
  obtain ⟨path?, hpath⟩ : ∃ path?, Given DenotesTable none path?
      (v.part? (sectionKeys.map (·.1)) "table") := exists_given fun w hw =>
    exists_denotesTable (hinside (by decide) hw) (hfield (by decide) hw)
  exact ⟨⟨trace, style, path?⟩, hfile, htrace, hstyle, hpath⟩

theorem ofJson_ok_or_json (text : String) :
    (∃ s, ofJson text = .ok s) ∨ ∃ fault, ofJson text = .error (.json fault) := by
  rw [ofJson]
  cases Json.Reader.document (record "Config" sections {}) text with
  | error fault => exact .inr ⟨fault, rfl⟩
  | ok s => exact .inl ⟨s, rfl⟩

/-- A settings file loads exactly if its text is a document of the schema, and then as what the
schema says its value denotes. A text is one value, but settings have many: with other orders of
keys, arrays for objects, and defaults left out. All settings have a file, and a value whose text
does not load has a fault. -/
theorem ofJson_schema :
    (∀ text s, ofJson text = .ok s ↔ ∃ v, SpelledDocument v text.toList ∧ Denotes s v) ∧
    (∀ (text : String) (v v' : Value), SpelledDocument v text.toList →
      SpelledDocument v' text.toList → v = v') ∧
    (∀ v v', Relation.EqvGen RespelledFile v v' → ∀ text text' : String,
      SpelledDocument v text.toList → SpelledDocument v' text'.toList →
      ∀ s, ofJson text = .ok s ↔ ofJson text' = .ok s) ∧
    (∀ s, ∃ text, ofJson text = .ok s) ∧
    (∀ v (text : String), SpelledDocument v text.toList →
      ((∃ fault, ofJson text = .error (.json fault)) ↔ Faulty v)) := by
  refine ⟨fun _ _ => ofJson_eq_ok_iff, fun _ _ _ h h' => h.unique h', ?_, exists_ofJson, ?_⟩
  · intro v v' hrespelled text text' hv hv' s
    rw [ofJson_eq_ok_iff_denotes hv, ofJson_eq_ok_iff_denotes hv']
    exact denotes_iff_of_eqvGen hrespelled
  · intro v text hv
    constructor
    · rintro ⟨fault, herror⟩
      by_contra hfaultless
      obtain ⟨s, hs⟩ := exists_denotes hfaultless
      rw [(ofJson_eq_ok_iff_denotes hv).mpr hs] at herror
      cases herror
    · intro hfault
      rcases ofJson_ok_or_json text with ⟨s, hs⟩ | herror
      · exact absurd ((ofJson_eq_ok_iff_denotes hv).mp hs) (hfault.not_denotes s)
      · exact herror

/-- Nothing but defaults, as an array and as an object, and a key that is not declared. -/
theorem ofJson_schema_empty :
    (∀ s, ofJson "[]" = .ok s ↔ ofJson "\x7b\x7d" = .ok s) ∧
    ∃ fault, ofJson "\x7b\"a\":null\x7d" = .error (.json fault) := by
  have harray : SpelledDocument (.array []) "[]".toList :=
    ⟨[], _, [], blanks_nil, .emptyArray blanks_nil, blanks_nil, rfl⟩
  have hobject : SpelledDocument (.object []) "\x7b\x7d".toList :=
    ⟨[], _, [], blanks_nil, .emptyObject blanks_nil, blanks_nil, rfl⟩
  have hkey : SpelledString "a" ['"', 'a', '"'] :=
    ⟨['a'], .cons (.plain (by decide) (by decide) (by decide)) .nil, rfl⟩
  have hunknown : SpelledDocument (.object [("a", .null)]) "\x7b\"a\":null\x7d".toList :=
    ⟨[], _, [], blanks_nil, .object (.last (.intro blanks_nil hkey blanks_nil blanks_nil .null
      blanks_nil)), blanks_nil, rfl⟩
  obtain ⟨-, -, hrespelled, -, hfaulty⟩ := ofJson_schema
  refine ⟨hrespelled _ _ (.rel _ _ (.array (Nat.zero_le _))) _ _ harray hobject, ?_⟩
  exact (hfaulty _ _ hunknown).mpr (.file (by simp [Value.IsRecord, sectionKeys]))

end MipsWords.Settings
