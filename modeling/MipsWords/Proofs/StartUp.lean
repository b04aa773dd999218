import Mathlib
import MipsWords.Proofs.Arguments
import MipsWords.Proofs.Outcome
import MipsWords.Proofs.Results
import MipsWords.Proofs.SettingsFile
import MipsWords.Proofs.TableFile

/-!
# Before the first operand

What can go wrong before the operands does so in a fixed order: the arguments,
then the settings, then the table. The first of these failures is all that the
run comes to. It puts out one error line and no result, and what would have been
asked for later has no part in it.

Errors of files are failures of this kind only (`Error.isOfFile`): no operand
fails for a file, because none opens one. So a run that has such an error to
report has printed nothing.

A request for the version or for help is none of this. It is answered before any
file is read, so the line can name settings that cannot be had and yet succeed.
-/

namespace MipsWords

/-! ## Errors of files and errors of operands -/

/-- The errors that reading settings or a table can end in. -/
def Error.isOfFile : Error → Bool
  | tableKey _ | json _ | unreadable .. => true
  | wordLength _ | bitCharacter .. | hexWord _ | registerCode _ | registerName _
  | unknownMnemonic _ => false

theorem bind_eq_error_iff {α β : Type} {x : Except Error α} {f : α → Except Error β} {e : Error} :
    (x >>= f) = .error e ↔ x = .error e ∨ ∃ a, x = .ok a ∧ f a = .error e := by
  cases x with
  | error e' => simp [bind, Except.bind]
  | ok a => simp [bind, Except.bind]

theorem Settings.isOfFile_of_ofFile {files : Files} {path : String} {e : Error}
    (h : Settings.ofFile files path = .error e) : e.isOfFile = true := by
  rw [ofFile] at h
  split at h
  · next text _ =>
      rcases ofJson_ok_or_json text with ⟨s, hs⟩ | ⟨fault, hfault⟩
      · rw [hs] at h
        cases h
      · rw [hfault] at h
        cases h
        rfl
  · cases h
    rfl

theorem Table.isOfFile_of_ofFile {files : Files} {path : String} {e : Error}
    (h : Table.ofFile files path = .error e) : e.isOfFile = true := by
  rw [ofFile] at h
  split at h
  · next text _ =>
      rcases bind_eq_error_iff.mp h with hread | ⟨members, -, h⟩
      · rw [Members.ofJson] at hread
        cases hdocument : Json.Reader.document (Json.Reader.record "RawTable" sections {}) text with
        | error fault =>
            rw [hdocument] at hread
            cases hread
            rfl
        | ok members =>
            rw [hdocument] at hread
            cases hread
      · obtain ⟨key, rfl⟩ := eq_tableKey_of_ofMembers h
        rfl
  · cases h
    rfl

theorem Word.isOfFile_of_parse {text : String} {e : Error} (h : Word.parse text = .error e) :
    e.isOfFile = false := by
  rw [parse] at h
  split at h
  · split at h <;> cases h
    rfl
  · rw [ofBits] at h
    dsimp only at h
    split at h
    · split at h <;> cases h
      rfl
    · cases h
      rfl

theorem isOfFile_of_disassemble {names : Lookup} {style : Style} {w : Word} {e : Error}
    (h : disassemble names style w = .error e) : e.isOfFile = false := by
  rw [disassemble_eq] at h
  split at h
  · cases h
    rfl
  · split at h <;> cases h
    rfl

theorem Register.isOfFile_of_render {code : Nat} {e : Error}
    (h : Register.render code = .error e) : e.isOfFile = false := by
  rw [render, ofCode] at h
  split at h <;> cases h
  rfl

namespace Command

theorem Item.isOfFile_of_result {names : Lookup} {style : Style} {x : Item} {e : Error}
    (h : x.result names style = .error e) : e.isOfFile = false := by
  cases x with
  | classify text =>
      rcases bind_eq_error_iff.mp h with hword | ⟨w, -, h⟩
      · exact Word.isOfFile_of_parse hword
      · cases h
  | disasm text =>
      rcases bind_eq_error_iff.mp h with hword | ⟨w, -, h⟩
      · exact Word.isOfFile_of_parse hword
      · rcases bind_eq_error_iff.mp h with hline | ⟨line, -, h⟩
        · exact isOfFile_of_disassemble hline
        · cases h
  | reg code => exact Register.isOfFile_of_render h

/-! ## Failures at the start -/

/-- The settings file that is named cannot be had. -/
def Invocation.SettingsFail (files : Files) (i : Invocation) (e : Error) : Prop :=
  ∃ path, i.config? = some path ∧ Settings.ofFile files path = .error e

/-- The settings can be had, but not the table file that the command line names or, if it names
none, the settings. Only `disasm` asks for a table. -/
def Invocation.TableFails (files : Files) (i : Invocation) (e : Error) : Prop :=
  ∃ s table? words path, settings files i.config? = .ok s ∧ i.job = .disasm table? words ∧
    (table? = some path ∨ table? = none ∧ s.tablePath? = some path) ∧
    Table.ofFile files path = .error e

/-- The errors that an invocation has to report. -/
inductive Invocation.Meets (files : Files) (i : Invocation) : Error → Prop where
  | settings {e : Error} (h : i.SettingsFail files e) : Meets files i e
  | table {e : Error} (h : i.TableFails files e) : Meets files i e
  | operand {s : Settings} {t : Table} {x : Item} {e : Error} (h : i.Accepted files s t)
      (hx : x ∈ i.job.items) (hresult : x.result t.resolve s.style = .error e) : Meets files i e

/-- A run that one error ended before the first operand: a line about it and nothing else. -/
structure Run.Aborted (r : Run) (e : Error) : Prop where
  status : r.status = 1
  stdout : r.stdout = ""
  stderr : r.stderr = "error: " ++ e.message ++ "\n"

theorem aborted_failure (level : Level) (e : Error) :
    Run.Aborted ⟨level, [.failure e.message]⟩ e where
  status := rfl
  stdout := rfl
  stderr := by
    show String.join ["error: " ++ e.message ++ "\n"] = _
    simp

theorem settings_eq_error_iff {files : Files} {config? : Option String} {e : Error} :
    settings files config? = .error e ↔
      ∃ path, config? = some path ∧ Settings.ofFile files path = .error e := by
  cases config? with
  | none => simp [settings]
  | some path => simp [settings]

theorem table_eq_error_iff {files : Files} {path? : Option String} {e : Error} :
    table files path? = .error e ↔
      ∃ path, path? = some path ∧ Table.ofFile files path = .error e := by
  cases path? with
  | none => simp [table]
  | some path =>
      rw [table]
      cases hfile : Table.ofFile files path with
      | error e' => simp [Except.map, hfile]
      | ok t => simp [Except.map, hfile]

theorem tablePath?_eq_some_iff {s : Settings} {table? : Option String} {path : String} :
    tablePath? s table? = some path ↔
      table? = some path ∨ table? = none ∧ s.tablePath? = some path := by
  cases table? with
  | none => simp [tablePath?]
  | some path' => simp [tablePath?]

namespace Invocation

variable {files : Files} {i : Invocation} {e : Error}

theorem SettingsFail.run_eq (h : i.SettingsFail files e) (level : Level) :
    i.run files level = ⟨level, [.failure e.message]⟩ := by
  rw [run, settings_eq_error_iff.mpr h]

theorem TableFails.run_eq (h : i.TableFails files e) (level : Level) :
    ∃ s, settings files i.config? = .ok s ∧
      i.run files level = ⟨if s.trace then .trace else level, [.failure e.message]⟩ := by
  obtain ⟨s, table?, words, path, hsettings, hjob, hpath, hfile⟩ := h
  have htable : table files (tablePath? s table?) = .error e :=
    table_eq_error_iff.mpr ⟨path, tablePath?_eq_some_iff.mpr hpath, hfile⟩
  refine ⟨s, hsettings, ?_⟩
  rw [run, hsettings, hjob]
  simp only [Job.events, htable]

theorem SettingsFail.aborted (h : i.SettingsFail files e) (level : Level) :
    (i.run files level).Aborted e := by
  rw [h.run_eq]
  exact aborted_failure level e

theorem TableFails.aborted (h : i.TableFails files e) (level : Level) :
    (i.run files level).Aborted e := by
  obtain ⟨s, -, hrun⟩ := h.run_eq level
  rw [hrun]
  exact aborted_failure _ e

/-- Without a failure at the start there are settings and a table to work with. -/
theorem exists_accepted (hsettings : ∀ e, ¬i.SettingsFail files e)
    (htable : ∀ e, ¬i.TableFails files e) : ∃ s t, i.Accepted files s t := by
  cases hs : settings files i.config? with
  | error e => exact absurd (settings_eq_error_iff.mp hs) (hsettings e)
  | ok s =>
      cases hjob : i.job with
      | classify words => exact ⟨s, .builtin, hs, fun _ _ h => by rw [hjob] at h; cases h⟩
      | reg codes => exact ⟨s, .builtin, hs, fun _ _ h => by rw [hjob] at h; cases h⟩
      | disasm table? words =>
          cases ht : table files (tablePath? s table?) with
          | error e =>
              obtain ⟨path, hpath, hfile⟩ := table_eq_error_iff.mp ht
              exact absurd ⟨s, table?, words, path, hs, hjob, tablePath?_eq_some_iff.mp hpath, hfile⟩
                (htable e)
          | ok loaded =>
              refine ⟨s, loaded.1, hs, fun table?' words' h => ?_⟩
              rw [hjob] at h
              cases h
              exact ⟨loaded.2, ht⟩

/-- The errors of files are those met at the start. -/
theorem Meets.isOfFile_iff (h : i.Meets files e) :
    e.isOfFile = true ↔ i.SettingsFail files e ∨ i.TableFails files e := by
  constructor
  · intro hfile
    cases h with
    | settings h => exact .inl h
    | table h => exact .inr h
    | operand _ _ hresult =>
        rw [Item.isOfFile_of_result hresult] at hfile
        cases hfile
  · rintro (⟨path, -, hfile⟩ | ⟨s, table?, words, path, -, -, -, hfile⟩)
    · exact Settings.isOfFile_of_ofFile hfile
    · exact Table.isOfFile_of_ofFile hfile

/-- The table is asked for with the same words on the command line or with others. -/
theorem TableFails.congr_words {table? : Option String} {words words' : List String}
    (h : i.TableFails files e) (hjob : i.job = .disasm table? words) :
    TableFails files ⟨i.config?, .disasm table? words'⟩ e := by
  obtain ⟨s, table?', words₀, path, hsettings, hjob', hpath, hfile⟩ := h
  rw [hjob] at hjob'
  cases hjob'
  exact ⟨s, table?, words', path, hsettings, rfl, hpath, hfile⟩

end Invocation

/-- A command line that asks neither for the version nor for help comes to a usage error, whatever
the files; or else the first failure at its start is all it comes to, whatever would have been asked
for behind it; or else it leaves one result for each operand. An error of a file is never met but at
the start. -/
theorem startUp_in_order {args : List String} (hversion : parse args ≠ .error .version)
    (hhelp : ∀ page, parse args ≠ .error (.help page)) (files : Files) (level : Level)
    (manual : Manual) :
    (MalformedCode args → parse args = .error .usage) ∧
    (parse args = .error .usage → ∀ files' level',
      run? files' level' args manual = none ∧ exitStatus (run? files' level' args manual) = 2) ∧
    (parse args ≠ .error .usage → ∃ i r, parse args = .ok i ∧
      run? files level args manual = some r ∧
      (∀ e, i.SettingsFail files e → r.Aborted e ∧
        ∀ args' job, parse args' = .ok ⟨i.config?, job⟩ →
          run? files level args' manual = some r) ∧
      ((∀ e, ¬i.SettingsFail files e) → ∀ e, i.TableFails files e → r.Aborted e ∧
        ∀ args' table? words words', i.job = .disasm table? words →
          parse args' = .ok ⟨i.config?, .disasm table? words'⟩ →
          run? files level args' manual = some r) ∧
      ((∀ e, ¬i.SettingsFail files e) → (∀ e, ¬i.TableFails files e) → ∃ s t,
        i.Accepted files s t ∧ r.results = i.job.items.map (Item.outcome t.resolve s.style)) ∧
      ∀ e, i.Meets files e →
        (e.isOfFile = true ↔ i.SettingsFail files e ∨ i.TableFails files e) ∧
        (e.isOfFile = true → r.Aborted e)) := by
  refine ⟨parse_of_malformedCode, ?_, ?_⟩
  · intro husage files' level'
    rw [run?_of_stop husage]
    exact ⟨rfl, rfl⟩
  · intro husage
    cases hparse : parse args with
    | error stop =>
        cases stop with
        | usage => exact absurd hparse husage
        | version => exact absurd hparse hversion
        | help page => exact absurd hparse (hhelp page)
    | ok i =>
        refine ⟨i, i.run files level, rfl, run?_of_parse hparse, ?_, ?_, ?_, ?_⟩
        · intro e h
          refine ⟨h.aborted level, fun args' job hargs' => ?_⟩
          have h' : Invocation.SettingsFail files ⟨i.config?, job⟩ e := h
          rw [run?_of_parse hargs', h.run_eq, h'.run_eq]
        · intro _ e h
          refine ⟨h.aborted level, fun args' table? words words' hjob hargs' => ?_⟩
          obtain ⟨s, hs, hrun⟩ := h.run_eq level
          obtain ⟨s', hs', hrun'⟩ := (h.congr_words hjob).run_eq level
          rw [hs] at hs'
          cases hs'
          rw [run?_of_parse hargs', hrun, hrun']
        · intro hnosettings hnotable
          obtain ⟨s, t, h⟩ := Invocation.exists_accepted hnosettings hnotable
          exact ⟨s, t, h, h.results_run level⟩
        · intro e h
          refine ⟨h.isOfFile_iff, fun hfile => ?_⟩
          rcases h.isOfFile_iff.mp hfile with h | h
          · exact h.aborted level
          · exact h.aborted level

/-- Settings and a table that are both missing, a table with a bad key, and a code that is none
between two others. -/
theorem startUp_in_order_failures :
    (∃ r, run? (fun _ => .error .notFound) .trace
        ["disasm", "-c", "s", "--table", "t", "0x20"] = some r ∧
      r.Aborted (.unreadable "s" .notFound)) ∧
    (∃ r, run? (fun _ => .ok "\x7b\"opcodes\":\x7b\"1\":\"a\"\x7d\x7d") .trace
        ["disasm", "--table", "t", "0x20"] = some r ∧
      r.Aborted (.tableKey "1")) ∧
    exitStatus (run? (fun _ => .error .notFound) .warn ["reg", "1", "x", "2"]) = 2 := by
  have hboth : parse ["disasm", "-c", "s", "--table", "t", "0x20"] =
      .ok ⟨some "s", .disasm (some "t") ["0x20"]⟩ := by decide +kernel
  have htable : parse ["disasm", "--table", "t", "0x20"] =
      .ok ⟨none, .disasm (some "t") ["0x20"]⟩ := by decide +kernel
  have husage : parse ["reg", "1", "x", "2"] = .error .usage := by decide +kernel
  have hcode : MalformedCode ["reg", "1", "x", "2"] :=
    ⟨["reg", "1"], "x", ["2"], { task? := some .reg, operands := ["1"] }, rfl, by decide +kernel,
      rfl, .inr ⟨rfl, rfl, rfl⟩, by decide +kernel⟩
  have hkey : Table.ofJson "\x7b\"opcodes\":\x7b\"1\":\"a\"\x7d\x7d" = .error (.tableKey "1") := by
    decide +kernel
  refine ⟨?_, ?_, ?_⟩
  · obtain ⟨-, -, hrun⟩ := startUp_in_order (by rw [hboth]; nofun) (by rw [hboth]; nofun)
      (fun _ => .error .notFound) .trace .standard
    obtain ⟨i, r, hi, hr, hsettings, -⟩ := hrun (by rw [hboth]; nofun)
    rw [hboth] at hi
    cases hi
    exact ⟨r, hr, (hsettings _ ⟨"s", rfl, rfl⟩).1⟩
  · obtain ⟨-, -, hrun⟩ := startUp_in_order (by rw [htable]; nofun) (by rw [htable]; nofun)
      (fun _ => .ok "\x7b\"opcodes\":\x7b\"1\":\"a\"\x7d\x7d") .trace .standard
    obtain ⟨i, r, hi, hr, -, hfails, -⟩ := hrun (by rw [htable]; nofun)
    rw [htable] at hi
    cases hi
    exact ⟨r, hr, (hfails (by rintro e ⟨path, ⟨⟩, -⟩) _
      ⟨{}, some "t", ["0x20"], "t", rfl, rfl, .inl rfl, hkey⟩).1⟩
  · obtain ⟨hmalformed, hfiles, -⟩ := startUp_in_order (by rw [husage]; nofun)
      (by rw [husage]; nofun) (fun _ => .error .notFound) .warn .standard
    exact (hfiles (hmalformed hcode) _ _).2

/-- Settings that are missing, named in front of a task whose help is asked for: the page is put out
and nothing else, whatever stands in the manual. -/
theorem startUp_unread_by_help :
    parse ["-c", "missing.json", "classify", "0x0", "--help"] ≠ .error .version ∧
    parse ["-c", "missing.json", "classify", "0x0", "--help"] ≠ .error .usage ∧
    Settings.ofFile (fun _ => .error .notFound) "missing.json" =
      .error (.unreadable "missing.json" .notFound) ∧
    ∀ level manual, ∃ r,
      run? (fun _ => .error .notFound) level
        ["-c", "missing.json", "classify", "0x0", "--help"] manual = some r ∧
      r.status = 0 ∧ r.stdout = manual (.task .classify) ++ "\n" ∧ r.stderr = "" ∧
      ¬r.Aborted (.unreadable "missing.json" .notFound) := by
  have hargs : parse ["-c", "missing.json", "classify", "0x0", "--help"] =
      .error (.help (.task .classify)) := by decide +kernel
  refine ⟨by rw [hargs]; nofun, by rw [hargs]; nofun, rfl,
    fun level manual => ⟨⟨level, [.line (manual (.task .classify))]⟩, ?_, rfl, ?_, rfl, ?_⟩⟩
  · exact run?_of_stop hargs
  · show String.join [manual (.task .classify) ++ "\n"] = _
    simp
  · intro h
    cases h.status

end Command

end MipsWords
