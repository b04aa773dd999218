import Mathlib
import MipsWords.Proofs.Arguments
import MipsWords.Proofs.Results

/-!
# Settings and tables that a run does not ask for

A job reads little besides its operands: `disasm` the style of the settings and
one table, the other tasks nothing. So two jobs on the same operands that agree
on these have the same events (`Job.events_disasm_congr`), and with them, if both
settings or none ask for the whole log, what their runs put out, whatever else
their settings and files hold.

The table of `disasm` is found by its path alone. So it does not matter whether
the path stands on the command line or in the settings, and settings that name
another path, even that of a broken file, do not matter behind `--table`.
-/

namespace MipsWords.Command

/-! ## What a job reads -/

/-- A command line asks for a job, and the settings it names can be had. -/
def Configured (files : Files) (args : List String) (s : Settings) (job : Job) : Prop :=
  ∃ config?, parse args = .ok ⟨config?, job⟩ ∧ settings files config? = .ok s

theorem Configured.run?_eq {files : Files} {args : List String} {s : Settings} {job : Job}
    (h : Configured files args s job) (level : Level) (manual : Manual) :
    run? files level args manual = some ⟨if s.trace then .trace else level, job.events files s⟩ := by
  obtain ⟨config?, hargs, hsettings⟩ := h
  rw [run?_of_parse hargs, Invocation.run, hsettings]

/-- Runs with the same events come to the same if their settings agree on the log. -/
theorem Configured.run?_congr {files files' : Files} {args args' : List String}
    {s s' : Settings} {job job' : Job} (h : Configured files args s job)
    (h' : Configured files' args' s' job') (htrace : s.trace = s'.trace)
    (hevents : job.events files s = job'.events files' s') (level : Level) (manual : Manual) :
    run? files level args manual = run? files' level args' manual := by
  rw [h.run?_eq, h'.run?_eq, htrace, hevents]

theorem Job.events_of_not_disasm {job : Job} (h : ∀ table? words, job ≠ .disasm table? words)
    (files files' : Files) (s s' : Settings) : job.events files s = job.events files' s' := by
  cases job with
  | classify words => rfl
  | reg codes => rfl
  | disasm table? words => exact absurd rfl (h table? words)

/-- It does not matter where the path of a table stands, nor what other files hold. -/
theorem Job.events_disasm_congr {files files' : Files} {s s' : Settings}
    {table? table?' : Option String} {path : String} (hpath : tablePath? s table? = some path)
    (hpath' : tablePath? s' table?' = some path) (hfile : files path = files' path)
    (hstyle : s.style = s'.style) (words : List String) :
    (Job.disasm table? words).events files s = (Job.disasm table?' words).events files' s' := by
  have htable : table files (some path) = table files' (some path) := by
    rw [table, table, Table.ofFile, Table.ofFile, hfile]
  rw [events, events, hpath, hpath', htable, hstyle]

/-! ## The built-in table -/

/-- The line of an operand whose word is disassembled in a given way. -/
def lineBy (disassembled : Word → Except Error String) (text : String) : Except Error String := do
  let w ← Word.parse (Blank.trim text)
  return "0x" ++ Numeral.hex 8 w.toNat ++ "\t" ++ (← disassembled w)

theorem Item.outcome_disasm (names : Lookup) (style : Style) (text : String) :
    (Item.disasm text).outcome names style =
      .ofResult text (lineBy (disassemble names style) text) := rfl

theorem Configured.accepted_builtin {files : Files} {args words : List String} {s : Settings}
    (h : Configured files args s (.disasm none words)) (hpath : s.tablePath? = none) :
    ∃ config?, parse args = .ok ⟨config?, .disasm none words⟩ ∧
      Invocation.Accepted files ⟨config?, .disasm none words⟩ s .builtin := by
  obtain ⟨config?, hargs, hsettings⟩ := h
  refine ⟨config?, hargs, hsettings, fun table? words' hjob => ⟨[], ?_⟩⟩
  cases hjob
  rw [tablePath?, hpath]
  rfl

/-! ## Runs -/

/-- Of the settings and the files, `classify` and `reg` see nothing but whether everything is
logged, and `disasm` behind `--table` sees that, the style and the one file. A path in the settings
does what it does behind `--table`, where any line without one can take it. Without a path the words
are disassembled by the built-in table, and without settings as the library does by itself. -/
theorem selection_isolated (files : Files) (level : Level) (manual : Manual) :
    (∀ files' args args' s s' job, Configured files args s job → Configured files' args' s' job →
      (∀ table? words, job ≠ .disasm table? words) → s.trace = s'.trace →
      run? files level args manual = run? files' level args' manual) ∧
    (∀ files' args args' s s' path words, Configured files args s (.disasm (some path) words) →
      Configured files' args' s' (.disasm (some path) words) → files path = files' path →
      s.trace = s'.trace → s.style = s'.style →
      run? files level args manual = run? files' level args' manual) ∧
    (∀ args s path words, Configured files args s (.disasm none words) →
      s.tablePath? = some path →
      ∀ files', files' path = files path →
        (∀ args', Configured files' args' { s with tablePath? := none }
            (.disasm (some path) words) →
          run? files' level args' manual = run? files level args manual) ∧
        (path ≠ "" → path.toList.head? ≠ some '-' →
          ∀ args', Configured files' args' { s with tablePath? := none } (.disasm none words) →
          ∃ before after, args' = before ++ "disasm" :: after ∧
            run? files' level (before ++ "disasm" :: "--table" :: path :: after) manual =
              run? files level args manual)) ∧
    ∀ args s words, Configured files args s (.disasm none words) → s.tablePath? = none →
      ∃ r, run? files level args manual = some r ∧
        r.results = words.map (fun text => Event.ofResult text
          (lineBy (disassemble Table.builtin.resolve s.style) text)) ∧
        (parse args = .ok ⟨none, .disasm none words⟩ → r.results = words.map fun text =>
          Event.ofResult text (lineBy disassembleBuiltin text)) := by
  refine ⟨?_, ?_, ?_, ?_⟩
  · intro files' args args' s s' job h h' hjob htrace
    exact h.run?_congr h' htrace (Job.events_of_not_disasm hjob ..) level manual
  · intro files' args args' s s' path words h h' hfile htrace hstyle
    exact h.run?_congr h' htrace (Job.events_disasm_congr rfl rfl hfile hstyle words) level manual
  · intro args s path words h hpath files' hfile
    have hnamed : tablePath? s none = some path := hpath
    have hgiven : tablePath? { s with tablePath? := none } (some path) = some path := rfl
    have hmoved : ∀ args',
        Configured files' args' { s with tablePath? := none } (.disasm (some path) words) →
        run? files' level args' manual = run? files level args manual := fun args' h' =>
      h'.run?_congr h rfl (Job.events_disasm_congr hgiven hnamed hfile rfl words) level manual
    refine ⟨hmoved, fun hempty hplain args' h' => ?_⟩
    obtain ⟨config?, hargs, hsettings⟩ := h'
    obtain ⟨before, after, rfl, hinserted⟩ := parse_insert_table hargs hempty hplain
    exact ⟨before, after, rfl, hmoved _ ⟨config?, hinserted, hsettings⟩⟩
  · intro args s words h hpath
    obtain ⟨config?, hargs, haccepted⟩ := h.accepted_builtin hpath
    have hresults : (Invocation.run files level ⟨config?, .disasm none words⟩).results =
        words.map fun text => Event.ofResult text
          (lineBy (disassemble Table.builtin.resolve s.style) text) := by
      rw [haccepted.results_run, Job.items, List.map_map]
      refine List.map_congr_left fun text _ => ?_
      rw [Function.comp_apply, Item.outcome_disasm]
    refine ⟨_, run?_of_parse hargs, hresults, fun hnone => ?_⟩
    rw [hargs] at hnone
    cases hnone
    have hstyle : s.style = {} := by
      rw [← Except.ok.inj haccepted.settings]
    have hfree : disassembleBuiltin = disassemble Table.builtin.resolve {} := rfl
    rw [hresults, hstyle, hfree]

/-- A missing table that the settings name, against the same table on the command line; and the
settings that name it, against none, for a task that reads no table. -/
theorem selection_isolated_missing :
    run? (fun path => if path = "a" then .ok "\x7b\"table\":\x7b\"path\":\"t\"\x7d\x7d"
        else .error .notFound) .warn ["disasm", "--table", "t", "0x20"] =
      run? (fun path => if path = "a" then .ok "\x7b\"table\":\x7b\"path\":\"t\"\x7d\x7d"
        else .error .notFound) .warn ["-c", "a", "disasm", "0x20"] ∧
    run? (fun path => if path = "a" then .ok "\x7b\"table\":\x7b\"path\":\"t\"\x7d\x7d"
        else .error .notFound) .warn ["classify", "-c", "a", "0x20", "1"] =
      run? (fun _ => .error .isDirectory) .warn ["classify", "0x20", "1"] := by
  have hjson : Settings.ofJson "\x7b\"table\":\x7b\"path\":\"t\"\x7d\x7d" =
      .ok { tablePath? := some "t" } := by decide +kernel
  have hsettings : settings (fun path => if path = "a" then
      .ok "\x7b\"table\":\x7b\"path\":\"t\"\x7d\x7d" else .error .notFound) (some "a") =
      .ok { tablePath? := some "t" } := by
    rw [settings, Settings.ofFile, if_pos rfl]
    exact hjson
  obtain ⟨hother, -, hmoved, -⟩ := selection_isolated (fun path => if path = "a" then
    .ok "\x7b\"table\":\x7b\"path\":\"t\"\x7d\x7d" else .error .notFound) .warn .standard
  constructor
  · obtain ⟨hsame, -⟩ := hmoved ["-c", "a", "disasm", "0x20"] { tablePath? := some "t" } "t" ["0x20"]
      ⟨some "a", by decide +kernel, hsettings⟩ rfl (fun path => if path = "a" then
        .ok "\x7b\"table\":\x7b\"path\":\"t\"\x7d\x7d" else .error .notFound) rfl
    exact hsame ["disasm", "--table", "t", "0x20"] ⟨none, by decide +kernel, rfl⟩
  · exact hother _ ["classify", "-c", "a", "0x20", "1"] ["classify", "0x20", "1"]
      { tablePath? := some "t" } {} (.classify ["0x20", "1"])
      ⟨some "a", by decide +kernel, hsettings⟩ ⟨none, by decide +kernel, rfl⟩ nofun rfl

end MipsWords.Command
