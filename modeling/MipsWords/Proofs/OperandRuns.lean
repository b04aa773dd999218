import Mathlib
import MipsWords.Command.Run

/-!
# Operands one after the other

Behind the settings and the table, what a command line comes to is settled
operand by operand. Everything that can be observed of a run, its two streams
and its status, is put together from the events in their order, and an append of
events is an append of what is observed (`stdout_append`, `errors_append`,
`status_append`). So an induction over the operands gives the whole run from the
events of one operand, which are notices and then one line or one failure.

Notices are the only events that a level can leave out. They are no part of the
results and the failures, so these do not depend on the level.
-/

namespace MipsWords.Command

/-! ## What is observed -/

/-- A log record. -/
def Event.isNotice : Event → Bool
  | notice _ => true
  | line _ | failure _ => false

/-- What stands on the standard error besides log records. -/
def Run.errors (r : Run) : String :=
  String.join ((r.shown.filter fun e => !e.isNotice).map Event.stderr)

theorem Run.stdout_append (level : Level) (es es' : List Event) :
    Run.stdout ⟨level, es ++ es'⟩ = Run.stdout ⟨level, es⟩ ++ Run.stdout ⟨level, es'⟩ := by
  rw [stdout, shown, List.filter_append, List.map_append, String.join_append]
  rfl

theorem Run.errors_append (level : Level) (es es' : List Event) :
    Run.errors ⟨level, es ++ es'⟩ = Run.errors ⟨level, es⟩ ++ Run.errors ⟨level, es'⟩ := by
  rw [errors, shown, List.filter_append, List.filter_append, List.map_append, String.join_append]
  rfl

theorem Run.status_append (level : Level) (es es' : List Event) :
    Run.status ⟨level, es ++ es'⟩ = max (Run.status ⟨level, es⟩) (Run.status ⟨level, es'⟩) := by
  simp only [status, List.any_append]
  cases es.any Event.isFailure <;> cases es'.any Event.isFailure <;> rfl

/-- Notices put out nothing but log records. -/
theorem observe_notices (level : Level) {es : List Event} (h : ∀ e ∈ es, e.isNotice = true) :
    Run.stdout ⟨level, es⟩ = "" ∧ Run.errors ⟨level, es⟩ = "" ∧ Run.status ⟨level, es⟩ = 0 := by
  induction es with
  | nil => exact ⟨rfl, rfl, rfl⟩
  | cons e rest ih =>
      obtain ⟨he, hrest⟩ := List.forall_mem_cons.mp h
      obtain ⟨hout, herr, hstatus⟩ := ih hrest
      cases e with
      | line _ => cases he
      | failure _ => cases he
      | notice n =>
          rw [← List.singleton_append, Run.stdout_append, Run.errors_append, Run.status_append, hout,
            herr, hstatus]
          cases hshown : level.shows n.level <;>
            simp [Run.stdout, Run.errors, Run.status, Run.shown, Event.isShown, Event.stdout,
              Event.isNotice, Event.isFailure, hshown]

/-! ## Operands -/

/-- An operand with what is to be done with it. -/
inductive Item where
  | classify (text : String)
  | disasm (text : String)
  | reg (code : Nat)
  deriving DecidableEq, Repr

/-- The operands of a job one by one. -/
def Job.items : Job → List Item
  | .classify words => words.map .classify
  | .disasm _ words => words.map .disasm
  | .reg codes => codes.map .reg

namespace Item

/-- How a failure names the operand: as it was given, and a code by its number in decimal. -/
def input : Item → String
  | classify text | disasm text => text
  | reg code => Numeral.decimal code

/-- The line of the operand, or why it has none. -/
def result (names : Lookup) (style : Style) : Item → Except Error String
  | classify text => do
    let w ← Word.parse (Blank.trim text)
    return Blank.trim text ++ "\t" ++ (decode w).text
  | disasm text => do
    let w ← Word.parse (Blank.trim text)
    return "0x" ++ Numeral.hex 8 w.toNat ++ "\t" ++ (← disassemble names style w)
  | reg code => Register.render code

/-- The operand has no line. -/
def Fails (names : Lookup) (style : Style) (x : Item) : Prop :=
  ∃ error, x.result names style = .error error

/-- What an operand adds to the standard output. -/
def output (names : Lookup) (style : Style) (x : Item) : String :=
  match x.result names style with
  | .ok line => line ++ "\n"
  | .error _ => ""

/-- What an operand adds to the standard error, besides log records. -/
def complaint (names : Lookup) (style : Style) (x : Item) : String :=
  match x.result names style with
  | .ok _ => ""
  | .error error => "error: " ++ x.input ++ ": " ++ error.message ++ "\n"

/-- The events of an operand. -/
def events (names : Lookup) (style : Style) : Item → List Event
  | classify text => classifyEvents text
  | disasm text => disasmEvents names style text
  | reg code => regEvents code

theorem result_classify (names : Lookup) (style : Style) (text : String) :
    (classify text).result names style = classifyLine text := by
  simp only [result, classifyLine]
  cases Word.parse (Blank.trim text) <;> rfl

theorem result_disasm (names : Lookup) (style : Style) (text : String) :
    (disasm text).result names style = disasmLine names style text := by
  simp only [result, disasmLine, disassembleInput]
  cases Word.parse (Blank.trim text) with
  | error error => rfl
  | ok w => cases hline : disassemble names style w <;> simp [hline, bind, Except.bind] <;> rfl

/-- An operand has notices and then one line or one failure. -/
theorem events_eq (names : Lookup) (style : Style) (x : Item) :
    ∃ noted : List Event, (∀ e ∈ noted, e.isNotice = true) ∧
      x.events names style = noted ++ report x.input (x.result names style) := by
  cases x with
  | classify text =>
      refine ⟨[], by simp, ?_⟩
      rw [result_classify, events, classifyEvents, input, List.nil_append]
  | disasm text =>
      rw [result_disasm]
      refine ⟨_, ?_, rfl⟩
      cases disassembleInput names style text <;> simp [Event.isNotice]
  | reg code => exact ⟨[], by simp, rfl⟩

/-- A report puts out its line or its failure, and the notice before a failure nothing. -/
theorem observe_report (level : Level) (input : String) (result : Except Error String) :
    Run.stdout ⟨level, report input result⟩ = (match result with
      | .ok line => line ++ "\n"
      | .error _ => "") ∧
    Run.errors ⟨level, report input result⟩ = (match result with
      | .ok _ => ""
      | .error error => "error: " ++ input ++ ": " ++ error.message ++ "\n") ∧
    (Run.status ⟨level, report input result⟩ = 0 ↔ ¬∃ error, result = .error error) := by
  cases result with
  | ok line =>
      refine ⟨?_, rfl, ?_⟩
      · show String.join [line ++ "\n"] = _
        simp
      · simp [report, Run.status, Event.isFailure]
  | error error =>
      have hnotice : ∀ e ∈ [Event.notice (.rejected input error)], e.isNotice = true := by
        simp [Event.isNotice]
      obtain ⟨hout, herr, hstatus⟩ := observe_notices level hnotice
      rw [report, rejection, ← List.singleton_append, Run.stdout_append, Run.errors_append,
        Run.status_append, hout, herr, hstatus]
      refine ⟨rfl, ?_, ?_⟩
      · simp [Run.errors, Run.shown, Event.isShown, Event.isNotice, Event.stderr, String.append_assoc]
      · simp [Run.status, Event.isFailure]

theorem observe_events (level : Level) (names : Lookup) (style : Style) (x : Item) :
    Run.stdout ⟨level, x.events names style⟩ = x.output names style ∧
    Run.errors ⟨level, x.events names style⟩ = x.complaint names style ∧
    (Run.status ⟨level, x.events names style⟩ = 0 ↔ ¬x.Fails names style) := by
  obtain ⟨noted, hnoted, heq⟩ := x.events_eq names style
  obtain ⟨hout, herr, hstatus⟩ := observe_notices level hnoted
  obtain ⟨hout', herr', hstatus'⟩ := observe_report level x.input (x.result names style)
  rw [heq, Run.stdout_append, Run.errors_append, Run.status_append, hout, herr, hstatus,
    String.empty_append, String.empty_append, Nat.zero_max]
  exact ⟨hout', herr', hstatus'⟩

end Item

/-- Operands one after the other put out what each of them puts out. -/
theorem observe_items (level : Level) (names : Lookup) (style : Style) (items : List Item) :
    Run.stdout ⟨level, items.flatMap (Item.events names style)⟩ =
      String.join (items.map (Item.output names style)) ∧
    Run.errors ⟨level, items.flatMap (Item.events names style)⟩ =
      String.join (items.map (Item.complaint names style)) ∧
    (Run.status ⟨level, items.flatMap (Item.events names style)⟩ = 0 ↔
      ∀ x ∈ items, ¬x.Fails names style) := by
  induction items with
  | nil => exact ⟨rfl, rfl, by simp [Run.status]⟩
  | cons x rest ih =>
      obtain ⟨hout, herr, hstatus⟩ := ih
      obtain ⟨hout', herr', hstatus'⟩ := x.observe_events level names style
      rw [List.flatMap_cons, Run.stdout_append, Run.errors_append, Run.status_append, hout, herr,
        hout', herr', List.map_cons, List.map_cons, String.join_cons, String.join_cons,
        List.forall_mem_cons, ← hstatus, ← hstatus']
      exact ⟨rfl, rfl, by omega⟩

/-! ## Command lines -/

/-- The settings and the table that an invocation is accepted with. Only `disasm` has a table. -/
structure Invocation.Accepted (files : Files) (i : Invocation) (s : Settings) (t : Table) : Prop where
  settings : settings files i.config? = .ok s
  table : ∀ table? words, i.job = .disasm table? words →
    ∃ noted, table files (tablePath? s table?) = .ok (t, noted)

/-- The file of the table that a job reads. -/
def Job.tableFile? (s : Settings) : Job → Option String
  | .disasm table? _ => tablePath? s table?
  | .classify _ | .reg _ => none

/-- What is noted of a table: its numbers of entries, if it comes from a file. -/
def tableNotices (t : Table) : Option String → List Event
  | some _ => [.notice (.tableLoaded t.opcodes.size t.functions.size)]
  | none => []

theorem table_eq_ok {files : Files} {path? : Option String} {t : Table} {noted : List Event}
    (h : table files path? = .ok (t, noted)) :
    (∀ path, path? = some path → Table.ofFile files path = .ok t) ∧
      noted = tableNotices t path? := by
  cases path? with
  | none =>
      cases h
      exact ⟨nofun, rfl⟩
  | some path =>
      rw [table] at h
      cases hfile : Table.ofFile files path with
      | error e =>
          rw [hfile] at h
          cases h
      | ok t' =>
          rw [hfile] at h
          cases h
          refine ⟨fun path' hpath => ?_, rfl⟩
          cases hpath
          exact hfile

theorem isNotice_of_mem_tableNotices (t : Table) (path? : Option String) :
    ∀ e ∈ tableNotices t path?, e.isNotice = true := by
  cases path? <;> simp [tableNotices, Event.isNotice]

/-- Behind what is noted of its table, a job has the events of its operands. -/
theorem Invocation.Accepted.events_eq {files : Files} {i : Invocation} {s : Settings} {t : Table}
    (h : i.Accepted files s t) :
    i.job.events files s = tableNotices t (i.job.tableFile? s) ++
      i.job.items.flatMap (Item.events t.resolve s.style) := by
  cases hjob : i.job with
  | classify words | reg codes =>
      simp [Job.events, Job.items, Job.tableFile?, tableNotices, List.flatMap_map, Item.events]
  | disasm table? words =>
      obtain ⟨noted, htable⟩ := h.table table? words hjob
      obtain ⟨-, rfl⟩ := table_eq_ok htable
      simp [Job.events, htable, Job.items, Job.tableFile?, List.flatMap_map, Item.events]

theorem Invocation.Accepted.observe_run {files : Files} {i : Invocation} {s : Settings} {t : Table}
    (h : i.Accepted files s t) (level : Level) :
    (i.run files level).stdout = String.join (i.job.items.map (Item.output t.resolve s.style)) ∧
    (i.run files level).errors = String.join (i.job.items.map (Item.complaint t.resolve s.style)) ∧
    ((i.run files level).status = 0 ↔ ∀ x ∈ i.job.items, ¬x.Fails t.resolve s.style) := by
  obtain ⟨hout, herr, hstatus⟩ := observe_notices (if s.trace then .trace else level)
    (isNotice_of_mem_tableNotices t (i.job.tableFile? s))
  rw [Invocation.run, h.settings]
  simp only [h.events_eq]
  rw [Run.stdout_append, Run.errors_append, Run.status_append, hout, herr, hstatus,
    String.empty_append, String.empty_append, Nat.zero_max]
  exact observe_items _ t.resolve s.style i.job.items

/-- Two jobs that differ in their operands, and the job on the operands of both. -/
inductive Job.Together : Job → Job → Job → Prop where
  | classify {xs ys : List String} :
      Together (.classify xs) (.classify ys) (.classify (xs ++ ys))
  | disasm {table? : Option String} {xs ys : List String} :
      Together (.disasm table? xs) (.disasm table? ys) (.disasm table? (xs ++ ys))
  | reg {xs ys : List Nat} : Together (.reg xs) (.reg ys) (.reg (xs ++ ys))

theorem Job.Together.items_eq {j j' both : Job} (h : Together j j' both) :
    both.items = j.items ++ j'.items := by
  cases h <;> simp [Job.items]

theorem run?_of_parse {files : Files} {level : Level} {manual : Manual} {args : List String}
    {i : Invocation} (h : parse args = .ok i) :
    run? files level args manual = some (i.run files level) := by
  rw [run?, h]

/-- A line that asks for no work reads no file. -/
theorem run?_of_stop {files : Files} {level : Level} {manual : Manual} {args : List String}
    {stop : Stop} (h : parse args = .error stop) :
    run? files level args manual =
      (stop.answer? manual).map fun text => ⟨level, [.line text]⟩ := by
  rw [run?, h]

theorem status_le_one (r : Run) : r.status = 0 ∨ r.status = 1 := by
  rw [Run.status]
  split
  · exact .inr rfl
  · exact .inl rfl

/-- What accepts the job on all operands accepts those on some of them. -/
theorem Job.Together.accepted {files : Files} {config? : Option String} {j j' both : Job}
    {s : Settings} {t : Table} (h : Together j j' both)
    (haccepted : Invocation.Accepted files ⟨config?, both⟩ s t) :
    Invocation.Accepted files ⟨config?, j⟩ s t ∧ Invocation.Accepted files ⟨config?, j'⟩ s t := by
  obtain ⟨hsettings, htable⟩ := haccepted
  cases h with
  | classify => exact ⟨⟨hsettings, nofun⟩, ⟨hsettings, nofun⟩⟩
  | reg => exact ⟨⟨hsettings, nofun⟩, ⟨hsettings, nofun⟩⟩
  | disasm =>
      refine ⟨⟨hsettings, ?_⟩, ⟨hsettings, ?_⟩⟩
      · rintro _ _ ⟨⟩
        exact htable _ _ rfl
      · rintro _ _ ⟨⟩
        exact htable _ _ rfl

/-- An accepted command line puts out the lines of its operands and complains of those that have
none, in their order, and its status tells whether there are any. So operands can be divided
between two command lines, whatever the level: the streams of the two join up, and the status is
the greater one. -/
theorem run_operands {files : Files} {args : List String} {config? : Option String} {job : Job}
    {s : Settings} {t : Table} (level : Level) (manual : Manual)
    (hargs : parse args = .ok ⟨config?, job⟩) (haccepted : Invocation.Accepted files ⟨config?, job⟩ s t) :
    ∃ r, run? files level args manual = some r ∧
      r.stdout = String.join (job.items.map (Item.output t.resolve s.style)) ∧
      r.errors = String.join (job.items.map (Item.complaint t.resolve s.style)) ∧
      (r.status = 0 ↔ ∀ x ∈ job.items, ¬x.Fails t.resolve s.style) ∧
      (r.status = 0 ∨ r.status = 1) ∧
      ∀ level₁ level₂ args₁ args₂ job₁ job₂, parse args₁ = .ok ⟨config?, job₁⟩ →
        parse args₂ = .ok ⟨config?, job₂⟩ → job₁.Together job₂ job →
        ∃ r₁ r₂, run? files level₁ args₁ manual = some r₁ ∧
          run? files level₂ args₂ manual = some r₂ ∧
          r.stdout = r₁.stdout ++ r₂.stdout ∧ r.errors = r₁.errors ++ r₂.errors ∧
          r.status = max r₁.status r₂.status := by
  obtain ⟨hout, herr, hstatus⟩ := haccepted.observe_run level
  refine ⟨_, run?_of_parse hargs, hout, herr, hstatus, status_le_one _, ?_⟩
  intro level₁ level₂ args₁ args₂ job₁ job₂ hargs₁ hargs₂ htogether
  obtain ⟨haccepted₁, haccepted₂⟩ := htogether.accepted haccepted
  obtain ⟨hout₁, herr₁, hstatus₁⟩ := haccepted₁.observe_run level₁
  obtain ⟨hout₂, herr₂, hstatus₂⟩ := haccepted₂.observe_run level₂
  refine ⟨_, _, run?_of_parse hargs₁, run?_of_parse hargs₂, ?_, ?_, ?_⟩
  · rw [hout, hout₁, hout₂, htogether.items_eq, List.map_append, String.join_append]
  · rw [herr, herr₁, herr₂, htogether.items_eq, List.map_append, String.join_append]
  · rw [htogether.items_eq, List.forall_mem_append, ← hstatus₁, ← hstatus₂] at hstatus
    have hle := status_le_one (Invocation.run files level ⟨config?, job⟩)
    have hle₁ := status_le_one (Invocation.run files level₁ ⟨config?, job₁⟩)
    have hle₂ := status_le_one (Invocation.run files level₂ ⟨config?, job₂⟩)
    omega

/-- A register with a name and one without, together and each by itself. -/
theorem run_operands_reg :
    ∃ r r₁ r₂, run? (fun _ => .error .notFound) .debug ["reg", "8", "026"] = some r ∧
      run? (fun _ => .error .notFound) .off ["reg", "8"] = some r₁ ∧
      run? (fun _ => .error .notFound) .warn ["reg", "026"] = some r₂ ∧
      r.stdout = "$t0\n" ∧ r.errors = "error: 26: unknown register code 26\n" ∧ r.status = 1 ∧
      r.stdout = r₁.stdout ++ r₂.stdout ∧ r.errors = r₁.errors ++ r₂.errors := by
  have hargs : parse ["reg", "8", "026"] = .ok ⟨none, .reg ([8] ++ [26])⟩ := by decide +kernel
  have hargs₁ : parse ["reg", "8"] = .ok ⟨none, .reg [8]⟩ := by decide +kernel
  have hargs₂ : parse ["reg", "026"] = .ok ⟨none, .reg [26]⟩ := by decide +kernel
  have haccepted : Invocation.Accepted (fun _ => .error .notFound) ⟨none, .reg ([8] ++ [26])⟩ {}
      .builtin := ⟨rfl, nofun⟩
  obtain ⟨r, hr, hout, herr, hstatus, hle, hsplit⟩ := run_operands .debug .standard hargs haccepted
  obtain ⟨r₁, r₂, hr₁, hr₂, hout', herr', -⟩ := hsplit .off .warn _ _ _ _ hargs₁ hargs₂ .reg
  refine ⟨r, r₁, r₂, hr, hr₁, hr₂, ?_, ?_, ?_, hout', herr'⟩
  · rw [hout]
    decide +kernel
  · rw [herr]
    decide +kernel
  · exact hle.resolve_left fun hzero => hstatus.mp hzero (.reg 26) (by decide) ⟨_, rfl⟩

end MipsWords.Command
