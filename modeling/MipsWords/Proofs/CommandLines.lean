import MipsWords.Command.Run
import MipsWords.Proofs.Arguments

/-!
# One request, many command lines

A request is a task with its operands and the paths of its options. It can be
written in many ways: an option has several spellings, the settings file may be
named before the task, and behind the task the options stand anywhere among the
operands. `Arranged` derives what can stand behind a task piece by piece, the
next piece being an operand, an option or the mark that ends the options.

One piece does one thing to what has been said before, and the pieces do not get
in each other's way: an operand only adds to the operands, an option sets a place
that no other piece sets. So by induction over the derivation the reading ends
with the operands in their order and the paths in their places, and that is all
that the work depends on.
-/

namespace MipsWords.Command

/-! ## Ways to write a request -/

/-- The name of an option, without the dashes. -/
def Choice.name : Choice → String
  | config => "config"
  | table => "table"

/-- The ways to write an option and its value. Only the settings file has a letter. -/
inductive Spells (path : String) : Choice → List String → Prop where
  | long {choice : Choice} : Spells path choice ["--" ++ choice.name, path]
  | longEquals {choice : Choice} : Spells path choice ["--" ++ choice.name ++ "=" ++ path]
  | short : Spells path .config ["-c", path]
  | shortAttached : Spells path .config ["-c" ++ path]
  | shortEquals : Spells path .config ["-c=" ++ path]

/-- The ways to write options and operands behind a task. Behind `--` stand operands only. -/
inductive Arranged : Option String → Option String → List String → List String → Prop where
  | nil : Arranged none none [] []
  | separator {operands : List String} : Arranged none none operands ("--" :: operands)
  | operand {config? table? : Option String} {text : String} {operands args : List String} :
      Arranged config? table? operands args →
      Arranged config? table? (text :: operands) (text :: args)
  | config {table? : Option String} {path : String} {words operands args : List String} :
      Spells path .config words → Arranged none table? operands args →
      Arranged (some path) table? operands (words ++ args)
  | table {config? : Option String} {path : String} {words operands args : List String} :
      Spells path .table words → Arranged config? none operands args →
      Arranged config? (some path) operands (words ++ args)

/-- A task with its operands and the paths of its options. -/
structure Request where
  task : Task
  config? : Option String
  table? : Option String
  operands : List String

namespace Request

/-- The command lines for a request. -/
inductive Written (r : Request) : List String → Prop where
  | inner {args : List String} : Arranged r.config? r.table? r.operands args →
      Written r (r.task.name :: args)
  | outer {path : String} {words args : List String} : r.config? = some path →
      Spells path .config words → Arranged none r.table? r.operands args →
      Written r (words ++ r.task.name :: args)

/-- A path that no reading takes for an option or cuts short. -/
structure IsPath (path : String) : Prop where
  ne_empty : path ≠ ""
  ne_dash : path.toList.head? ≠ some '-'
  ne_equals : path.toList.head? ≠ some '='

/-- A request that can be written without regard to what its operands and paths say. -/
structure Plain (r : Request) : Prop where
  operands_ne_nil : r.operands ≠ []
  operand : ∀ text ∈ r.operands, text.toList.head? ≠ some '-'
  config : ∀ path, r.config? = some path → IsPath path
  table : ∀ path, r.table? = some path → IsPath path ∧ r.task = .disasm

/-- What a request comes to: its task on its operands as they are and in their order. Operands of
`reg` are read as codes, all or none. -/
def invocation (r : Request) : Except Stop Invocation :=
  match r.task with
  | .classify => .ok ⟨r.config?, .classify r.operands⟩
  | .disasm => .ok ⟨r.config?, .disasm r.table? r.operands⟩
  | .reg =>
    match r.operands.mapM code? with
    | some codes => .ok ⟨r.config?, .reg codes⟩
    | none => .error .usage

end Request

/-! ## Options -/

theorem Argument.ofText_long (choice : Choice) :
    ofText ("--" ++ choice.name) = .long choice.name none := by
  cases choice <;> rfl

theorem Argument.ofText_longEquals (choice : Choice) (path : String) :
    ofText ("--" ++ choice.name ++ "=" ++ path) = .long choice.name (some path) := by
  have htext : ("--" ++ choice.name ++ "=" ++ path).toList =
      '-' :: '-' :: (choice.name.toList ++ '=' :: path.toList) := by
    simp [String.toList_append]
  rw [ofText, htext]
  cases choice <;> simp [Choice.name]

theorem Argument.ofText_short {text : String} (attached : List Char)
    (h : text.toList = '-' :: 'c' :: attached) : ofText text = .short 'c' attached := by
  rw [ofText, h]
  simp

theorem attachedValue?_path {path : String} (h : Request.IsPath path) :
    attachedValue? path.toList = some path := by
  rw [attachedValue?.eq_def]
  split
  · next hnil => exact absurd (String.toList_eq_nil_iff.mp hnil) h.ne_empty
  · next hequals => exact absurd (by rw [hequals]; rfl) h.ne_equals
  · rw [String.ofList_toList]

namespace Parsed

variable {p q : Parsed}

/-- An option stands where it may, and nothing before it waits for a value. -/
structure Admits (p : Parsed) (choice : Choice) : Prop where
  separated : p.separated = false
  pending? : p.pending? = none
  task? : choice = .table → p.task? = some .disasm
  isRefused : p.isRefused = false

variable {choice : Choice} {text path : String}

theorem Admits.names (h : p.Admits choice) (value? : Option String) :
    p.Names (.long choice.name value?) choice value? := by
  cases choice with
  | config => exact .config
  | table => exact .table (h.task? rfl)

theorem Admits.foldlM_attached (hp : p.Admits choice)
    (hnames : p.Names (Argument.ofText text) choice (some path)) (hgiven : p.Given path choice q) :
    [text].foldlM step p = .ok q :=
  foldlM_cons_eq_ok_iff.mpr
    ⟨q, .attached hp.separated hp.pending? hp.isRefused hnames hgiven, rfl⟩

/-- However an option is written, it is given its value. -/
theorem Admits.foldlM_spells {words : List String} (hp : p.Admits choice)
    (hpath : Request.IsPath path) (h : Spells path choice words) (hgiven : p.Given path choice q) :
    words.foldlM step p = .ok q := by
  cases h with
  | long =>
      refine foldlM_named hp.separated hp.pending? hp.isRefused ?_ hpath.ne_dash hgiven
      rw [Argument.ofText_long]
      exact hp.names none
  | longEquals =>
      refine hp.foldlM_attached ?_ hgiven
      rw [Argument.ofText_longEquals]
      exact hp.names (some path)
  | short =>
      refine foldlM_named hp.separated hp.pending? hp.isRefused ?_ hpath.ne_dash hgiven
      rw [Argument.ofText_short [] rfl]
      exact .letter
  | shortAttached =>
      refine hp.foldlM_attached ?_ hgiven
      rw [Argument.ofText_short path.toList (by simp [String.toList_append]),
        ← attachedValue?_path hpath]
      exact .letter
  | shortEquals =>
      refine hp.foldlM_attached ?_ hgiven
      have hvalue : attachedValue? ('=' :: path.toList) = some path := by
        rw [attachedValue?, String.ofList_toList]
      rw [Argument.ofText_short ('=' :: path.toList) (by simp [String.toList_append]), ← hvalue]
      exact .letter

/-! ## What stands behind a task -/

/-- A task has been named, and what may still be said of it has not been said. -/
structure Awaits (p : Parsed) (task : Task) (config? table? : Option String) : Prop where
  task? : p.task? = some task
  separated : p.separated = false
  pending? : p.pending? = none
  config : config?.isSome → p.inner? = none
  table : table?.isSome → task = .disasm ∧ p.table? = none

/-- What has been said with paths, if there are any, and operands added to it. -/
def saying (p : Parsed) (config? table? : Option String) (operands : List String) : Parsed :=
  { p with
    inner? := config?.or p.inner?
    table? := table?.or p.table?
    operands := p.operands ++ operands }

variable {task : Task} {config? table? : Option String}

theorem foldlM_separated (hsep : p.separated = true) (operands : List String) :
    operands.foldlM step p = .ok (p.saying none none operands) := by
  induction operands generalizing p with
  | nil => simp [saying, pure, Except.pure]
  | cons text rest ih =>
      have hstep : p.step text = .ok { p with operands := p.operands ++ [text] } := by
        rw [step, if_pos hsep]
      rw [List.foldlM_cons, hstep]
      refine (ih (p := { p with operands := p.operands ++ [text] }) hsep).trans ?_
      simp [saying]

theorem Awaits.admits_config (hp : p.Awaits task (some path) table?) :
    p.Admits .config :=
  ⟨hp.separated, hp.pending?, nofun, isRefused_eq_false (by rw [hp.task?]; rfl)⟩

theorem Awaits.admits_table (hp : p.Awaits task config? (some path)) :
    p.Admits .table :=
  ⟨hp.separated, hp.pending?, fun _ => by rw [hp.task?, (hp.table rfl).1],
    isRefused_eq_false (by rw [hp.task?]; rfl)⟩

end Parsed

open Parsed (step)

/-- Whatever the order of options and operands, each path comes to its place and the operands come
behind those before them. Only `--` leaves a trace of its own. -/
theorem Arranged.foldlM_step {p : Parsed} {task : Task} {config? table? : Option String}
    {operands args : List String} (h : Arranged config? table? operands args)
    (hp : p.Awaits task config? table?)
    (hoperand : ∀ text ∈ operands, text.toList.head? ≠ some '-')
    (hconfig : ∀ path, config? = some path → Request.IsPath path)
    (htable : ∀ path, table? = some path → Request.IsPath path) :
    ∃ separated, args.foldlM step p =
      .ok { p.saying config? table? operands with separated := separated } := by
  induction h generalizing p with
  | nil => exact ⟨p.separated, by simp [Parsed.saying, pure, Except.pure]⟩
  | @separator operands =>
      have hstep : p.step "--" = .ok { p with separated := true } :=
        Parsed.step_eq_ok_iff.mpr (.separator hp.separated hp.pending? (by rw [hp.task?]; rfl) rfl)
      refine ⟨true, ?_⟩
      rw [List.foldlM_cons, hstep]
      exact Parsed.foldlM_separated rfl operands
  | @operand config? table? text operands args _ ih =>
      obtain ⟨htext, hrest⟩ := List.forall_mem_cons.mp hoperand
      have hstep : p.step text = .ok { p with operands := p.operands ++ [text] } :=
        Parsed.step_eq_ok_iff.mpr <| .operand <|
          .inr ⟨hp.pending?, by rw [hp.task?]; rfl, Argument.ofText_plain htext⟩
      obtain ⟨separated, hargs⟩ := ih (p := { p with operands := p.operands ++ [text] })
        ⟨hp.task?, hp.separated, hp.pending?, hp.config, hp.table⟩ hrest hconfig htable
      refine ⟨separated, ?_⟩
      rw [List.foldlM_cons, hstep]
      refine hargs.trans ?_
      simp [Parsed.saying]
  | @config table? path words operands args hwords _ ih =>
      have hpath : Request.IsPath path := hconfig path rfl
      have hgiven : p.Given path .config { p with inner? := some path, pending? := none } :=
        .inner hpath.ne_empty (by rw [hp.task?]; rfl) (hp.config rfl)
      obtain ⟨separated, hargs⟩ := ih (p := { p with inner? := some path, pending? := none })
        ⟨hp.task?, hp.separated, rfl, nofun, hp.table⟩ hoperand nofun htable
      refine ⟨separated, ?_⟩
      rw [Parsed.foldlM_append_of_ok (hp.admits_config.foldlM_spells hpath hwords hgiven), hargs]
      simp [Parsed.saying, hp.pending?]
  | @table config? path words operands args hwords _ ih =>
      have hpath : Request.IsPath path := htable path rfl
      have hgiven : p.Given path .table { p with table? := some path, pending? := none } :=
        .table hpath.ne_empty (hp.table rfl).2
      obtain ⟨separated, hargs⟩ := ih (p := { p with table? := some path, pending? := none })
        ⟨hp.task?, hp.separated, rfl, hp.config, nofun⟩ hoperand hconfig nofun
      refine ⟨separated, ?_⟩
      rw [Parsed.foldlM_append_of_ok (hp.admits_table.foldlM_spells hpath hwords hgiven), hargs]
      simp [Parsed.saying, hp.pending?]

/-! ## Whole lines -/

theorem Task.ofName?_name (task : Task) : ofName? task.name = some task := by
  cases task <;> decide

theorem Task.ofText_name (task : Task) : Argument.ofText task.name = .plain task.name := by
  cases task <;> rfl

theorem Parsed.step_name {p : Parsed} (hsep : p.separated = false) (hpending : p.pending? = none)
    (htask : p.task? = none) (task : Task) :
    p.step task.name = .ok { p with task? := some task } :=
  Parsed.step_eq_ok_iff.mpr <|
    .task hsep hpending htask task.ofText_name task.ofName?_name

namespace Request

variable {r : Request} {args : List String}

theorem finish_eq_invocation {p : Parsed} (hoperands : r.operands ≠ [])
    (hpending : p.pending? = none) (hrefused : p.refused = false) (htask : p.task? = some r.task)
    (hconfig : p.inner?.or p.outer? = r.config?) (htable : p.table? = r.table?)
    (hp : p.operands = r.operands) : p.finish = r.invocation := by
  have hdone : ¬(p.refused = true ∨ p.operands = []) := by
    simp [hrefused, hp, hoperands]
  have hfinish : p.finish = p.work := by
    simp only [Parsed.finish, hpending, if_neg hdone]
  rw [hfinish, Parsed.work, invocation, htask, hconfig, htable, hp]
  cases r.task <;> rfl

/-- With at most the settings file named before the task, and the rest of the request behind it. -/
theorem Plain.parse_arranged (hr : r.Plain) (before : List String) {inner? : Option String}
    (outer? : Option String) (hbefore : before.foldlM step {} = .ok { outer? := outer? })
    (hconfig : inner?.or outer? = r.config?) (h : Arranged inner? r.table? r.operands args) :
    parse (before ++ r.task.name :: args) = r.invocation := by
  have hinner : ∀ path, inner? = some path → IsPath path := by
    rintro path rfl
    exact hr.config path hconfig.symm
  have hawaits : Parsed.Awaits { outer? := outer?, task? := some r.task } r.task inner? r.table? :=
    ⟨rfl, rfl, rfl, fun _ => rfl, fun hsome => by
      obtain ⟨path, hpath⟩ := Option.isSome_iff_exists.mp hsome
      exact ⟨(hr.table path hpath).2, rfl⟩⟩
  obtain ⟨separated, hargs⟩ :=
    h.foldlM_step hawaits hr.operand hinner fun path hpath => (hr.table path hpath).1
  rw [parse, Parsed.foldlM_append_of_ok hbefore, List.foldlM_cons,
    Parsed.step_name rfl rfl rfl r.task]
  show args.foldlM step { outer? := outer?, task? := some r.task } >>= Parsed.finish = _
  rw [hargs]
  let said := Parsed.saying { outer? := outer?, task? := some r.task } inner? r.table? r.operands
  show Parsed.finish { said with separated := separated } = _
  refine finish_eq_invocation hr.operands_ne_nil rfl rfl rfl ?_ ?_ ?_
  · simpa [said, Parsed.saying] using hconfig
  · simp [said, Parsed.saying]
  · simp [said, Parsed.saying]

theorem Plain.parse_written (hr : r.Plain) (h : r.Written args) : parse args = r.invocation := by
  cases h with
  | inner h =>
      exact hr.parse_arranged [] none rfl (by simp) h
  | @outer path words args hconfig hwords h =>
      have hpath : IsPath path := hr.config path hconfig
      have hadmits : Parsed.Admits {} .config := ⟨rfl, rfl, nofun, rfl⟩
      refine hr.parse_arranged words (some path) ?_ (by simp [hconfig]) h
      exact hadmits.foldlM_spells hpath hwords (.outer hpath.ne_empty rfl rfl)

/-- All the lines that a request can be written as come to the same, which is the task with the
operands as they are and in their order. -/
theorem run_eq_of_written (hr : r.Plain) {args' : List String} (h : r.Written args)
    (h' : r.Written args') (files : Files) (level : Level) (manual : Manual) :
    parse args = r.invocation ∧ run? files level args manual = run? files level args' manual := by
  have hparse : parse args = parse args' := by
    rw [hr.parse_written h, hr.parse_written h']
  exact ⟨hr.parse_written h, by rw [run?, run?, hparse]⟩

/-- Paths and operands that look like tasks or like parts of an option. -/
theorem run_eq_of_written_disasm :
    parse ["-creg", "disasm", "classify", "--table=a=b", "--", "config"] =
        .ok ⟨some "reg", .disasm (some "a=b") ["classify", "config"]⟩ ∧
      ∀ files level,
        run? files level ["-creg", "disasm", "classify", "--table=a=b", "--", "config"] =
          run? files level ["disasm", "--table", "a=b", "classify", "config", "--config=reg"] := by
  let r : Request := ⟨.disasm, some "reg", some "a=b", ["classify", "config"]⟩
  have hr : r.Plain :=
    { operands_ne_nil := nofun
      operand := List.forall_mem_cons.mpr ⟨by decide, List.forall_mem_cons.mpr ⟨by decide, nofun⟩⟩
      config := fun _ h => Option.some.inj h ▸ ⟨by decide, by decide, by decide⟩
      table := fun _ h => Option.some.inj h ▸ ⟨⟨by decide, by decide, by decide⟩, rfl⟩ }
  have hattached : Spells "reg" .config ["-creg"] := .shortAttached
  have hequals : Spells "a=b" .table ["--table=a=b"] := .longEquals
  have hlong : Spells "a=b" .table ["--table", "a=b"] := .long
  have hlast : Spells "reg" .config ["--config=reg"] := .longEquals
  have h : r.Written ["-creg", "disasm", "classify", "--table=a=b", "--", "config"] :=
    .outer rfl hattached (.operand (.table hequals .separator))
  have h' : r.Written ["disasm", "--table", "a=b", "classify", "config", "--config=reg"] :=
    .inner (.table hlong (.operand (.operand (.config hlast .nil))))
  exact ⟨hr.parse_written h, fun files level => (run_eq_of_written hr h h' files level _).2⟩

end Request

end MipsWords.Command
