import Mathlib
import MipsWords.Command.Arguments

/-!
# What an argument can do

`Taken` tells once what an accepted argument does to what has been said before:
it is an operand, names the task, asks for help or leads on from there, ends the
options, or is an option or the value of one. What a whole reading keeps is an
induction over the arguments with one case for each of these (`foldlM_keeps`): a
task stays, operands are only added, and a table that has been named stays named.

Two things come of it. Behind an operand of `reg` that is no code a request for
help is not heard, and so the operand makes the whole line wrong, whatever stands
around it. And a reading that names no table goes on in the same way when it is
handed one, so a table can be named right behind the task.
-/

namespace MipsWords.Command

theorem Argument.eq_of_ofText {text value : String} (h : ofText text = .plain value) :
    value = text := by
  rw [ofText] at h
  split at h
  · cases h
  · cases h
  · cases h
  · cases h
    rfl

theorem Argument.ofText_plain {text : String} (h : text.toList.head? ≠ some '-') :
    ofText text = .plain text := by
  rw [ofText]
  split
  · next htext => exact absurd (by rw [htext]; rfl) h
  · next htext => exact absurd (by rw [htext]; rfl) h
  · next htext => exact absurd (by rw [htext]; rfl) h
  · rfl

theorem Task.name_of_ofName? {text : String} {task : Task} (h : ofName? text = some task) :
    task.name = text := by
  simpa using List.find?_some h

theorem code?_of_mapM {operands : List String} {codes : List Nat}
    (h : operands.mapM code? = some codes) : ∀ text ∈ operands, code? text ≠ none := by
  induction operands generalizing codes with
  | nil => nofun
  | cons first rest ih =>
      rw [List.mapM_cons] at h
      obtain ⟨code, hcode, h⟩ := Option.bind_eq_some_iff.mp h
      obtain ⟨codes', hrest, -⟩ := Option.bind_eq_some_iff.mp h
      refine List.forall_mem_cons.mpr ⟨?_, ih hrest⟩
      rw [hcode]
      nofun

namespace Parsed

variable {p q : Parsed} {text : String}

/-! ## One argument -/

/-- Where an argument stands an operand is awaited, and the argument can be one. -/
def AwaitsOperand (p : Parsed) (text : String) : Prop :=
  p.separated = true ∨
    p.pending? = none ∧ p.task?.isSome = true ∧ Argument.ofText text = .plain text

/-- An argument names an option that may stand where it does, with the value it brings along. -/
inductive Names (p : Parsed) : Argument → Choice → Option String → Prop where
  | config {value? : Option String} : Names p (.long "config" value?) .config value?
  | letter {attached : List Char} : Names p (.short 'c' attached) .config (attachedValue? attached)
  | table {value? : Option String} (htask : p.task? = some .disasm) :
      Names p (.long "table" value?) .table value?

/-- An option is given its value. -/
inductive Given (p : Parsed) (value : String) : Choice → Parsed → Prop where
  | outer (hvalue : value ≠ "") (htask : p.task?.isSome = false) (hfree : p.outer? = none) :
      Given p value .config { p with outer? := some value, pending? := none }
  | inner (hvalue : value ≠ "") (htask : p.task?.isSome = true) (hfree : p.inner? = none) :
      Given p value .config { p with inner? := some value, pending? := none }
  | table (hvalue : value ≠ "") (hfree : p.table? = none) :
      Given p value .table { p with table? := some value, pending? := none }

theorem isRefused_eq_false (htask : p.task?.isSome = true) : p.isRefused = false := by
  rw [isRefused, Option.isNone_eq_false_iff.mpr htask, Bool.and_false]

/-- All that an accepted argument can do. -/
inductive Taken (p : Parsed) (text : String) : Parsed → Prop where
  | operand (h : p.AwaitsOperand text) : Taken p text { p with operands := p.operands ++ [text] }
  | task {task : Task} (hsep : p.separated = false) (hpending : p.pending? = none)
      (htask : p.task? = none) (htext : Argument.ofText text = .plain text)
      (hname : Task.ofName? text = some task) : Taken p text { p with task? := some task }
  | help (hsep : p.separated = false) (hpending : p.pending? = none) (htask : p.task? = none)
      (htext : text = "help") : Taken p text { p with pending? := some (.topic .program) }
  | topic {page next : Page} (hsep : p.separated = false)
      (hpending : p.pending? = some (.topic page)) (hnext : page.next? text = some next) :
      Taken p text { p with pending? := some (.topic next) }
  | separator (hsep : p.separated = false) (hpending : p.pending? = none)
      (htask : p.task?.isSome = true) (htext : Argument.ofText text = .separator) :
      Taken p text { p with separated := true }
  | named {choice : Choice} (hsep : p.separated = false) (hpending : p.pending? = none)
      (hheard : p.isRefused = false) (hnames : p.Names (Argument.ofText text) choice none) :
      Taken p text { p with pending? := some (.value choice) }
  | attached {choice : Choice} {value : String} {q : Parsed} (hsep : p.separated = false)
      (hpending : p.pending? = none) (hheard : p.isRefused = false)
      (hnames : p.Names (Argument.ofText text) choice (some value))
      (hgiven : p.Given value choice q) : Taken p text q
  | value {choice : Choice} {q : Parsed} (hsep : p.separated = false)
      (hpending : p.pending? = some (.value choice)) (htext : Argument.ofText text = .plain text)
      (hgiven : p.Given text choice q) : Taken p text q
  | refusal (hsep : p.separated = false) (hpending : p.pending? = some (.value .config))
      (htask : p.task? = none) (htext : Argument.ofText text = .plain text)
      (hbad : ∀ q, ¬p.Given text .config q) :
      Taken p text { p with pending? := none, refused := true }

theorem give_eq_ok_iff {choice : Choice} {value : String} :
    p.give choice value = .ok q ↔ p.Given value choice q := by
  constructor
  · intro h
    rw [give.eq_def] at h
    split at h
    · cases h
    · next hvalue =>
        cases choice with
        | table =>
            dsimp only at h
            split at h
            · cases h
            · next hfree =>
                cases h
                exact .table hvalue (by simpa using hfree)
        | config =>
            dsimp only at h
            split at h
            · next htask =>
                split at h
                · cases h
                · next hfree =>
                    cases h
                    exact .inner hvalue htask (by simpa using hfree)
            · next htask =>
                split at h
                · cases h
                · next hfree =>
                    cases h
                    exact .outer hvalue (by simpa using htask) (by simpa using hfree)
  · rintro (⟨hvalue, htask, hfree⟩ | ⟨hvalue, htask, hfree⟩ | ⟨hvalue, hfree⟩)
    · simp [give, hvalue, htask, hfree]
    · simp [give, hvalue, htask, hfree]
    · simp [give, hvalue, hfree]

theorem give_eq_error {choice : Choice} {value : String} {stop : Stop}
    (h : p.give choice value = .error stop) : stop = .usage := by
  rw [give.eq_def] at h
  split at h
  · cases h
    rfl
  · cases choice <;> dsimp only at h <;> split_ifs at h <;> cases h <;> rfl

/-- A value in an argument of its own is taken, or refused in front of the task. -/
theorem giveNext_eq_ok_iff {choice : Choice} {value : String} :
    p.giveNext choice value = .ok q ↔ p.Given value choice q ∨
      (∀ q, ¬p.Given value choice q) ∧ (choice = .config ∧ p.task? = none) ∧
        q = { p with pending? := none, refused := true } := by
  simp only [← give_eq_ok_iff]
  rw [giveNext]
  cases p.give choice value with
  | ok q' => simp
  | error stop =>
      by_cases hfront : choice = .config ∧ p.task? = none
      · simp [hfront, eq_comm]
      · simp [hfront]

theorem giveNext_eq_error {choice : Choice} {value : String} {stop : Stop}
    (h : p.giveNext choice value = .error stop) : stop = .usage := by
  rw [giveNext] at h
  split at h
  · cases h
  · next hgive =>
      split at h
      · cases h
      · cases h
        exact give_eq_error hgive

theorem option_eq_ok_iff {choice : Choice} {value? : Option String} :
    p.option choice value? = .ok q ↔ p.isRefused = false ∧
      ((∃ value, value? = some value ∧ p.Given value choice q) ∨
        value? = none ∧ q = { p with pending? := some (.value choice) }) := by
  rw [option.eq_def]
  cases p.isRefused with
  | true => simp
  | false => cases value? with
    | none => simp [eq_comm]
    | some value => simp [give_eq_ok_iff]

theorem option_eq_error {choice : Choice} {value? : Option String} {stop : Stop}
    (h : p.option choice value? = .error stop) : stop = .usage := by
  rw [option.eq_def] at h
  split at h
  · cases h
    rfl
  · split at h
    · exact give_eq_error h
    · cases h

theorem turn_eq_ok_iff {page : Page} :
    p.turn page text = .ok q ↔
      ∃ next, page.next? text = some next ∧ q = { p with pending? := some (.topic next) } := by
  rw [turn]
  cases page.next? text with
  | none => simp
  | some next => simp [eq_comm]

theorem turn_eq_error {page : Page} {stop : Stop} (h : p.turn page text = .error stop) :
    stop = .usage := by
  rw [turn] at h
  split at h
  · cases h
  · cases h
    rfl

theorem Names.step_eq {choice : Choice} {value? : Option String} (hsep : p.separated = false)
    (hpending : p.pending? = none) (h : p.Names (Argument.ofText text) choice value?) :
    p.step text = p.option choice value? := by
  rw [step]
  generalize Argument.ofText text = argument at h
  cases h with
  | config => simp [hsep, hpending]
  | letter => simp [hsep, hpending]
  | table htask => simp [hsep, hpending, htask]

theorem Names.taken {choice : Choice} {value? : Option String} (hsep : p.separated = false)
    (hpending : p.pending? = none) (hnames : p.Names (Argument.ofText text) choice value?)
    (h : p.option choice value? = .ok q) : p.Taken text q := by
  rcases option_eq_ok_iff.mp h with ⟨hheard, ⟨value, rfl, hgiven⟩ | ⟨rfl, rfl⟩⟩
  · exact .attached hsep hpending hheard hnames hgiven
  · exact .named hsep hpending hheard hnames

theorem taken_of_plain (hsep : p.separated = false) (hpending : p.pending? = none)
    (htext : Argument.ofText text = .plain text) (h : p.plain text = .ok q) : p.Taken text q := by
  rw [plain] at h
  split at h
  · next htask =>
      cases h
      exact .operand (.inr ⟨hpending, by rw [htask]; rfl, htext⟩)
  · next htask =>
      split at h
      · next hname =>
          cases h
          exact .task hsep hpending htask htext hname
      · split at h
        · next hhelp =>
            cases h
            exact .help hsep hpending htask hhelp
        · cases h

theorem taken_of_step (h : p.step text = .ok q) : p.Taken text q := by
  rw [step] at h
  split at h
  · next hsep =>
      cases h
      exact .operand (.inl hsep)
  · next hsep =>
      replace hsep : p.separated = false := by simpa using hsep
      split at h
      · next page hpending =>
          obtain ⟨next, hnext, rfl⟩ := turn_eq_ok_iff.mp h
          exact .topic hsep hpending hnext
      · next hpending htext =>
          obtain rfl := Argument.eq_of_ofText htext
          rcases giveNext_eq_ok_iff.mp h with hgiven | ⟨hbad, ⟨rfl, htask⟩, rfl⟩
          · exact .value hsep hpending htext hgiven
          · exact .refusal hsep hpending htask htext hbad
      · cases h
      · next hpending htext =>
          obtain rfl := Argument.eq_of_ofText htext
          exact taken_of_plain hsep hpending htext h
      · next hpending htext =>
          split at h
          · next htask =>
              cases h
              exact .separator hsep hpending htask htext
          · cases h
      · next name value? hpending htext =>
          split_ifs at h with hconfig htable
          · subst hconfig
            exact Names.taken hsep hpending (htext ▸ .config) h
          · obtain ⟨rfl, htask⟩ := htable
            exact Names.taken hsep hpending (htext ▸ .table htask) h
      · next letter attached hpending htext =>
          split_ifs at h with hletter
          subst hletter
          exact Names.taken hsep hpending (htext ▸ .letter) h

/-- An accepted argument does one of the things that `Taken` lists, and each of them is accepted. -/
theorem step_eq_ok_iff : p.step text = .ok q ↔ p.Taken text q := by
  refine ⟨taken_of_step, fun h => ?_⟩
  cases h with
  | operand h =>
      rcases h with hsep | ⟨hpending, htask, htext⟩
      · rw [step, if_pos hsep]
      · obtain ⟨task, htask⟩ := Option.isSome_iff_exists.mp htask
        simp [step, plain, hpending, htext, htask]
  | task hsep hpending htask htext hname => simp [step, plain, *]
  | help hsep hpending htask htext =>
      subst htext
      have hname : Task.ofName? "help" = none := rfl
      have hplain : Argument.ofText "help" = .plain "help" := rfl
      simp [step, plain, *]
  | topic hsep hpending hnext =>
      have hturn := (turn_eq_ok_iff (p := p)).mpr ⟨_, hnext, rfl⟩
      simpa [step, hsep, hpending] using hturn
  | separator hsep hpending htask htext => simp [step, *]
  | named hsep hpending hheard hnames =>
      rw [hnames.step_eq hsep hpending, option_eq_ok_iff]
      exact ⟨hheard, .inr ⟨rfl, rfl⟩⟩
  | attached hsep hpending hheard hnames hgiven =>
      rw [hnames.step_eq hsep hpending, option_eq_ok_iff]
      exact ⟨hheard, .inl ⟨_, rfl, hgiven⟩⟩
  | value hsep hpending htext hgiven =>
      have hgive := giveNext_eq_ok_iff.mpr (.inl hgiven)
      simpa [step, hsep, hpending, htext] using hgive
  | refusal hsep hpending htask htext hbad =>
      have hgive := giveNext_eq_ok_iff.mpr (.inr ⟨hbad, ⟨rfl, htask⟩, rfl⟩)
      simpa [step, hsep, hpending, htext] using hgive

/-- What is not sound is no place for a request, and all other errors are wrong usage. -/
theorem step_eq_error (hsound : p.isSound = false) {stop : Stop}
    (h : p.step text = .error stop) : stop = .usage := by
  have hrequest : ∀ stop, p.request stop = .usage := fun stop => if_neg (by simp [hsound])
  rw [step] at h
  split at h
  · cases h
  · split at h
    · exact turn_eq_error h
    · exact giveNext_eq_error h
    · cases h
      rfl
    · rw [plain] at h
      split at h
      · cases h
      · split at h
        · cases h
        · split at h <;> cases h
          rfl
    · split at h <;> cases h
      rfl
    · split_ifs at h
      · exact option_eq_error h
      · exact option_eq_error h
      · cases h
        exact hrequest _
      · cases h
        exact hrequest _
      · cases h
        rfl
    · split_ifs at h
      · exact option_eq_error h
      · cases h
        exact hrequest _
      · cases h
        exact hrequest _
      · cases h
        rfl

/-! ## Many arguments -/

theorem foldlM_cons_eq_ok_iff {rest : List String} :
    (text :: rest).foldlM step p = .ok q ↔
      ∃ p', p.Taken text p' ∧ rest.foldlM step p' = .ok q := by
  rw [List.foldlM_cons]
  simp only [← step_eq_ok_iff]
  cases p.step text with
  | error stop => simp [bind, Except.bind]
  | ok p' => simp [bind, Except.bind]

theorem foldlM_append_of_ok {before after : List String} (h : before.foldlM step p = .ok q) :
    (before ++ after).foldlM step p = after.foldlM step q := by
  rw [List.foldlM_append, h]
  rfl

/-- Whether an option waits for a value makes no difference to what the value does. -/
theorem Given.of_pending {choice : Choice} {pending : Pending} {path : String} (h : p.Given path choice q) :
    Given { p with pending? := some pending } path choice q := by
  cases h with
  | outer hvalue htask hfree => exact .outer hvalue htask hfree
  | inner hvalue htask hfree => exact .inner hvalue htask hfree
  | table hvalue hfree => exact .table hvalue hfree

/-- An option and its value in the next argument. -/
theorem foldlM_named {choice : Choice} {path : String} (hsep : p.separated = false)
    (hpending : p.pending? = none) (hheard : p.isRefused = false) (hnames : p.Names (Argument.ofText text) choice none)
    (hplain : path.toList.head? ≠ some '-') (hgiven : p.Given path choice q) :
    [text, path].foldlM step p = .ok q := by
  have hvalue : Taken { p with pending? := some (.value choice) } path q :=
    .value hsep rfl (Argument.ofText_plain hplain) hgiven.of_pending
  exact foldlM_cons_eq_ok_iff.mpr ⟨_, .named hsep hpending hheard hnames,
    foldlM_cons_eq_ok_iff.mpr ⟨q, hvalue, rfl⟩⟩

/-- What every accepted argument keeps, a whole reading keeps. -/
theorem foldlM_keeps {P : Parsed → Prop} (hstep : ∀ p text q, P p → p.Taken text q → P q)
    {args : List String} (h : args.foldlM step p = .ok q) (hp : P p) : P q := by
  induction args generalizing p with
  | nil =>
      cases h
      exact hp
  | cons text rest ih =>
      obtain ⟨p', htaken, hrest⟩ := foldlM_cons_eq_ok_iff.mp h
      exact ih hrest (hstep _ _ _ hp htaken)

theorem Taken.task_eq {task : Task} (h : p.Taken text q) (htask : p.task? = some task) :
    q.task? = some task := by
  cases h with
  | operand | topic | separator | named | refusal => exact htask
  | task _ _ hnone | help _ _ hnone => rw [htask] at hnone; cases hnone
  | attached _ _ _ _ hgiven | value _ _ _ hgiven => cases hgiven <;> exact htask

theorem Taken.mem_operands {operand : String} (h : p.Taken text q) (hmem : operand ∈ p.operands) :
    operand ∈ q.operands := by
  cases h with
  | operand => exact List.mem_append_left _ hmem
  | task | help | topic | separator | named | refusal => exact hmem
  | attached _ _ _ _ hgiven | value _ _ _ hgiven => cases hgiven <;> exact hmem

/-- Help by the word `help` is asked for in place of a task. -/
def TopicOutside (p : Parsed) : Prop := ∀ page, p.pending? = some (.topic page) → p.task? = none

theorem Taken.topicOutside (h : p.Taken text q) (hp : p.TopicOutside) : q.TopicOutside := by
  cases h with
  | operand => exact hp
  | task _ hpending => exact fun page htopic => absurd (hpending.symm.trans htopic) nofun
  | help _ _ htask => exact fun _ _ => htask
  | topic _ hpending => exact fun _ _ => hp _ hpending
  | separator => exact hp
  | named | refusal => exact fun _ => nofun
  | attached _ _ _ _ hgiven | value _ _ _ hgiven => cases hgiven <;> exact fun _ => nofun

/-- An operand of `reg` that is no code, with no help asked for before the task. -/
structure Spoiled (p : Parsed) (code : String) : Prop where
  task? : p.task? = some .reg
  mem_operands : code ∈ p.operands
  code? : code? code = none
  topicOutside : p.TopicOutside

theorem Taken.spoiled {code : String} (h : p.Taken text q) (hp : p.Spoiled code) :
    q.Spoiled code :=
  ⟨h.task_eq hp.task?, h.mem_operands hp.mem_operands, hp.code?, h.topicOutside hp.topicOutside⟩

theorem Spoiled.isSound_eq {code : String} (h : p.Spoiled code) : p.isSound = false := by
  have hall : (p.operands.all fun text => (Command.code? text).isSome) = false := by
    rw [List.all_eq_false]
    exact ⟨code, h.mem_operands, by simp [h.code?]⟩
  simp [isSound, h.task?, hall]

/-- Once an operand is no code, the rest of the line does not matter. -/
theorem Spoiled.foldlM_eq_error {code : String} {args : List String} {stop : Stop}
    (hp : p.Spoiled code) (h : args.foldlM step p = .error stop) : stop = .usage := by
  induction args generalizing p with
  | nil => cases h
  | cons text rest ih =>
      rw [List.foldlM_cons] at h
      cases hfirst : p.step text with
      | error stop' =>
          rw [hfirst] at h
          cases h
          exact step_eq_error hp.isSound_eq hfirst
      | ok p' =>
          rw [hfirst] at h
          exact ih ((taken_of_step hfirst).spoiled hp) h

theorem Spoiled.finish_eq {code : String} (h : p.Spoiled code) : p.finish = .error .usage := by
  rw [finish]
  split
  · next page hpending =>
      have hnone := h.topicOutside page hpending
      rw [h.task?] at hnone
      cases hnone
  · rfl
  · split
    · rfl
    · rw [work, h.task?]
      dsimp only
      split
      · next hcodes => exact absurd h.code? (code?_of_mapM hcodes code h.mem_operands)
      · rfl

/-- A line comes to work if nothing is missing at its end and no value has been refused. -/
theorem finish_eq_ok_iff {i : Invocation} :
    p.finish = .ok i ↔
      p.pending? = none ∧ p.refused = false ∧ p.operands ≠ [] ∧ p.work = .ok i := by
  rw [finish]
  split
  · next hpending => simp [hpending]
  · next hpending => simp [hpending]
  · next hpending =>
      split
      · next hbad =>
          refine ⟨nofun, ?_⟩
          rintro ⟨-, hrefused, hoperands, -⟩
          rcases hbad with hbad | hbad
          · rw [hrefused] at hbad
            cases hbad
          · exact absurd hbad hoperands
      · next hgood =>
          rw [not_or] at hgood
          exact ⟨fun h => ⟨hpending, by simpa using hgood.1, hgood.2, h⟩, fun h => h.2.2.2⟩

end Parsed

open Parsed (step)

theorem parse_eq_ok_iff {args : List String} {i : Invocation} :
    parse args = .ok i ↔ ∃ p : Parsed, args.foldlM step {} = .ok p ∧ p.finish = .ok i := by
  rw [parse]
  cases args.foldlM step {} with
  | error stop => simp [bind, Except.bind]
  | ok p => simp [bind, Except.bind]

/-! ## Codes that are none -/

/-- A line of `reg` has an operand that is no code, wherever it stands and whatever follows. -/
def MalformedCode (args : List String) : Prop :=
  ∃ before code after p, args = before ++ code :: after ∧ before.foldlM step {} = .ok p ∧
    p.task? = some .reg ∧ p.AwaitsOperand code ∧ code? code = none

theorem parse_of_malformedCode {args : List String} (h : MalformedCode args) :
    parse args = .error .usage := by
  obtain ⟨before, code, after, p, rfl, hbefore, htask, hawaits, hcode⟩ := h
  have hp : p.TopicOutside :=
    Parsed.foldlM_keeps (fun _ _ _ hp htaken => htaken.topicOutside hp) hbefore fun _ => nofun
  have hspoiled : Parsed.Spoiled { p with operands := p.operands ++ [code] } code :=
    ⟨htask, List.mem_append_right _ (List.mem_singleton_self code), hcode, hp⟩
  have hfold : (before ++ code :: after).foldlM step {} =
      after.foldlM step { p with operands := p.operands ++ [code] } := by
    rw [Parsed.foldlM_append_of_ok hbefore, List.foldlM_cons,
      Parsed.step_eq_ok_iff.mpr (.operand hawaits)]
    rfl
  rw [parse, hfold]
  cases hafter : after.foldlM step { p with operands := p.operands ++ [code] } with
  | error stop => rw [hspoiled.foldlM_eq_error hafter]; rfl
  | ok q =>
      have hq : q.Spoiled code :=
        Parsed.foldlM_keeps (fun _ _ _ hp htaken => htaken.spoiled hp) hafter hspoiled
      exact hq.finish_eq

/-! ## A table named behind the task -/

namespace Parsed

variable {p q : Parsed} {text path : String}

/-- A table has been named, or the option for it is there and waits for its value. -/
def NamesTable (p : Parsed) : Prop := p.table?.isSome = true ∨ p.pending? = some (.value .table)

/-- With a table that has been named. -/
def withTable (p : Parsed) (path : String) : Parsed := { p with table? := some path }

theorem Taken.namesTable (h : p.Taken text q) (hp : p.NamesTable) : q.NamesTable := by
  cases h with
  | operand | task | separator => exact hp
  | help _ hpending | topic _ hpending | named _ hpending | refusal _ hpending =>
      exact .inl (hp.resolve_right (by rw [hpending]; nofun))
  | attached _ hpending _ _ hgiven =>
      have htable := hp.resolve_right (by rw [hpending]; nofun)
      cases hgiven with
      | outer | inner => exact .inl htable
      | table => exact .inl rfl
  | value _ hpending _ hgiven =>
      cases hgiven with
      | outer | inner => exact .inl (hp.resolve_right (by rw [hpending]; nofun))
      | table => exact .inl rfl

/-- An argument does the same when a table has been named already, unless it names one. -/
theorem Taken.withTable (h : p.Taken text q) (hq : ¬q.NamesTable) :
    (p.withTable path).Taken text (q.withTable path) := by
  have hgiven : ∀ {choice value q}, p.Given value choice q → ¬q.NamesTable →
      (p.withTable path).Given value choice (q.withTable path) := by
    intro choice value q h hq
    cases h with
    | outer hvalue htask hfree => exact .outer hvalue htask hfree
    | inner hvalue htask hfree => exact .inner hvalue htask hfree
    | table => exact absurd (.inl rfl) hq
  have hnames : ∀ {argument choice value?}, p.Names argument choice value? →
      (p.withTable path).Names argument choice value? := by
    rintro _ _ _ (_ | _ | htask)
    · exact .config
    · exact .letter
    · exact .table htask
  cases h with
  | operand h => exact .operand h
  | task hsep hpending htask htext hname => exact .task hsep hpending htask htext hname
  | help hsep hpending htask htext => exact .help hsep hpending htask htext
  | topic hsep hpending hnext => exact .topic hsep hpending hnext
  | separator hsep hpending htask htext => exact .separator hsep hpending htask htext
  | named hsep hpending hheard h => exact .named hsep hpending hheard (hnames h)
  | attached hsep hpending hheard h hq' =>
      exact .attached hsep hpending hheard (hnames h) (hgiven hq' hq)
  | value hsep hpending htext hq' => exact .value hsep hpending htext (hgiven hq' hq)
  | refusal hsep hpending htask htext hbad =>
      refine .refusal hsep hpending htask htext fun q' hq' => ?_
      cases hq' with
      | outer hvalue htask' hfree => exact hbad _ (.outer hvalue htask' hfree)
      | inner hvalue htask' hfree => exact hbad _ (.inner hvalue htask' hfree)

theorem foldlM_withTable {args : List String} (h : args.foldlM step p = .ok q)
    (hq : ¬q.NamesTable) : args.foldlM step (p.withTable path) = .ok (q.withTable path) := by
  induction args generalizing p with
  | nil =>
      cases h
      rfl
  | cons text rest ih =>
      obtain ⟨p', htaken, hrest⟩ := foldlM_cons_eq_ok_iff.mp h
      have hp' : ¬p'.NamesTable := fun hp' =>
        hq (foldlM_keeps (fun _ _ _ hp htaken => htaken.namesTable hp) hrest hp')
      exact foldlM_cons_eq_ok_iff.mpr ⟨_, htaken.withTable hp', ih hrest⟩

/-- A reading that ends with a task has come by its name. -/
theorem exists_task {args : List String} {task : Task} (h : args.foldlM step p = .ok q)
    (hp : p.task? = none) (hq : q.task? = some task) :
    ∃ before after p', args = before ++ task.name :: after ∧ before.foldlM step p = .ok p' ∧
      p'.separated = false ∧ p'.pending? = none ∧
      p'.step task.name = .ok { p' with task? := some task } ∧
      after.foldlM step { p' with task? := some task } = .ok q := by
  induction args generalizing p with
  | nil =>
      cases h
      rw [hp] at hq
      cases hq
  | cons text rest ih =>
      obtain ⟨p₁, htaken, hrest⟩ := foldlM_cons_eq_ok_iff.mp h
      by_cases hnone : p₁.task? = none
      · obtain ⟨before, after, p', rfl, hbefore, hafter⟩ := ih hrest hnone
        exact ⟨text :: before, after, p', rfl, foldlM_cons_eq_ok_iff.mpr ⟨p₁, htaken, hbefore⟩,
          hafter⟩
      · have hstep := step_eq_ok_iff.mpr htaken
        cases htaken with
        | operand | help | topic | separator | named | refusal => exact absurd hp hnone
        | attached _ _ _ _ hgiven | value _ _ _ hgiven => cases hgiven <;> exact absurd hp hnone
        | @task task' hsep hpending _ _ hname =>
            have htask : q.task? = some task' := foldlM_keeps
              (P := fun p => p.task? = some task') (fun _ _ _ hp htaken => htaken.task_eq hp)
              hrest rfl
            obtain rfl : task = task' := by
              rw [hq] at htask
              exact Option.some.inj htask
            obtain rfl := Task.name_of_ofName? hname
            exact ⟨[], rest, p, rfl, rfl, hsep, hpending, hstep, hrest⟩

theorem finish_withTable {config? : Option String} {words : List String} (path : String)
    (h : p.finish = .ok ⟨config?, .disasm none words⟩) :
    p.task? = some .disasm ∧ ¬p.NamesTable ∧
      (p.withTable path).finish = .ok ⟨config?, .disasm (some path) words⟩ := by
  obtain ⟨hpending, hrefused, hoperands, hwork⟩ := finish_eq_ok_iff.mp h
  rw [work] at hwork
  split at hwork
  · cases hwork
  · cases hwork
  · next htask =>
      simp only [Except.ok.injEq, Invocation.mk.injEq, Job.disasm.injEq] at hwork
      obtain ⟨rfl, htable, rfl⟩ := hwork
      refine ⟨htask, ?_, finish_eq_ok_iff.mpr ⟨hpending, hrefused, hoperands, ?_⟩⟩
      · rintro (hsome | hvalue)
        · rw [htable] at hsome
          cases hsome
        · rw [hpending] at hvalue
          cases hvalue
      · have htask' : (p.withTable path).task? = some .disasm := htask
        rw [work, htask']
        rfl
  · split at hwork <;> cases hwork

theorem foldlM_name_table (hsep : p.separated = false) (hpending : p.pending? = none)
    (htask : p.task? = some .disasm) (htable : p.table? = none) (hpath : path ≠ "")
    (hplain : path.toList.head? ≠ some '-') :
    ["--table", path].foldlM step p = .ok (p.withTable path) := by
  have hnamed : ["--table", path].foldlM step p =
      .ok { p with table? := some path, pending? := none } :=
    foldlM_named hsep hpending (isRefused_eq_false (by rw [htask]; rfl)) (.table htask) hplain
      (.table hpath htable)
  rw [hnamed, withTable, ← hpending]

end Parsed

/-- To a line that names no table one can be added right behind the task. -/
theorem parse_insert_table {args words : List String} {config? : Option String} {path : String}
    (h : parse args = .ok ⟨config?, .disasm none words⟩) (hpath : path ≠ "")
    (hplain : path.toList.head? ≠ some '-') :
    ∃ before after, args = before ++ "disasm" :: after ∧
      parse (before ++ "disasm" :: "--table" :: path :: after) =
        .ok ⟨config?, .disasm (some path) words⟩ := by
  obtain ⟨q, hfold, hfinish⟩ := parse_eq_ok_iff.mp h
  obtain ⟨htask, hq, hfinish⟩ := Parsed.finish_withTable path hfinish
  obtain ⟨before, after, p, rfl, hbefore, hsep, hpending, hname, hafter⟩ :=
    Parsed.exists_task hfold rfl htask
  refine ⟨before, after, rfl, parse_eq_ok_iff.mpr ⟨_, ?_, hfinish⟩⟩
  generalize hp₁ : ({ p with task? := some .disasm } : Parsed) = p₁ at hname hafter
  have hunnamed : ¬p₁.NamesTable := fun hnames => hq <|
    Parsed.foldlM_keeps (fun _ _ _ hp htaken => htaken.namesTable hp) hafter hnames
  have hnamed : ["--table", path].foldlM step p₁ = .ok (p₁.withTable path) := by
    subst hp₁
    refine Parsed.foldlM_name_table hsep hpending rfl ?_ hpath hplain
    cases htable : p.table? with
    | none => rfl
    | some table => exact absurd (.inl (by simp [htable])) hunnamed
  calc (before ++ "disasm" :: "--table" :: path :: after).foldlM step {}
      = ("disasm" :: (["--table", path] ++ after)).foldlM step p :=
        Parsed.foldlM_append_of_ok hbefore
    _ = (["--table", path] ++ after).foldlM step p₁ := by
        rw [List.foldlM_cons, show step p "disasm" = .ok p₁ from hname]
        rfl
    _ = after.foldlM step (p₁.withTable path) := Parsed.foldlM_append_of_ok hnamed
    _ = .ok (q.withTable path) := Parsed.foldlM_withTable hafter hq

end MipsWords.Command
