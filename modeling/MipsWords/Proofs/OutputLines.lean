import MipsWords.Proofs.Insertions
import MipsWords.Proofs.OperandText
import MipsWords.Proofs.ReadingBack

/-!
# The lines of an output

`disasm` ends each of its results with a line feed, so whoever reads its output
line by line gets a line for each word, as long as no result holds a line feed of
its own. The word in front holds none, and no register and no number does. The
mnemonic is the one part of a result that is taken over as it stands, and the
keys of a table file are judged but its names are not.

So the line feeds of an output are those that end its results and those of the
mnemonics in them (`count_lineFeed_results`, by induction over the operands).
There is one line for each word exactly when the second kind is missing. For a
table that is so whatever the operands exactly when no mnemonic that a word can
ask for holds a line feed, because every one of them is printed for some word.
-/

namespace MipsWords

/-! ## Cutting at line feeds -/

theorem length_splitOn (mark : Char) (cs : List Char) :
    (cs.splitOn mark).length = cs.count mark + 1 := by
  induction cs with
  | nil => rfl
  | cons c rest ih =>
      rw [List.splitOn_cons_eq_if_modifyHead, List.count_cons]
      split
      · rw [List.length_cons, ih]
      · rw [List.length_modifyHead, ih, Nat.add_zero]

/-- Lines one after the other, each ended by a line feed. -/
def ended (lines : List (List Char)) : List Char := lines.flatMap (· ++ ['\n'])

theorem ended_cons (line : List Char) (rest : List (List Char)) :
    ended (line :: rest) = line ++ '\n' :: ended rest := by
  rw [ended, List.flatMap_cons, List.append_assoc]
  rfl

/-- Lines without line feeds are what the text of them is cut into. -/
theorem splitOn_ended {lines : List (List Char)} (h : ∀ line ∈ lines, '\n' ∉ line) :
    (ended lines).splitOn '\n' = lines ++ [[]] := by
  induction lines with
  | nil => rfl
  | cons line rest ih =>
      obtain ⟨hline, hrest⟩ := List.forall_mem_cons.mp h
      rw [ended_cons, List.splitOn_append_cons_self_of_not_mem hline, ih hrest, List.cons_append]

theorem not_mem_intercalate {c : Char} {separator : List Char} {texts : List (List Char)}
    (hseparator : c ∉ separator) (h : ∀ text ∈ texts, c ∉ text) :
    c ∉ separator.intercalate texts := by
  induction texts with
  | nil => simp
  | cons text rest ih =>
      obtain ⟨htext, hrest⟩ := List.forall_mem_cons.mp h
      cases rest with
      | nil => rwa [List.intercalate_singleton]
      | cons next others =>
          rw [List.intercalate_cons_cons, List.mem_append, List.mem_append, not_or, not_or]
          exact ⟨⟨htext, hseparator⟩, ih hrest⟩

/-- A line of assembly has the line feeds of its mnemonic and no others. -/
theorem count_lineFeed_disassemble {names : Lookup} {style : Style} {w : Word} {assembly : String}
    (h : disassemble names style w = .ok assembly) :
    ∃ name, names w.query = some name ∧
      assembly.toList.count '\n' = name.toList.count '\n' := by
  obtain ⟨name, hname, hfree, rfl⟩ := disassemble_eq_ok h
  have hoperands : '\n' ∉ (", ".intercalate (operandTexts style w)).toList := by
    rw [String.toList_intercalate]
    refine not_mem_intercalate (by decide) fun text htext => ?_
    obtain ⟨_, hoperand, rfl⟩ := List.mem_map.mp htext
    obtain ⟨field, hfield, rfl⟩ := List.mem_map.mp hoperand
    exact Operand.not_mem_render (by decide) (by decide) (by decide)
      (render_operand hfree style hfield)
  refine ⟨name, hname, ?_⟩
  rw [String.toList_append, String.toList_append, List.count_append, List.count_append,
    List.count_eq_zero.mpr hoperands]
  rfl

/-! ## Results -/

namespace Command

/-- The words of the operands that disassemble, in order, each with its line of assembly. -/
def disassembled (names : Lookup) (style : Style) (inputs : List String) : List (Word × String) :=
  inputs.filterMap fun input => (disassembleInput names style input).toOption

/-- The mnemonics of words, of those that have one. -/
def mnemonics (names : Lookup) (words : List (Word × String)) : List String :=
  words.filterMap fun done => names done.1.query

/-- The result of a word in characters, without the line feed that ends it. -/
def resultChars (done : Word × String) : List Char :=
  (done.1.hexLiteral ++ "\t" ++ done.2).toList

/-- An output that is cut at its line feeds into one line for each word and nothing behind the last
of them. The line of a word begins with the word in hexadecimal and a tab. -/
def LinePerWord (words : List Word) (output : String) : Prop :=
  ∃ lines : List (List Char), output.toList.splitOn '\n' = lines ++ [[]] ∧
    List.Forall₂ (fun w line => (w.hexLiteral ++ "\t").toList <+: line) words lines

theorem LinePerWord.count_eq {words : List Word} {output : String} (h : LinePerWord words output) :
    output.toList.count '\n' = words.length := by
  obtain ⟨lines, hlines, hwords⟩ := h
  have hlength := length_splitOn '\n' output.toList
  rw [hlines, List.length_append, List.length_singleton, ← hwords.length_eq] at hlength
  omega

variable {names : Lookup} {style : Style} {input : String} {inputs : List String}
  {done : Word × String}

theorem mem_disassembled :
    done ∈ disassembled names style inputs ↔
      ∃ input ∈ inputs, disassembleInput names style input = .ok done := by
  rw [disassembled, List.mem_filterMap]
  refine exists_congr fun input => and_congr_right fun _ => ?_
  cases disassembleInput names style input <;> simp [Except.toOption]

theorem disassembled_cons_of_ok (h : disassembleInput names style input = .ok done) :
    disassembled names style (input :: inputs) = done :: disassembled names style inputs :=
  List.filterMap_cons_some (by rw [h, Except.toOption])

theorem disassembled_cons_of_error {e : Error} (h : disassembleInput names style input = .error e) :
    disassembled names style (input :: inputs) = disassembled names style inputs :=
  List.filterMap_cons_none (by rw [h, Except.toOption])

theorem output_disasm (names : Lookup) (style : Style) (input : String) :
    ((Item.disasm input).output names style).toList =
      match disassembleInput names style input with
      | .ok done => resultChars done ++ ['\n']
      | .error _ => [] := by
  rw [Item.output, Item.result_disasm, disasmLine]
  cases disassembleInput names style input with
  | error e => rfl
  | ok done => exact String.toList_append

theorem toList_outputs (names : Lookup) (style : Style) (inputs : List String) :
    (String.join ((inputs.map Item.disasm).map (Item.output names style))).toList =
      ended ((disassembled names style inputs).map resultChars) := by
  induction inputs with
  | nil => rfl
  | cons input rest ih =>
      rw [List.map_cons, List.map_cons, String.join_cons, String.toList_append, ih, output_disasm]
      cases hinput : disassembleInput names style input with
      | error e => rw [disassembled_cons_of_error hinput, List.nil_append]
      | ok done =>
          rw [disassembled_cons_of_ok hinput, List.map_cons, ended_cons, List.append_assoc,
            List.singleton_append]

/-- The word in front of a result and the tab add no line feeds to those of the mnemonic. -/
theorem count_lineFeed_resultChars (h : disassembleInput names style input = .ok done) :
    ∃ name, names done.1.query = some name ∧
      (resultChars done).count '\n' = name.toList.count '\n' := by
  obtain ⟨w, assembly⟩ := done
  obtain ⟨name, hname, hcount⟩ := count_lineFeed_disassemble (disassembleInput_eq_ok_iff.mp h).2
  have hword : '\n' ∉ w.hexLiteral.toList := Operand.not_mem_hexLiteral (by decide) 8 w.toNat
  refine ⟨name, hname, ?_⟩
  rw [resultChars, String.toList_append, String.toList_append, List.count_append,
    List.count_append, hcount, List.count_eq_zero.mpr hword]
  exact Nat.zero_add _

/-- The line feeds of results are one behind each of them and those of their mnemonics. -/
theorem count_lineFeed_results (names : Lookup) (style : Style) (inputs : List String) :
    (ended ((disassembled names style inputs).map resultChars)).count '\n' =
      (disassembled names style inputs).length +
        ((mnemonics names (disassembled names style inputs)).map fun name =>
          name.toList.count '\n').sum := by
  induction inputs with
  | nil => rfl
  | cons input rest ih =>
      cases hinput : disassembleInput names style input with
      | error e => rw [disassembled_cons_of_error hinput, ih]
      | ok done =>
          obtain ⟨name, hname, hcount⟩ := count_lineFeed_resultChars hinput
          have hmnemonics : mnemonics names (done :: disassembled names style rest) =
              name :: mnemonics names (disassembled names style rest) :=
            List.filterMap_cons_some hname
          rw [disassembled_cons_of_ok hinput, List.map_cons, ended_cons, List.count_append,
            List.count_cons_self, ih, hcount, hmnemonics, List.map_cons, List.sum_cons,
            List.length_cons]
          omega

/-- An output has one line for each word exactly if no mnemonic in it holds a line feed. -/
theorem linePerWord_results_iff {output : String}
    (houtput : output.toList = ended ((disassembled names style inputs).map resultChars)) :
    LinePerWord ((disassembled names style inputs).map Prod.fst) output ↔
      ∀ name ∈ mnemonics names (disassembled names style inputs), '\n' ∉ name.toList := by
  constructor
  · intro h name hname
    have hcount := h.count_eq
    rw [houtput, count_lineFeed_results, List.length_map] at hcount
    have hsum : ((mnemonics names (disassembled names style inputs)).map
        fun name => name.toList.count '\n').sum = 0 := by omega
    exact List.count_eq_zero.mp
      (List.sum_eq_zero_iff.mp hsum _ (List.mem_map.mpr ⟨name, hname, rfl⟩))
  · intro hnames
    refine ⟨(disassembled names style inputs).map resultChars, ?_, ?_⟩
    · rw [houtput]
      refine splitOn_ended fun line hline => ?_
      obtain ⟨done, hdone, rfl⟩ := List.mem_map.mp hline
      obtain ⟨_, -, hinput⟩ := mem_disassembled.mp hdone
      obtain ⟨name, hname, hcount⟩ := count_lineFeed_resultChars hinput
      rw [← List.count_eq_zero, hcount, List.count_eq_zero]
      exact hnames name (List.mem_filterMap.mpr ⟨done, hdone, hname⟩)
    · rw [List.forall₂_map_left_iff, List.forall₂_map_right_iff, List.forall₂_same]
      rintro ⟨w, assembly⟩ -
      exact ⟨assembly.toList, String.toList_append.symm⟩

/-! ## Tables -/

/-- The place that a query asks for. -/
def cellAsked (q : Query) : Cell :=
  match q.function? with
  | some code => .function code
  | none => .opcode q.opcode

/-- Every query that words make is made by one that names no reserved register: the fields beside
the one that selects are zero. -/
theorem query_word_cellAsked : ∀ q ∈ Query.asked,
    (cellAsked q).word.query = q ∧ (decode (cellAsked q).word).reserved? = none := by
  decide +kernel

theorem disassembleInput_hexLiteral {w : Word} {assembly : String}
    (h : disassemble names style w = .ok assembly) :
    disassembleInput names style w.hexLiteral = .ok (w, assembly) := by
  rw [disassembleInput_eq_ok_iff, Blank.trim_eq_self (Word.not_blank_of_parse w.parse_hexLiteral)]
  exact ⟨w.parse_hexLiteral, h⟩

/-- Every mnemonic of a vocabulary comes into the output of some operand. -/
theorem exists_mem_mnemonics {name : String} (h : name ∈ names.vocabulary) (style : Style) :
    ∃ input, name ∈ mnemonics names (disassembled names style [input]) := by
  obtain ⟨q, hq, hname⟩ := List.mem_filterMap.mp h
  obtain ⟨hquery, hfree⟩ := query_word_cellAsked q hq
  have hassembly : ∃ assembly, disassemble names style (cellAsked q).word = .ok assembly := by
    rw [disassemble_eq, hquery, hname, hfree]
    exact ⟨_, rfl⟩
  obtain ⟨assembly, hassembly⟩ := hassembly
  have hdone := mem_disassembled.mpr
    ⟨_, List.mem_singleton_self _, disassembleInput_hexLiteral hassembly⟩
  exact ⟨_, List.mem_filterMap.mpr ⟨_, hdone, by rw [hquery, hname]⟩⟩

theorem mem_vocabulary_of_mem_mnemonics {words : List (Word × String)} {name : String}
    (h : name ∈ mnemonics names words) : name ∈ names.vocabulary := by
  obtain ⟨done, -, hname⟩ := List.mem_filterMap.mp h
  exact Lookup.mem_vocabulary hname

/-! ## Runs -/

theorem toList_stdout {files : Files} {config? table? : Option String} {s : Settings} {t : Table}
    (h : Invocation.Accepted files ⟨config?, .disasm table? inputs⟩ s t) (level : Level) :
    (Invocation.run files level ⟨config?, .disasm table? inputs⟩).stdout.toList =
      ended ((disassembled t.resolve s.style inputs).map resultChars) := by
  rw [(h.observe_run level).1, Job.items]
  exact toList_outputs t.resolve s.style inputs

/-- The output of `disasm` has a line feed behind each result and those of the mnemonics in it, and
no others. So it has one line for each operand that disassembles, which begins with the word and a
tab, and nothing behind the last line, exactly if no mnemonic in it holds a line feed. With given
settings and a given table that is so for all operands exactly if no mnemonic that a word can ask
the table for holds one. -/
theorem disasm_line_per_word {files : Files} {config? table? : Option String} {s : Settings}
    {t : Table} {noted : List Event} (level : Level) (manual : Manual)
    (hsettings : settings files config? = .ok s)
    (htable : table files (tablePath? s table?) = .ok (t, noted)) :
    (∀ args inputs, parse args = .ok ⟨config?, .disasm table? inputs⟩ →
      let words := disassembled t.resolve s.style inputs
      ∃ r, run? files level args manual = some r ∧
        r.stdout.toList.count '\n' =
          words.length + ((mnemonics t.resolve words).map fun name => name.toList.count '\n').sum ∧
        (LinePerWord (words.map Prod.fst) r.stdout ↔
          ∀ name ∈ mnemonics t.resolve words, '\n' ∉ name.toList)) ∧
    ((∀ inputs, LinePerWord ((disassembled t.resolve s.style inputs).map Prod.fst)
        (Invocation.run files level ⟨config?, .disasm table? inputs⟩).stdout) ↔
      ∀ name ∈ Lookup.vocabulary t.resolve, '\n' ∉ name.toList) := by
  have haccepted : ∀ inputs, Invocation.Accepted files ⟨config?, .disasm table? inputs⟩ s t := by
    refine fun inputs => ⟨hsettings, fun table?' inputs' hjob => ⟨noted, ?_⟩⟩
    cases hjob
    exact htable
  have hlines := fun inputs => linePerWord_results_iff (toList_stdout (haccepted inputs) level)
  refine ⟨fun args inputs hargs => ?_, ?_⟩
  · refine ⟨_, run?_of_parse hargs, ?_, hlines inputs⟩
    rw [toList_stdout (haccepted inputs), count_lineFeed_results]
  · simp only [hlines]
    constructor
    · intro h name hname
      obtain ⟨input, hmem⟩ := exists_mem_mnemonics hname s.style
      exact h [input] name hmem
    · exact fun h inputs name hname => h name (mem_vocabulary_of_mem_mnemonics hname)

/-- The built-in table, for a word, a text that is none and a jump, and for all operands. -/
theorem disasm_line_per_word_builtin :
    (∃ r, run? (fun _ => .error .notFound) .warn ["disasm", "0x012A4020", "0x", "0x08000010"] =
        some r ∧ LinePerWord [0x012A4020#32, 0x08000010#32] r.stdout) ∧
    ∀ inputs, LinePerWord ((disassembled Table.builtin.resolve {} inputs).map Prod.fst)
      (Invocation.run (fun _ => .error .notFound) .warn ⟨none, .disasm none inputs⟩).stdout := by
  have hargs : parse ["disasm", "0x012A4020", "0x", "0x08000010"] =
      .ok ⟨none, .disasm none ["0x012A4020", "0x", "0x08000010"]⟩ := by decide +kernel
  have hnames : ∀ name ∈ Lookup.vocabulary Table.builtin.resolve, '\n' ∉ name.toList := by
    decide +kernel
  have hsettings : settings (fun _ => .error .notFound) none = .ok {} := rfl
  have htable : table (fun _ => .error .notFound) (tablePath? {} none) = .ok (.builtin, []) := rfl
  obtain ⟨hrun, hall⟩ := disasm_line_per_word .warn .standard hsettings htable
  obtain ⟨r, hr, -, hlines⟩ := hrun _ _ hargs
  refine ⟨⟨r, hr, hlines.mpr fun name hname => ?_⟩, hall.mpr hnames⟩
  exact hnames name (mem_vocabulary_of_mem_mnemonics hname)

/-- A table file is accepted with a mnemonic that ends the line of its word and begins another line
as a second word would. -/
theorem disasm_line_forged :
    let text := "\x7b\"functions\":\x7b\"100000\":\"add\\n0x00000000\\tsll\"\x7d\x7d"
    let files : Files := fun path => if path = "t.json" then .ok text else .error .notFound
    ∃ t r, Table.ofJson text = .ok t ∧
      run? files .warn ["disasm", "--table", "t.json", "0x012A4020"] = some r ∧
      disassembled t.resolve {} ["0x012A4020"] =
        [(0x012A4020#32, "add\n0x00000000\tsll $t0, $t1, $t2")] ∧
      r.stdout = "0x012a4020\tadd\n0x00000000\tsll $t0, $t1, $t2\n" ∧
      ¬LinePerWord [0x012A4020#32] r.stdout := by
  intro text files
  have htable : Table.ofJson text =
      .ok (Table.empty.insertFunction 32 "add\n0x00000000\tsll") := by decide +kernel
  have hrun : run? files .warn ["disasm", "--table", "t.json", "0x012A4020"] = some ⟨.warn,
      [.notice (.tableLoaded 0 1), .notice (.disassembled 0x012A4020#32 .r
        "add\n0x00000000\tsll $t0, $t1, $t2"),
        .line "0x012a4020\tadd\n0x00000000\tsll $t0, $t1, $t2"]⟩ := by decide +kernel
  refine ⟨_, _, htable, hrun, by decide +kernel, by decide +kernel, fun h => ?_⟩
  exact absurd h.count_eq (by decide +kernel)

end Command

end MipsWords
