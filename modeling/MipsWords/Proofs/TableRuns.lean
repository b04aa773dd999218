import MipsWords.Mnemonic.Edit
import MipsWords.Proofs.TableFile

/-!
# A table is a pair of partial functions

The runs of a table are followed by a machine that knows no maps: its state is
two partial functions on codes, an insertion writes one of them at the code
modulo 64, and a file that loads replaces both by what its members say. One edit
of the table is one step of that machine (`meaning_apply`), so by induction over
the edits a run is a run.

The functions fix the table, because maps with the same look-ups are equal. The
other way round, everything that can be observed of a table is read off its
functions, provided that neither map holds a code from 64 on. That bound is the
invariant of the runs: an insertion masks its code, and a key has six digits.
-/

namespace MipsWords

/-- A place that an insertion writes: a code of six bits in one of the two maps. -/
inductive Cell where
  | opcode (code : Nat)
  | function (code : Nat)
  deriving DecidableEq, Repr

/-- The place that an edit writes, if it writes one place only. -/
def Edit.cell? : Edit → Option Cell
  | .opcode code _ => some (.opcode (code % 64))
  | .function code _ => some (.function (code % 64))
  | .load _ => none

/-- What a table says: the name of an opcode and the name of a function code, if they have one. -/
structure Meaning where
  opcodes : Nat → Option String
  functions : Nat → Option String

namespace Meaning

/-- Nothing has a name. -/
def empty : Meaning := ⟨fun _ => none, fun _ => none⟩

/-- What the two lists of the built-in table say, entry by entry. -/
def builtin : Meaning :=
  ⟨writeAll (fun _ => none) Table.builtinOpcodes, writeAll (fun _ => none) Table.builtinFunctions⟩

/-- What the members of a table file say. -/
def ofMembers (members : Table.Members) : Meaning :=
  ⟨Names.named members.opcodes, Names.named members.functions⟩

end Meaning

/-- All keys stand for codes. -/
def Table.Members.Keyed (members : Table.Members) : Prop :=
  ∀ member ∈ members.opcodes ++ members.functions, Names.IsKey member.1

instance (members : Table.Members) : Decidable members.Keyed :=
  inferInstanceAs (Decidable (∀ member ∈ members.opcodes ++ members.functions, _))

namespace Meaning

/-- Gives the code of one place a name. -/
def write (a : Meaning) (c : Cell) (name : String) : Meaning :=
  match c with
  | .opcode code => { a with opcodes := Function.update a.opcodes code (some name) }
  | .function code => { a with functions := Function.update a.functions code (some name) }

/-- One step. A file replaces both functions, or changes nothing if it has a fault or a bad key. -/
def apply (a : Meaning) : Edit → Meaning
  | .opcode code name => a.write (.opcode (code % 64)) name
  | .function code name => a.write (.function (code % 64)) name
  | .load text =>
      match Table.Members.ofJson text with
      | .ok members => if members.Keyed then ofMembers members else a
      | .error _ => a

/-- A run of steps. -/
def applyAll (a : Meaning) (edits : List Edit) : Meaning := edits.foldl apply a

end Meaning

/-- The tables that a run may start from, with what they say. -/
inductive Starts : Table → Meaning → Prop
  | empty : Starts .empty .empty
  | builtin : Starts .builtin .builtin
  | file {text : String} {members : Table.Members} {t : Table}
      (hmembers : Table.Members.ofJson text = .ok members) (ht : Table.ofJson text = .ok t) :
      Starts t (.ofMembers members)

/-! ## What can be observed -/

namespace Names

/-- The entries are the graph of a partial function in ascending order, with codes below 64. -/
structure Lists (entries : List (Nat × String)) (f : Nat → Option String) : Prop where
  mem_iff : ∀ code name, (code, name) ∈ entries ↔ f code = some name
  ascending : (entries.map (·.1)).Pairwise (· < ·)
  lt : ∀ entry ∈ entries, entry.1 < 64

theorem Bounded.lists {t : Names} (h : t.Bounded) : Lists t.entries t.get? where
  mem_iff _ _ := mem_entries
  ascending := t.entries_ascending
  lt _ hentry := h.lt_of_mem_entries hentry

end Names

namespace Table

/-- Everything that can be observed of a table is as the two functions say. -/
structure Shows (t : Table) (a : Meaning) : Prop where
  resolve_opcode : ∀ code, t.resolve ⟨code, none⟩ = a.opcodes code
  resolve_function : ∀ opcode code, t.resolve ⟨opcode, some code⟩ = a.functions code
  none_of_le : ∀ code, 64 ≤ code → a.opcodes code = none ∧ a.functions code = none
  opcodes : Names.Lists t.opcodes.entries a.opcodes
  functions : Names.Lists t.functions.entries a.functions
  size : t.size =
    {code | (a.opcodes code).isSome}.ncard + {code | (a.functions code).isSome}.ncard
  size_le : t.size ≤ 128
  isEmpty : t.isEmpty = true ↔ ∀ code, a.opcodes code = none ∧ a.functions code = none

/-- What a table says. -/
def meaning (t : Table) : Meaning := ⟨t.opcodes.get?, t.functions.get?⟩

theorem eq_of_meaning_eq {t u : Table} (h : t.meaning = u.meaning) : t = u := by
  obtain ⟨topcodes, tfunctions⟩ := t
  obtain ⟨uopcodes, ufunctions⟩ := u
  obtain ⟨hopcodes, hfunctions⟩ := Meaning.mk.inj h
  obtain rfl : topcodes = uopcodes := Names.ext (congrFun hopcodes)
  obtain rfl : tfunctions = ufunctions := Names.ext (congrFun hfunctions)
  rfl

/-- No code beyond six bits has a name. -/
def Bounded (t : Table) : Prop := t.opcodes.Bounded ∧ t.functions.Bounded

theorem Bounded.shows {t : Table} (h : t.Bounded) : t.Shows t.meaning where
  resolve_opcode _ := rfl
  resolve_function _ _ := rfl
  none_of_le code hcode := ⟨h.1 code hcode, h.2 code hcode⟩
  opcodes := h.1.lists
  functions := h.2.lists
  size := by rw [Table.size, Names.size_eq_ncard, Names.size_eq_ncard]; rfl
  size_le := by
    have ho := h.1.size_le
    have hf := h.2.size_le
    rw [Table.size]
    omega
  isEmpty := by
    rw [Table.isEmpty, Bool.and_eq_true, Names.isEmpty_iff, Names.isEmpty_iff]
    exact forall_and.symm

/-! ## Files -/

/-- The table of the members with a good key. -/
def Members.table (members : Members) : Table :=
  ⟨.ofPairs (Names.coded members.opcodes), .ofPairs (Names.coded members.functions)⟩

theorem Members.meaning_table (members : Members) :
    members.table.meaning = .ofMembers members := by
  rw [meaning, table, Names.get?_ofPairs_coded, Names.get?_ofPairs_coded]
  rfl

theorem Members.bounded_table (members : Members) : members.table.Bounded :=
  ⟨Names.bounded_ofPairs fun _ h => Names.lt_of_mem_coded h,
    Names.bounded_ofPairs fun _ h => Names.lt_of_mem_coded h⟩

theorem ofMembers_eq_ok_iff {members : Members} {t : Table} :
    ofMembers members = .ok t ↔ members.Keyed ∧ t = members.table := by
  constructor
  · intro h
    rw [ofMembers] at h
    cases hopcodes : Names.ofMembers members.opcodes with
    | error e => rw [hopcodes] at h; cases h
    | ok opcodes =>
        cases hfunctions : Names.ofMembers members.functions with
        | error e => rw [hopcodes, hfunctions] at h; cases h
        | ok functions =>
            rw [hopcodes, hfunctions] at h
            cases h
            obtain ⟨hgood, rfl⟩ := Names.ofMembers_eq_ok_iff.mp hopcodes
            obtain ⟨hgood', rfl⟩ := Names.ofMembers_eq_ok_iff.mp hfunctions
            exact ⟨List.forall_mem_append.mpr ⟨hgood, hgood'⟩, rfl⟩
  · rintro ⟨hkeyed, rfl⟩
    obtain ⟨hgood, hgood'⟩ := List.forall_mem_append.mp hkeyed
    rw [ofMembers, Names.ofMembers_eq_ok_iff.mpr ⟨hgood, rfl⟩,
      Names.ofMembers_eq_ok_iff.mpr ⟨hgood', rfl⟩]
    rfl

/-- A file loads if its text has members and all of their keys are good. -/
theorem ofJson_eq_ok_iff {text : String} {t : Table} :
    ofJson text = .ok t ↔
      ∃ members, Members.ofJson text = .ok members ∧ members.Keyed ∧ t = members.table := by
  rw [ofJson]
  cases Members.ofJson text with
  | error e =>
      constructor
      · intro h
        cases h
      · rintro ⟨_, h, _⟩
        cases h
  | ok members =>
      show ofMembers members = .ok t ↔ _
      rw [ofMembers_eq_ok_iff]
      constructor
      · exact fun h => ⟨members, rfl, h⟩
      · rintro ⟨_, hmembers, h⟩
        cases hmembers
        exact h

/-! ## Steps and runs -/

theorem apply_load_of_ok {t u : Table} {text : String} (h : ofJson text = .ok u) :
    t.apply (.load text) = u := by
  rw [apply, edit, h]
  rfl

theorem apply_load_of_error {t : Table} {text : String} {e : Error}
    (h : ofJson text = .error e) : t.apply (.load text) = t := by
  rw [apply, edit, h]
  rfl

/-- What a table says after an edit is one step from what it said before. -/
theorem meaning_apply (t : Table) (e : Edit) : (t.apply e).meaning = t.meaning.apply e := by
  cases e with
  | opcode code name =>
      show Meaning.mk (t.opcodes.insert code name).get? t.functions.get? = _
      rw [Names.get?_insert_eq_update]
      rfl
  | function code name =>
      show Meaning.mk t.opcodes.get? (t.functions.insert code name).get? = _
      rw [Names.get?_insert_eq_update]
      rfl
  | load text =>
      cases hload : ofJson text with
      | ok u =>
          obtain ⟨members, hmembers, hkeyed, rfl⟩ := ofJson_eq_ok_iff.mp hload
          rw [apply_load_of_ok hload, Members.meaning_table, Meaning.apply, hmembers]
          exact (if_pos hkeyed).symm
      | error e =>
          rw [apply_load_of_error hload, Meaning.apply]
          split
          · next members hmembers =>
              rw [if_neg]
              intro hkeyed
              have hok := ofJson_eq_ok_iff.mpr ⟨members, hmembers, hkeyed, rfl⟩
              rw [hload] at hok
              cases hok
          · rfl

theorem meaning_applyAll (t : Table) (edits : List Edit) :
    (t.applyAll edits).meaning = t.meaning.applyAll edits := by
  induction edits generalizing t with
  | nil => rfl
  | cons e rest ih =>
      show ((t.apply e).applyAll rest).meaning = (t.meaning.apply e).applyAll rest
      rw [ih, meaning_apply]

theorem Bounded.apply {t : Table} (h : t.Bounded) (e : Edit) : (t.apply e).Bounded := by
  cases e with
  | opcode code name => exact ⟨h.1.insert code name, h.2⟩
  | function code name => exact ⟨h.1, h.2.insert code name⟩
  | load text =>
      cases hload : ofJson text with
      | ok u =>
          obtain ⟨members, _, _, rfl⟩ := ofJson_eq_ok_iff.mp hload
          rw [apply_load_of_ok hload]
          exact members.bounded_table
      | error e => rwa [apply_load_of_error hload]

theorem Bounded.applyAll {t : Table} (h : t.Bounded) (edits : List Edit) :
    (t.applyAll edits).Bounded := by
  induction edits generalizing t with
  | nil => exact h
  | cons e rest ih => exact ih (h.apply e)

theorem bounded_builtin : builtin.Bounded :=
  ⟨Names.bounded_empty.insertAll builtinOpcodes, Names.bounded_empty.insertAll builtinFunctions⟩

theorem meaning_empty : empty.meaning = .empty := by
  rw [meaning, empty, Names.get?_empty_eq]
  rfl

theorem meaning_builtin : builtin.meaning = .builtin := by
  rw [meaning, builtin, Names.get?_insertAll, Names.get?_insertAll, Names.get?_empty_eq]
  rfl

end Table

theorem Starts.spec {t : Table} {a : Meaning} (h : Starts t a) : t.meaning = a ∧ t.Bounded := by
  cases h with
  | empty => exact ⟨Table.meaning_empty, Names.bounded_empty, Names.bounded_empty⟩
  | builtin => exact ⟨Table.meaning_builtin, Table.bounded_builtin⟩
  | file hmembers ht =>
      obtain ⟨members, hmembers', _, rfl⟩ := Table.ofJson_eq_ok_iff.mp ht
      obtain rfl := Except.ok.inj (hmembers.symm.trans hmembers')
      exact ⟨Table.Members.meaning_table _, Table.Members.bounded_table _⟩

/-! ## The order of insertions -/

namespace Meaning

theorem write_comm {c₁ c₂ : Cell} (h : c₁ ≠ c₂) (a : Meaning) (name₁ name₂ : String) :
    (a.write c₁ name₁).write c₂ name₂ = (a.write c₂ name₂).write c₁ name₁ := by
  cases c₁ with
  | opcode code₁ =>
      cases c₂ with
      | opcode code₂ =>
          have hcode : code₁ ≠ code₂ := fun heq => h (congrArg Cell.opcode heq)
          rw [write, write, write, write, Function.update_comm hcode]
      | function code₂ => rfl
  | function code₁ =>
      cases c₂ with
      | opcode code₂ => rfl
      | function code₂ =>
          have hcode : code₁ ≠ code₂ := fun heq => h (congrArg Cell.function heq)
          rw [write, write, write, write, Function.update_comm hcode]

theorem write_write (a : Meaning) (c : Cell) (name₁ name₂ : String) :
    (a.write c name₁).write c name₂ = a.write c name₂ := by
  cases c with
  | opcode code => rw [write, write, write, Function.update_idem]
  | function code => rw [write, write, write, Function.update_idem]

theorem apply_eq_write {e : Edit} {c : Cell} (h : e.cell? = some c) :
    ∃ name, ∀ a : Meaning, a.apply e = a.write c name := by
  cases e with
  | opcode code name => cases h; exact ⟨name, fun _ => rfl⟩
  | function code name => cases h; exact ⟨name, fun _ => rfl⟩
  | load text => cases h

end Meaning

namespace Table

/-- Edits that do the same to what a table says can be put for one another in a run. -/
theorem applyAll_congr {edits edits' : List Edit}
    (h : ∀ a : Meaning, a.applyAll edits = a.applyAll edits') (t : Table)
    (before after : List Edit) :
    t.applyAll (before ++ edits ++ after) = t.applyAll (before ++ edits' ++ after) := by
  have hedits (u : Table) : u.applyAll edits = u.applyAll edits' :=
    eq_of_meaning_eq (by rw [meaning_applyAll, meaning_applyAll, h])
  have happend (u : Table) (xs ys : List Edit) :
      u.applyAll (xs ++ ys) = (u.applyAll xs).applyAll ys := List.foldl_append
  rw [happend, happend t before, hedits, happend t (before ++ edits'), happend t before]

/-- Every run of a table is a run of its two partial functions, and these fix the table. So
insertions at different places can be exchanged, and of two at one place the later counts. -/
theorem applyAll_refines {t : Table} {a : Meaning} (h : Starts t a) :
    (∀ edits, (t.applyAll edits).Shows (a.applyAll edits)) ∧
    (∀ {t' : Table} {a' : Meaning}, Starts t' a' → ∀ edits edits',
      a.applyAll edits = a'.applyAll edits' → t.applyAll edits = t'.applyAll edits') ∧
    (∀ (e₁ e₂ : Edit) (c₁ c₂ : Cell), e₁.cell? = some c₁ → e₂.cell? = some c₂ →
      ∀ before after,
        (c₁ ≠ c₂ → t.applyAll (before ++ [e₁, e₂] ++ after) =
          t.applyAll (before ++ [e₂, e₁] ++ after)) ∧
        (c₁ = c₂ → t.applyAll (before ++ [e₁, e₂] ++ after) =
          t.applyAll (before ++ [e₂] ++ after))) := by
  obtain ⟨rfl, hbounded⟩ := h.spec
  refine ⟨fun edits => ?_, fun {t' a'} h' edits edits' heq => ?_, ?_⟩
  · rw [← meaning_applyAll]
    exact (hbounded.applyAll edits).shows
  · obtain ⟨rfl, _⟩ := h'.spec
    rw [← meaning_applyAll, ← meaning_applyAll] at heq
    exact eq_of_meaning_eq heq
  · intro e₁ e₂ c₁ c₂ h₁ h₂ before after
    obtain ⟨name₁, hwrite₁⟩ := Meaning.apply_eq_write h₁
    obtain ⟨name₂, hwrite₂⟩ := Meaning.apply_eq_write h₂
    constructor
    · intro hne
      refine applyAll_congr (fun a => ?_) t before after
      show (a.apply e₁).apply e₂ = (a.apply e₂).apply e₁
      rw [hwrite₁, hwrite₂, hwrite₂, hwrite₁, Meaning.write_comm hne]
    · rintro rfl
      refine applyAll_congr (fun a => ?_) t before after
      show (a.apply e₁).apply e₂ = a.apply e₂
      rw [hwrite₁, hwrite₂, hwrite₂, Meaning.write_write]

theorem applyAll_refines_builtin :
    Starts builtin .builtin ∧
    (builtin.applyAll [.opcode 66 "jump", .load "["]).resolve ⟨2, none⟩ = some "jump" ∧
    (builtin.applyAll [.opcode 66 "jump", .load "["]).resolve ⟨66, none⟩ = none ∧
    builtin.applyAll [.opcode 66 "jump", .function 2 "turn"] =
      builtin.applyAll [.function 2 "turn", .opcode 66 "jump"] := by
  have h := applyAll_refines .builtin
  refine ⟨.builtin, ?_, ?_, ?_⟩
  · rw [(h.1 _).resolve_opcode]
    decide +kernel
  · rw [(h.1 _).resolve_opcode]
    decide +kernel
  · exact (h.2.2 (.opcode 66 "jump") (.function 2 "turn") _ _ rfl rfl [] []).1 (by decide)

end Table

end MipsWords
