import MipsWords.Mnemonic.Edit

/-!
# Laws of readers

The readers of settings and tables are put together from few: the next
character, the next token, a unit of UTF-16, a complaint about a number, and the
loops over the characters of a string and over the members of a map. A property
that these have and that every combination keeps (`Law`) is therefore a property
of all of them, and a proof of it never looks at a shape.
-/

namespace MipsWords.Json.Reader

variable {α β : Type}

/-- A fault stops all that would follow. -/
theorem bind_of_error {p : Reader α} {f : α → Reader β} {s : List Char} {fault : Fault}
    (h : p s = .error fault) : (p >>= f) s = .error fault := by
  show (p s >>= fun got => f got.1 got.2) = _
  rw [h]
  rfl

theorem bind_eq_error {p : Reader α} {f : α → Reader β} {s : List Char} {fault : Fault} :
    (p >>= f) s = .error fault ↔
      p s = .error fault ∨ ∃ a mid, p s = .ok (a, mid) ∧ f a mid = .error fault := by
  cases h : p s with
  | error fault' => simp [bind_of_error h]
  | ok got =>
      show (p s >>= fun got => f got.1 got.2) = _ ↔ _
      rw [h]
      constructor
      · exact fun hthen => .inr ⟨got.1, got.2, rfl, hthen⟩
      · rintro (hfault | ⟨a, mid, hgot, hthen⟩)
        · cases hfault
        · cases hgot
          exact hthen

theorem map_apply (p : Reader α) (f : α → β) (s : List Char) :
    (f <$> p) s = (p s).map fun (a, rest) => (f a, rest) := by
  show (p s >>= fun got => Pure.pure (f got.1, got.2)) = _
  cases p s with
  | error fault => rfl
  | ok got => rfl

/-- A property of readers that goes from parts to wholes. -/
structure Law (P : ∀ ⦃α : Type⦄, Reader α → Prop) : Prop where
  pure : ∀ {α : Type} (a : α), P (Pure.pure a : Reader α)
  fail : ∀ {α : Type} (fault : Fault), P (fail fault : Reader α)
  bind : ∀ {α β : Type} {p : Reader α} {f : α → Reader β}, P p → (∀ a, P (f a)) → P (p >>= f)
  next : P next
  peek : P peek
  utf16Unit : P utf16Unit
  /-- A number is read only to be complained about. -/
  number : ∀ {α : Type} (expected : String),
    P (number >>= fun found => Reader.fail (.schema (.wrongType found expected)) : Reader α)
  /-- The loop over the characters of a string has the property if each of its rounds has. -/
  chars : P escapedChar → P (chars : Reader (List Char))
  /-- So has the loop over the members of a map. -/
  entriesFrom : (∀ first, P ( entry? first)) → ∀ first, P (entriesFrom first)

namespace Law

variable {P : ∀ ⦃α : Type⦄, Reader α → Prop} {α β σ : Type}

theorem map (law : Law P) {p : Reader α} (f : α → β) (hp : P p) : P (f <$> p) := by
  show P (p >>= fun a => Pure.pure (f a))
  exact law.bind hp fun a => law.pure (f a)

theorem skip (law : Law P) : P skip := law.bind law.next fun _ => law.pure ()

theorem expect (law : Law P) (c : Char) : P (expect c) := by
  refine law.bind law.next fun d => ?_
  split
  · exact law.pure ()
  · exact law.fail _

theorem token (law : Law P) (c : Char) : P (token c) := by
  refine law.bind law.peek fun d => ?_
  split
  · exact law.skip
  · exact law.fail _

theorem word (law : Law P) (cs : List Char) : P (word cs) := by
  induction cs with
  | nil => exact law.pure ()
  | cons c rest ih => exact law.bind (law.expect c) fun _ => ih

/-! ## Strings -/

theorem numberedChar (law : Law P) : P numberedChar := by
  refine law.bind law.utf16Unit fun unit => ?_
  split
  · exact law.fail _
  · split
    · refine law.bind (law.expect _) fun _ => law.bind (law.expect _) fun _ => ?_
      refine law.bind law.utf16Unit fun low => ?_
      split
      · exact law.pure _
      · exact law.fail _
    · exact law.pure _

theorem escapedChar (law : Law P) : P escapedChar := by
  refine law.bind law.next fun c => ?_
  split
  case h_9 => exact law.numberedChar
  case h_10 => exact law.fail _
  all_goals exact law.pure _

theorem quoted (law : Law P) : P quoted := by
  have hquoted : Reader.quoted = String.ofList <$> (Reader.chars : Reader (List Char)) :=
    funext fun s => (map_apply Reader.chars String.ofList s).symm
  rw [hquoted]
  exact law.map _ (law.chars law.escapedChar)

/-! ## Shapes -/

theorem wrongType (law : Law P) (expected : String) : P (wrongType expected : Reader α) := by
  rw [Reader.wrongType, found, bind_assoc]
  refine law.bind law.peek fun c => ?_
  split
  · exact law.bind (law.bind (law.word _) fun _ => law.pure _) fun _ => law.fail _
  · exact law.bind (law.bind (law.word _) fun _ => law.pure _) fun _ => law.fail _
  · exact law.bind (law.bind (law.word _) fun _ => law.pure _) fun _ => law.fail _
  · exact law.bind (law.bind law.skip fun _ => law.map _ law.quoted) fun _ => law.fail _
  · exact law.bind (law.pure _) fun _ => law.fail _
  · exact law.bind (law.pure _) fun _ => law.fail _
  · split
    · exact law.number expected
    · exact law.bind (law.fail _) fun _ => law.fail _

theorem boolean (law : Law P) : P boolean := by
  refine law.bind law.peek fun c => ?_
  split
  · exact law.bind (law.word _) fun _ => law.pure _
  · exact law.bind (law.word _) fun _ => law.pure _
  · exact law.wrongType _

theorem text (law : Law P) (expected : String) : P (text expected) := by
  refine law.bind law.peek fun c => ?_
  split
  · exact law.bind law.skip fun _ => law.quoted
  · exact law.wrongType _

theorem text? (law : Law P) (expected : String) : P (text? expected) := by
  refine law.bind law.peek fun c => ?_
  split
  · exact law.bind (law.word _) fun _ => law.pure _
  · exact law.map _ (law.text _)

theorem unit (law : Law P) : P unit := by
  refine law.bind law.peek fun c => ?_
  split
  · exact law.word _
  · exact law.wrongType _

theorem pick (law : Law P) (options : List (String × α)) (name : String) :
    P (pick options name) := by
  rw [Reader.pick]
  split
  · exact law.pure _
  · exact law.fail _

theorem choice (law : Law P) (options : List (String × α)) : P (choice options) := by
  refine law.bind law.peek fun c => ?_
  split
  · exact law.bind law.skip fun _ => law.bind law.quoted fun name => law.pick options name
  · refine law.bind law.skip fun _ => law.bind (law.token _) fun _ => ?_
    refine law.bind law.quoted fun name => law.bind (law.pick options name) fun a => ?_
    refine law.bind (law.token _) fun _ => law.bind law.unit fun _ => ?_
    exact law.bind (law.token _) fun _ => law.pure _
  · exact law.fail _

theorem key? (law : Law P) (first : Bool) : P (key? first) := by
  refine law.bind law.peek fun c => ?_
  split
  · exact law.bind law.skip fun _ => law.pure _
  · split
    · exact law.bind law.skip fun _ => law.map _ law.quoted
    · exact law.fail _
  · split
    · exact law.fail _
    · exact law.bind law.skip fun _ => law.bind (law.token _) fun _ => law.map _ law.quoted
  · exact law.fail _

theorem entry? (law : Law P) (first : Bool) : P ( entry? first) := by
  refine law.bind (law.key? first) fun key => ?_
  split
  · exact law.pure _
  · exact law.bind (law.token _) fun _ => law.bind (law.text _) fun _ => law.pure _

theorem entries (law : Law P) : P entries := by
  refine law.bind law.peek fun c => ?_
  split
  · exact law.bind law.skip fun _ => law.entriesFrom law.entry? true
  · exact law.wrongType _

/-! ## Records -/

theorem members (law : Law P) {fields unseen : List (RecordField σ)}
    (hread : ∀ field ∈ unseen, ∀ record, P (field.read record)) (first : Bool) (record : σ) :
    P (members fields unseen first record) := by
  fun_induction Reader.members fields unseen first record with
  | case1 unseen first record ih =>
      refine law.bind (law.key? first) fun key? => ?_
      split
      · exact law.pure _
      · next key =>
          split
          · next field hfound =>
              have hmem := List.mem_of_find?_eq_some hfound
              refine law.bind (law.token _) fun _ => law.bind (hread field hmem record) fun s => ?_
              exact ih key field hfound s fun f hf => hread f (List.mem_of_mem_eraseP hf)
          · split
            · exact law.fail _
            · exact law.fail _

theorem elements (law : Law P) {fields : List (RecordField σ)}
    (hread : ∀ field ∈ fields, ∀ record, P (field.read record)) (first : Bool) (record : σ) :
    P (elements fields first record) := by
  induction fields generalizing first record with
  | nil => exact law.bind (law.token _) fun _ => law.pure _
  | cons field rest ih =>
      have hfield := hread field (List.mem_cons_self ..)
      have hrest := ih fun f hf => hread f (List.mem_cons_of_mem _ hf)
      refine law.bind law.peek fun c => ?_
      split
      · exact law.bind law.skip fun _ => law.pure _
      · cases first with
        | true => exact law.bind (hfield record) fun record => hrest false record
        | false =>
            exact law.bind (law.token _) fun _ => law.bind (hfield record) fun record =>
              hrest false record

theorem record (law : Law P) {name : String} {fields : List (RecordField σ)}
    (hread : ∀ field ∈ fields, ∀ record, P (field.read record)) (start : σ) :
    P (record name fields start) := by
  refine law.bind law.peek fun c => ?_
  split
  · exact law.bind law.skip fun _ => law.elements hread true start
  · exact law.bind law.skip fun _ => law.members hread true start
  · exact law.wrongType _

/-! ## Files -/

theorem settings (law : Law P) : P (Reader.record "Config" Settings.sections {}) := by
  have hgeneral : ∀ field ∈ Settings.generalFields, ∀ s, P (field.read s) :=
    List.forall_mem_singleton.mpr fun _ => law.bind law.boolean fun _ => law.pure _
  have hdisasm : ∀ field ∈ Settings.disasmFields, ∀ s, P (field.read s) := by
    refine List.forall_mem_cons.mpr ⟨fun s => ?_, List.forall_mem_singleton.mpr fun s => ?_⟩
    · exact law.bind (law.choice _) fun _ => law.pure _
    · exact law.bind (law.choice _) fun _ => law.pure _
  have htable : ∀ field ∈ Settings.tableFields, ∀ s, P (field.read s) :=
    List.forall_mem_singleton.mpr fun _ => law.bind (law.text? _) fun _ => law.pure _
  have hsections : ∀ field ∈ Settings.sections, ∀ s, P (field.read s) :=
    List.forall_mem_cons.mpr ⟨law.record hgeneral, List.forall_mem_cons.mpr
      ⟨law.record hdisasm, List.forall_mem_singleton.mpr (law.record htable)⟩⟩
  exact law.record hsections {}

theorem table (law : Law P) : P (Reader.record "RawTable" Table.sections {}) := by
  have hsections : ∀ field ∈ Table.sections, ∀ m, P (field.read m) := by
    refine List.forall_mem_cons.mpr ⟨fun m => ?_, List.forall_mem_singleton.mpr fun m => ?_⟩
    · exact law.bind law.entries fun _ => law.pure _
    · exact law.bind law.entries fun _ => law.pure _
  exact law.record hsections {}

end Law

end MipsWords.Json.Reader
