import MipsWords.Proofs.Spelling.Shapes
import MipsWords.Settings.Schema

/-!
# Records are read as they are spelled

A record is filled while it is read, so the readers of its fields are followed
by what each makes of the record (`Effect`): a value at a key relates the record
before to the record after. A text that spells a record then takes effect member
by member, in the order of the text.

That the order of an object's keys does not count is a fact about effects: those
of different keys commute, so members with different keys can be run in any
order, in particular in the declared one (`Effect.Run.perm`). An array has its
elements in that order already. So both spellings come to the same thing, the
given parts of the value in declared order (`Value.given`).
-/

namespace MipsWords.Json

open Reader

variable {σ : Type}

/-! ## Arrays -/

/-- The spellings of the elements of an array from some place on, the closing bracket included. -/
inductive ArrayTail : Bool → List Value → List Char → Prop where
  | close {first : Bool} {before : List Char} : Blanks before →
      ArrayTail first [] (before ++ [']'])
  | item {first : Bool} {sep before text tail : List Char} {v : Value} {items : List Value} :
      Separator first sep → Blanks before → Spelled v text → ArrayTail false items tail →
      ArrayTail first (v :: items) (sep ++ (before ++ (text ++ tail)))

theorem ArrayTail.of_items {items : List Value} {text sep : List Char} {first : Bool}
    (h : SpelledItems items text) (hsep : Separator first sep) :
    ArrayTail first items (sep ++ (text ++ [']'])) := by
  induction items generalizing text sep first with
  | nil => cases h
  | cons v others ih =>
      cases h with
      | last hbefore hv hafter =>
          have htail := ArrayTail.item hsep hbefore hv (.close hafter)
          simpa using htail
      | cons hbefore hv hafter hothers =>
          have htail := ArrayTail.item hsep hbefore hv (ih hothers (.comma hafter))
          simpa using htail

theorem ArrayTail.items {items : List Value} {first : Bool} {tail : List Char}
    (h : ArrayTail first items tail) :
    (items = [] ∧ ∃ before, Blanks before ∧ tail = before ++ [']']) ∨
      ∃ sep text, Separator first sep ∧ SpelledItems items text ∧
        tail = sep ++ (text ++ [']']) := by
  induction h with
  | close hbefore => exact .inl ⟨rfl, _, hbefore, rfl⟩
  | @item first sep before text tail v others hsep hbefore hv _ ih =>
      right
      rcases ih with ⟨rfl, after, hafter, rfl⟩ | ⟨_, rest, hcomma, hothers, rfl⟩
      · exact ⟨sep, _, hsep, .last hbefore hv hafter, by simp⟩
      · cases hcomma with
        | comma hafter => exact ⟨sep, _, hsep, .cons hbefore hv hafter hothers, by simp⟩

theorem spelled_array_iff {items : List Value} {text : List Char} :
    Spelled (.array items) text ↔ ∃ tail, ArrayTail true items tail ∧ text = '[' :: tail := by
  constructor
  · intro h
    cases h with
    | emptyArray hbefore => exact ⟨_, .close hbefore, rfl⟩
    | array hitems => exact ⟨_, .of_items hitems .first, rfl⟩
  · rintro ⟨tail, htail, rfl⟩
    rcases htail.items with ⟨rfl, before, hbefore, rfl⟩ | ⟨_, rest, hsep, hitems, rfl⟩
    · exact .emptyArray hbefore
    · cases hsep
      exact .array hitems

theorem ArrayTail.exists_tail {items : List Value} (h : ∀ v ∈ items, ∃ text, Spelled v text)
    (first : Bool) : ∃ tail, ArrayTail first items tail := by
  induction items generalizing first with
  | nil => exact ⟨_, .close blanks_nil⟩
  | cons v others ih =>
      obtain ⟨text, hv⟩ := h v (List.mem_cons_self ..)
      obtain ⟨tail, htail⟩ := ih (fun w hw => h w (List.mem_cons_of_mem _ hw)) false
      cases first with
      | true => exact ⟨_, .item .first blanks_nil hv htail⟩
      | false => exact ⟨_, .item (.comma blanks_nil) blanks_nil hv htail⟩

/-- An array of values with spellings has one. -/
theorem exists_spelled_array {items : List Value} (h : ∀ v ∈ items, ∃ text, Spelled v text) :
    ∃ text, Spelled (.array items) text := by
  obtain ⟨tail, htail⟩ := ArrayTail.exists_tail h true
  exact ⟨_, spelled_array_iff.mpr ⟨tail, htail, rfl⟩⟩

theorem ne_bracket_of_isDigit {c : Char} (h : isDigit c = true) : isSpace c = false ∧ c ≠ ']' := by
  constructor
  · by_contra hspace
    simp only [isSpace, Bool.not_eq_false, Bool.or_eq_true, beq_iff_eq] at hspace
    rcases hspace with ((rfl | rfl) | rfl) | rfl <;> exact absurd h (by decide)
  · rintro rfl
    exact absurd h (by decide)

/-- A value does not begin with a blank, nor with the end of the array it may stand in. -/
theorem Spelled.head {v : Value} {text : List Char} (h : Spelled v text) :
    ∃ c tail, text = c :: tail ∧ isSpace c = false ∧ c ≠ ']' := by
  cases h with
  | null => exact ⟨_, _, rfl, rfl, by decide⟩
  | trueWord => exact ⟨_, _, rfl, rfl, by decide⟩
  | falseWord => exact ⟨_, _, rfl, rfl, by decide⟩
  | string hstring =>
      obtain ⟨inner, _, rfl⟩ := hstring
      exact ⟨_, _, rfl, rfl, by decide⟩
  | emptyArray _ => exact ⟨_, _, rfl, rfl, by decide⟩
  | array _ => exact ⟨_, _, rfl, rfl, by decide⟩
  | emptyObject _ => exact ⟨_, _, rfl, rfl, by decide⟩
  | object _ => exact ⟨_, _, rfl, rfl, by decide⟩
  | number hnumber =>
      cases hnumber with
      | @intro sign whole fraction exponent hsign hwhole _ _ _ =>
          rcases hsign with rfl | rfl
          · obtain ⟨hne, hdigits⟩ := hwhole
            cases whole with
            | nil => exact absurd rfl hne
            | cons c digits =>
                exact ⟨c, _, rfl, ne_bracket_of_isDigit (hdigits c (List.mem_cons_self ..))⟩
          · exact ⟨_, _, rfl, rfl, by decide⟩

/-! ## Effects -/

/-- What a value at a key makes of a record. -/
abbrev Effect (σ : Type) := String → Value → σ → σ → Prop

namespace Effect

/-- Members take effect one after the other. -/
inductive Run (e : Effect σ) : List (String × Value) → σ → σ → Prop where
  | nil {record : σ} : Run e [] record record
  | cons {key : String} {v : Value} {members : List (String × Value)} {record mid record' : σ} :
      e key v record mid → Run e members mid record' → Run e ((key, v) :: members) record record'

/-- Effects at different keys can be exchanged. -/
def Commutes (e : Effect σ) : Prop :=
  ∀ ⦃key key' : String⦄ ⦃v v' : Value⦄ ⦃record mid record' : σ⦄, key ≠ key' →
    e key v record mid → e key' v' mid record' →
    ∃ mid', e key' v' record mid' ∧ e key v mid' record'

/-- With one key there is nothing to exchange. -/
theorem commutes_of_key {e : Effect σ} {name : String}
    (h : ∀ {key : String} {v : Value} {record record' : σ}, e key v record record' → key = name) :
    e.Commutes :=
  fun _ _ _ _ _ _ _ hne hfirst hsecond => absurd ((h hfirst).trans (h hsecond).symm) hne

theorem Run.perm {e : Effect σ} (he : e.Commutes) {members members' : List (String × Value)}
    (hperm : members.Perm members') (hnodup : (members.map (·.1)).Nodup) {record record' : σ}
    (h : e.Run members record record') : e.Run members' record record' := by
  induction hperm generalizing record with
  | nil => exact h
  | cons member _ ih =>
      cases h with
      | cons hfirst hrest => exact .cons hfirst (ih (List.nodup_cons.mp hnodup).2 hrest)
  | swap member member' others =>
      have hne : member'.1 ≠ member.1 := by
        have hmem := (List.nodup_cons.mp hnodup).1
        exact fun heq => hmem (by simp [heq])
      cases h with
      | cons hfirst hrest =>
          cases hrest with
          | cons hsecond hrest =>
              obtain ⟨mid, hsecond, hfirst⟩ := he hne hfirst hsecond
              exact .cons hsecond (.cons hfirst hrest)
  | trans hperm _ ih ih' =>
      exact ih' ((hperm.map _).nodup_iff.mp hnodup) (ih hnodup h)

end Effect

/-! ## The parts of a record -/

/-- The parts of a record that are given, by key, in the order in which the keys are declared. -/
def Value.given (keys : List String) (v : Value) : List (String × Value) :=
  keys.filterMap fun key => (v.part? keys key).map (key, ·)

theorem filterMap_eq_zip {keys : List String} {items : List Value} {f : String → Option Value}
    (h : ∀ (i : Nat) (hi : i < keys.length), f keys[i] = items[i]?) :
    keys.filterMap (fun key => (f key).map (key, ·)) = keys.zip items := by
  induction keys generalizing items with
  | nil => rfl
  | cons key others ih =>
      have hfirst : f key = items[0]? := h 0 (Nat.zero_lt_succ _)
      cases items with
      | nil =>
          have hothers := @ih [] fun i hi => h (i + 1) (Nat.succ_lt_succ hi)
          rw [List.filterMap_cons_none (by rw [hfirst]; rfl), hothers, List.zip_nil_right,
            List.zip_nil_right]
      | cons v rest =>
          have hothers := @ih rest fun i hi => h (i + 1) (Nat.succ_lt_succ hi)
          rw [List.filterMap_cons_some (by rw [hfirst]; rfl), hothers, List.zip_cons_cons]

theorem given_array {keys : List String} (hkeys : keys.Nodup) (items : List Value) :
    Value.given keys (.array items) = keys.zip items := by
  refine filterMap_eq_zip fun i hi => ?_
  have hplace : keys.idxOf? keys[i] = some i := by
    refine List.idxOf?_eq_some_iff.mpr ⟨hi, rfl, fun j hj heq => ?_⟩
    exact absurd (hkeys.getElem_inj_iff.mp heq) (Nat.ne_of_lt hj)
  rw [Value.part?, hplace, Option.bind_some]

theorem part?_object_eq_some {keys : List String} {members : List (String × Value)}
    (hnodup : (members.map (·.1)).Nodup) {key : String} {v : Value} :
    (Value.object members).part? keys key = some v ↔ (key, v) ∈ members := by
  rw [Value.part?, Option.map_eq_some_iff]
  constructor
  · rintro ⟨member, hfound, rfl⟩
    have hkey : member.1 = key := by simpa using List.find?_some hfound
    rw [← hkey]
    exact List.mem_of_find?_eq_some hfound
  · intro hmem
    cases hfound : members.find? (·.1 == key) with
    | none => simpa using List.find?_eq_none.mp hfound _ hmem
    | some member =>
        have hkey : member.1 = key := by simpa using List.find?_some hfound
        have hmember := List.mem_of_find?_eq_some hfound
        exact ⟨member, rfl, by rw [List.inj_on_of_nodup_map hnodup hmember hmem hkey]⟩

theorem given_object {keys : List String} (hkeys : keys.Nodup) {members : List (String × Value)}
    (h : (Value.object members).IsRecord keys) :
    members.Perm (Value.given keys (.object members)) := by
  obtain ⟨hnodup, hdeclared⟩ := h
  have hgiven : (Value.given keys (.object members)).Nodup := by
    refine hkeys.filterMap fun key key' part hpart hpart' => ?_
    obtain ⟨_, _, rfl⟩ := Option.map_eq_some_iff.mp hpart
    obtain ⟨_, _, heq⟩ := Option.map_eq_some_iff.mp hpart'
    exact (congrArg Prod.fst heq).symm
  refine (List.perm_ext_iff_of_nodup hnodup.of_map hgiven).mpr fun member => ?_
  rw [Value.given, List.mem_filterMap]
  constructor
  · intro hmem
    have hpart : (Value.object members).part? keys member.1 = some member.2 :=
      (part?_object_eq_some hnodup).mpr hmem
    exact ⟨member.1, hdeclared member hmem, by rw [hpart]; rfl⟩
  · rintro ⟨key, _, hpart⟩
    obtain ⟨v, hv, rfl⟩ := Option.map_eq_some_iff.mp hpart
    exact (part?_object_eq_some hnodup).mp hv

/-! ## Field by field -/

namespace Effect

/-- A part that is given takes effect, and one that is not leaves the record as it is. -/
def Part (e : Effect σ) (key : String) (part? : Option Value) (record record' : σ) : Prop :=
  match part? with
  | some v => e key v record record'
  | none => record' = record

theorem run_nil {e : Effect σ} {record record' : σ} :
    e.Run [] record record' ↔ record' = record := by
  constructor
  · rintro ⟨⟩
    rfl
  · rintro rfl
    exact .nil

/-- The given parts take effect one after the other. -/
theorem run_filterMap_cons {e : Effect σ} {part? : String → Option Value} {key : String}
    {keys : List String} {record record' : σ} :
    e.Run ((key :: keys).filterMap fun key => (part? key).map (key, ·)) record record' ↔
      ∃ mid, e.Part key (part? key) record mid ∧
        e.Run (keys.filterMap fun key => (part? key).map (key, ·)) mid record' := by
  cases hpart : part? key with
  | none =>
      rw [List.filterMap_cons_none (by rw [hpart]; rfl)]
      simp only [Part, exists_eq_left]
  | some v =>
      rw [List.filterMap_cons_some (by rw [hpart]; rfl)]
      constructor
      · rintro ⟨⟩
        exact ⟨_, ‹_›, ‹_›⟩
      · rintro ⟨mid, hfirst, hrest⟩
        exact .cons hfirst hrest

/-- Where an effect puts what its value denotes in the place of what is held, a part does so or
leaves what is held. -/
theorem part_iff {α : Type} {e : Effect σ} {key : String} {denotes : α → Value → Prop}
    {record record' : σ} {held : α} {put : α → σ} {part? : Option Value}
    (he : ∀ v record', e key v record record' ↔ ∃ a, denotes a v ∧ record' = put a)
    (hheld : put held = record) :
    e.Part key part? record record' ↔
      ∃ a, Settings.Given denotes held a part? ∧ record' = put a := by
  cases part? with
  | none => simp only [Part, Settings.Given, exists_eq_left, hheld]
  | some v => exact he v record'

end Effect

/-! ## Records -/

/-- The fields of a record read values, each with the effect of its key. -/
def Read (fields : List (RecordField σ)) (e : Effect σ) : Prop :=
  ∀ field ∈ fields, ∀ record, Accepts (field.read record) fun record' v =>
    e field.key v record record'

/-- Behind a key that is still to come, its value is read into the record. -/
theorem members_found {fields unseen : List (RecordField σ)} {first : Bool} {record : σ}
    {s mid : List Char} {key : String} {field : RecordField σ}
    (hkey : key? first s = .ok (some key, mid)) (hfound : unseen.find? (·.key == key) = some field) :
    members fields unseen first record s =
      (token ':' >>= fun _ => field.read record >>= fun record =>
        members fields (unseen.eraseP (·.key == key)) false record) mid := by
  rw [members, bind_of_ok hkey]
  refine congrFun ?_ mid
  dsimp only
  split
  · next hfound' =>
      rw [hfound] at hfound'
      cases hfound'
      rfl
  · next hnone =>
      rw [hfound] at hnone
      cases hnone

/-- Any other key is a fault. -/
theorem members_unfound {fields unseen : List (RecordField σ)} {first : Bool} {record : σ}
    {s mid : List Char} {key : String} (hkey : key? first s = .ok (some key, mid))
    (hnone : unseen.find? (·.key == key) = none) :
    members fields unseen first record s = .error (.schema (if fields.any (·.key == key)
      then .duplicateField key else .unknownField key (fields.map (·.key)))) := by
  rw [members, bind_of_ok hkey]
  refine Eq.trans (congrFun (?_ : _ = fail _) mid) rfl
  dsimp only
  split
  · next hfound =>
      rw [hfound] at hnone
      cases hnone
  · split <;> rfl

theorem keys_eraseP (unseen : List (RecordField σ)) (key : String) :
    (unseen.eraseP (·.key == key)).map (·.key) = (unseen.map (·.key)).erase key := by
  rw [List.erase_eq_eraseP', List.eraseP_map]
  rfl

theorem Read.eraseP {unseen : List (RecordField σ)} {e : Effect σ} (h : Read unseen e)
    (key : String) : Read (unseen.eraseP (·.key == key)) e :=
  fun field hfield => h field (List.mem_of_mem_eraseP hfield)

theorem exists_field {unseen : List (RecordField σ)} {key : String}
    (h : key ∈ unseen.map (·.key)) :
    ∃ field ∈ unseen, field.key = key ∧ unseen.find? (·.key == key) = some field := by
  obtain ⟨field, hfield, hkey⟩ := List.mem_map.mp h
  cases hfound : unseen.find? (·.key == key) with
  | none => simpa [hkey] using List.find?_eq_none.mp hfound field hfield
  | some found =>
      exact ⟨found, List.mem_of_find?_eq_some hfound, by simpa using List.find?_some hfound, rfl⟩

theorem members_sound {fields unseen : List (RecordField σ)} {e : Effect σ}
    (hread : Read unseen e) (hkeys : (unseen.map (·.key)).Nodup) {first : Bool}
    {record record' : σ} {s rest : List Char}
    (h : members fields unseen first record s = .ok (record', rest)) :
    ∃ ms tail, ObjectTail first ms tail ∧ (ms.map (·.1)).Nodup ∧
      (∀ member ∈ ms, member.1 ∈ unseen.map (·.key)) ∧ e.Run ms record record' ∧
      s = tail ++ rest := by
  induction unseen, first, record using members.induct generalizing s with
  | case1 unseen first record ih =>
      obtain ⟨key?, mid, hkey⟩ : ∃ key? mid, Reader.key? first s = .ok (key?, mid) := by
        rw [members] at h
        obtain ⟨key?, mid, hkey, -⟩ := bind_eq_ok.1 h
        exact ⟨key?, mid, hkey⟩
      have hspelled := key?_sound hkey
      cases key? with
      | none =>
          rw [members, bind_of_ok hkey] at h
          obtain ⟨rfl, rfl⟩ := pure_eq_ok.mp h
          obtain ⟨before, hbefore, rfl⟩ := hspelled
          exact ⟨[], _, .close hbefore, List.nodup_nil, by simp, .nil, by simp⟩
      | some key =>
          obtain ⟨sep, before, keyText, hsep, hbefore, hkeyText, rfl⟩ := hspelled
          cases hfound : unseen.find? (·.key == key) with
          | none => rw [members_unfound hkey hfound] at h; cases h
          | some field =>
              have hmem := List.mem_of_find?_eq_some hfound
              have hfield : field.key = key := by simpa using List.find?_some hfound
              rw [members_found hkey hfound] at h
              obtain ⟨_, _, hcolon, hvalue⟩ := bind_eq_ok.1 h
              obtain ⟨next, _, hvalue, hothers⟩ := bind_eq_ok.1 hvalue
              obtain ⟨between, hbetween, rfl⟩ := (token_eq_ok rfl).mp hcolon
              obtain ⟨v, behind, text, hbehind, hv, hfirst, rfl⟩ := (hread field hmem record).sound hvalue
              have herase : ((unseen.eraseP (·.key == key)).map (·.key)).Nodup := by
                rw [keys_eraseP]
                exact hkeys.erase key
              obtain ⟨ms, tail, htail, hnodup, hdeclared, hrun, rfl⟩ :=
                ih key field hfound next (hread.eraseP key) herase hothers
              simp only [keys_eraseP, hkeys.mem_erase_iff] at hdeclared
              refine ⟨(key, v) :: ms, _, .member hsep hbefore hkeyText hbetween hbehind hv htail,
                ?_, ?_, .cons (hfield ▸ hfirst) hrun, by simp⟩
              · refine List.nodup_cons.mpr ⟨fun hkey => ?_, hnodup⟩
                obtain ⟨member, hmember, heq⟩ := List.mem_map.mp hkey
                exact (hdeclared member hmember).1 heq
              · refine List.forall_mem_cons.mpr ⟨?_, fun member hmember => (hdeclared member hmember).2⟩
                exact List.mem_map.mpr ⟨field, hmem, hfield⟩

theorem members_complete {fields unseen : List (RecordField σ)} {e : Effect σ}
    (hread : Read unseen e) {first : Bool} {record record' : σ} {ms : List (String × Value)}
    {tail rest : List Char} (htail : ObjectTail first ms tail) (hnodup : (ms.map (·.1)).Nodup)
    (hdeclared : ∀ member ∈ ms, member.1 ∈ unseen.map (·.key)) (hrun : e.Run ms record record') :
    members fields unseen first record (tail ++ rest) = .ok (record', rest) := by
  induction ms generalizing unseen first record tail with
  | nil =>
      cases hrun
      cases htail with
      | @close _ before hbefore =>
          rw [members, List.append_assoc]
          exact bind_eq_ok.2 ⟨none, rest, key?_close hbefore, rfl⟩
  | cons member others ih =>
      obtain ⟨hfresh, hothersNodup⟩ := List.nodup_cons.mp hnodup
      obtain ⟨hmember, hothers⟩ := List.forall_mem_cons.mp hdeclared
      cases hrun with
      | @cons key v _ _ mid _ hfirst hrun =>
      cases htail with
      | @member _ sep before keyText between behind text tail _ _ _ hsep hbefore hkey hbetween
          hbehind hv htail =>
          obtain ⟨field, hfield, rfl, hfound⟩ := exists_field hmember
          simp only [List.append_assoc, List.cons_append]
          rw [members_found (key?_key hsep hbefore hkey) hfound]
          refine bind_eq_ok.2 ⟨(), _, (token_eq_ok rfl).mpr ⟨between, hbetween, rfl⟩, ?_⟩
          refine bind_eq_ok.2 ⟨mid, _, (hread field hfield record).complete hbehind hv hfirst, ?_⟩
          refine ih (hread.eraseP field.key) htail hothersNodup (fun member hmem => ?_) hrun
          rw [keys_eraseP]
          refine (List.mem_erase_of_ne fun heq => ?_).mpr (hothers member hmem)
          exact hfresh (List.mem_map.mpr ⟨member, hmem, heq⟩)

/-- Where an array does not end, a comma is due unless the element is the first, and then the
value of the next field. -/
theorem elements_item {field : RecordField σ} {others : List (RecordField σ)} {first : Bool}
    {record : σ} {s mid : List Char} {c : Char} (hpeek : peek s = .ok (c, mid)) (hc : c ≠ ']') :
    elements (field :: others) first record s =
      ((if first then pure () else token ',') >>= fun _ => field.read record >>= fun record =>
        elements others false record) mid := by
  rw [elements, bind_of_ok hpeek, if_neg hc]
  cases first <;> rfl

theorem elements_sound {fields : List (RecordField σ)} {e : Effect σ} (hread : Read fields e)
    {first : Bool} {record record' : σ} {s rest : List Char}
    (h : elements fields first record s = .ok (record', rest)) :
    ∃ items tail, ArrayTail first items tail ∧ items.length ≤ fields.length ∧
      e.Run ((fields.map (·.key)).zip items) record record' ∧ s = tail ++ rest := by
  induction fields generalizing first record s with
  | nil =>
      obtain ⟨_, mid, hclose, hpure⟩ := bind_eq_ok.1 h
      obtain ⟨rfl, rfl⟩ := pure_eq_ok.mp hpure
      obtain ⟨before, hbefore, rfl⟩ := (token_eq_ok rfl).mp hclose
      exact ⟨[], _, .close hbefore, Nat.le_refl _, .nil, by simp⟩
  | cons field others ih =>
      have hothers : Read others e := fun f hf => hread f (List.mem_cons_of_mem _ hf)
      obtain ⟨c, mid, hpeek, hclose⟩ := bind_eq_ok.1 h
      obtain ⟨before, tail, hbefore, -, rfl, rfl⟩ := peek_eq_ok.mp hpeek
      by_cases hc : c = ']'
      · rw [if_pos hc] at hclose
        cases hclose
        exact ⟨[], _, .close hbefore, Nat.zero_le _, .nil, by simp [hc]⟩
      · rw [elements_item hpeek hc] at h
        obtain ⟨_, mid, hcomma, hvalue⟩ := bind_eq_ok.1 h
        obtain ⟨next, _, hvalue, helements⟩ := bind_eq_ok.1 hvalue
        obtain ⟨items, tail, htail, hlength, hrun, rfl⟩ := ih hothers helements
        obtain ⟨v, behind, text, hbehind, hv, hfirst, rfl⟩ :=
          (hread field (List.mem_cons_self ..) record).sound hvalue
        cases first with
        | true =>
            obtain ⟨-, heq⟩ := pure_eq_ok.mp hcomma
            exact ⟨v :: items, _, .item .first (hbefore.append hbehind) hv htail,
              Nat.succ_le_succ hlength, .cons hfirst hrun, by simp [← heq]⟩
        | false =>
            obtain ⟨sp, hsp, heq⟩ := (token_eq_ok rfl).mp hcomma
            exact ⟨v :: items, _, .item (.comma (hbefore.append hsp)) hbehind hv htail,
              Nat.succ_le_succ hlength, .cons hfirst hrun, by simp [heq]⟩

theorem elements_complete {fields : List (RecordField σ)} {e : Effect σ} (hread : Read fields e)
    {first : Bool} {record record' : σ} {items : List Value} {tail rest : List Char}
    (htail : ArrayTail first items tail) (hlength : items.length ≤ fields.length)
    (hrun : e.Run ((fields.map (·.key)).zip items) record record') :
    elements fields first record (tail ++ rest) = .ok (record', rest) := by
  induction fields generalizing first record items tail with
  | nil =>
      cases htail with
      | item _ _ _ _ => cases hlength
      | @close _ before hbefore =>
          cases hrun
          rw [List.append_assoc]
          exact bind_eq_ok.2 ⟨(), rest, (token_eq_ok rfl).mpr ⟨before, hbefore, rfl⟩, rfl⟩
  | cons field others ih =>
      have hothers : Read others e := fun f hf => hread f (List.mem_cons_of_mem _ hf)
      cases htail with
      | @close _ before hbefore =>
          cases hrun
          rw [List.append_assoc]
          exact (peek_bind hbefore rfl).trans rfl
      | @item _ sep before text tail v items hsep hbefore hv htail =>
          cases hrun with
          | @cons _ _ _ _ mid _ hfirst hrun =>
              have hvalue := hread field (List.mem_cons_self ..) record
              have hrest := ih hothers htail (Nat.le_of_succ_le_succ hlength) hrun
              cases hsep with
              | first =>
                  obtain ⟨c, others, rfl, hspace, hc⟩ := hv.head
                  simp only [List.nil_append, List.append_assoc, List.cons_append]
                  rw [elements_item (peek_append hbefore hspace) hc]
                  refine bind_eq_ok.2 ⟨(), _, rfl, ?_⟩
                  exact bind_eq_ok.2 ⟨mid, tail ++ rest, hvalue.complete blanks_nil hv hfirst, hrest⟩
              | @comma sp hsp =>
                  simp only [List.append_assoc, List.cons_append, List.nil_append]
                  rw [elements_item (peek_append hsp rfl) (by decide)]
                  refine bind_eq_ok.2 ⟨(), _, (token_eq_ok rfl).mpr ⟨[], blanks_nil, rfl⟩, ?_⟩
                  exact bind_eq_ok.2 ⟨mid, tail ++ rest, hvalue.complete hbefore hv hfirst, hrest⟩

/-- A record is read as what its given parts make of it, in the declared order. -/
theorem accepts_record {fields : List (RecordField σ)} {e : Effect σ} (hread : Read fields e)
    (he : e.Commutes) (hkeys : (fields.map (·.key)).Nodup) (name : String) (record : σ) :
    Accepts (Reader.record name fields record) fun record' v =>
      v.IsRecord (fields.map (·.key)) ∧ e.Run (v.given (fields.map (·.key))) record record' where
  sound s rest record' h := by
    obtain ⟨c, mid, hpeek, hrest⟩ := bind_eq_ok.1 h
    obtain ⟨before, tail, hbefore, -, rfl, rfl⟩ := peek_eq_ok.mp hpeek
    split at hrest
    · obtain ⟨items, tail, htail, hlength, hrun, rfl⟩ :=
        elements_sound hread (skip_bind.symm.trans hrest)
      refine ⟨.array items, before, _, hbefore, spelled_array_iff.mpr ⟨tail, htail, rfl⟩, ?_, rfl⟩
      rw [given_array hkeys]
      exact ⟨by simpa [Value.IsRecord] using hlength, hrun⟩
    · obtain ⟨ms, tail, htail, hnodup, hdeclared, hrun, rfl⟩ :=
        members_sound hread hkeys (skip_bind.symm.trans hrest)
      have hrecord : (Value.object ms).IsRecord (fields.map (·.key)) := ⟨hnodup, hdeclared⟩
      exact ⟨.object ms, before, _, hbefore, spelled_object_iff.mpr ⟨tail, htail, rfl⟩,
        ⟨hrecord, hrun.perm he (given_object hkeys hrecord) hnodup⟩, rfl⟩
    · exact absurd hrest wrongType_ne_ok
  complete before text rest record' v hbefore hspelled hv := by
    obtain ⟨hrecord, hrun⟩ := hv
    match v with
    | .array items =>
        obtain ⟨tail, htail, rfl⟩ := spelled_array_iff.mp hspelled
        rw [given_array hkeys] at hrun
        have hlength : items.length ≤ fields.length := by simpa [Value.IsRecord] using hrecord
        refine (peek_bind hbefore rfl).trans (skip_bind.trans ?_)
        exact elements_complete hread htail hlength hrun
    | .object ms =>
        obtain ⟨tail, htail, rfl⟩ := spelled_object_iff.mp hspelled
        have hperm := given_object hkeys hrecord
        obtain ⟨hnodup, hdeclared⟩ := hrecord
        have hgiven := (hperm.map (·.1)).nodup_iff.mp hnodup
        refine (peek_bind hbefore rfl).trans (skip_bind.trans ?_)
        exact members_complete hread htail hnodup hdeclared (hrun.perm he hperm.symm hgiven)
    | .null | .boolean _ | .number _ | .string _ => cases hrecord

end MipsWords.Json
