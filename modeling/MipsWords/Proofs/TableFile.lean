import MipsWords.Mnemonic.Edit
import MipsWords.Proofs.Numerals
import MipsWords.Proofs.Writes

/-!
# What a table file says

The key of a code is its numeral of six binary digits, and a file names a code
by the last name that its members give to that key (`named`). The way there is
longer: the members go into a map by key, its keys are read as codes, and the
names go into a map by code. Since six digits read as a code in one way only, no
two keys meet at a code and nothing is lost between the two maps.

Bad keys stop the file before any name counts, so the first bad key in the
order of the map is the whole outcome.
-/

namespace MipsWords

namespace Names

/-! ## Keys -/

theorem keyCode?_eq_some {key : String} {code : Nat} (h : keyCode? key = some code) :
    key.toList.length = 6 ∧ Numeral.readFrom? 2 0 key.toList = some code := by
  rw [keyCode?] at h
  split at h
  · next hlength =>
      have hlist : key.toList.length = 6 := by rw [String.length_toList, hlength]
      have hne : key.toList.isEmpty = false := by
        cases hkey : key.toList with
        | nil => rw [hkey] at hlist; cases hlist
        | cons _ _ => rfl
      rw [Numeral.read?, hne] at h
      exact ⟨hlist, h⟩
  · cases h

theorem keyCode?_lt {key : String} {code : Nat} (h : keyCode? key = some code) : code < 64 := by
  obtain ⟨hlength, h⟩ := keyCode?_eq_some h
  have hlt := Numeral.readFrom?_lt h
  rw [hlength] at hlt
  exact hlt

/-- A code has one key. -/
theorem keyCode?_injective {key key' : String} {code : Nat} (h : keyCode? key = some code)
    (h' : keyCode? key' = some code) : key = key' := by
  obtain ⟨hlength, h⟩ := keyCode?_eq_some h
  obtain ⟨hlength', h'⟩ := keyCode?_eq_some h'
  have hlist := (Numeral.readFrom?_injective (by decide) (hlength.trans hlength'.symm) h h').2
  exact String.toList_injective hlist

theorem keyCode?_binary {code : Nat} (h : code < 64) :
    keyCode? (Numeral.binary 6 code) = some code := by
  revert code
  decide +kernel

/-- The keys are the numerals of six digits. -/
theorem keyCode?_eq_some_iff {key : String} {code : Nat} :
    keyCode? key = some code ↔ code < 64 ∧ key = Numeral.binary 6 code := by
  constructor
  · intro h
    have hlt := keyCode?_lt h
    exact ⟨hlt, keyCode?_injective h (keyCode?_binary hlt)⟩
  · rintro ⟨hlt, rfl⟩
    exact keyCode?_binary hlt

/-- A key that stands for a code. -/
def IsKey (key : String) : Prop := ∃ code < 64, key = Numeral.binary 6 code

instance (key : String) : Decidable (IsKey key) :=
  inferInstanceAs (Decidable (∃ code < 64, key = Numeral.binary 6 code))

theorem isKey_iff {key : String} : IsKey key ↔ (keyCode? key).isSome := by
  rw [Option.isSome_iff_exists]
  exact exists_congr fun _ => keyCode?_eq_some_iff.symm

/-- The members with a good key, by code. -/
def coded (members : List (String × String)) : List (Nat × String) :=
  members.filterMap fun member => (keyCode? member.1).map (·, member.2)

theorem coded_cons_of_none {key name : String} {rest : List (String × String)}
    (h : keyCode? key = none) : coded ((key, name) :: rest) = coded rest := by
  rw [coded, List.filterMap_cons_none (by simp only [h, Option.map_none])]
  rfl

theorem coded_cons_of_some {key name : String} {code : Nat} {rest : List (String × String)}
    (h : keyCode? key = some code) : coded ((key, name) :: rest) = (code, name) :: coded rest := by
  rw [coded, List.filterMap_cons_some (by simp only [h, Option.map_some]; rfl)]
  rfl

theorem lt_of_mem_coded {members : List (String × String)} {pair : Nat × String}
    (h : pair ∈ coded members) : pair.1 < 64 := by
  obtain ⟨⟨key, name⟩, _, hpair⟩ := List.mem_filterMap.mp h
  obtain ⟨code, hcode, rfl⟩ := Option.map_eq_some_iff.mp hpair
  exact keyCode?_lt hcode

/-! ## Writing at keys and at codes -/

/-- At the code of a key, members by code write what members by key write at the key. -/
theorem writeAll_coded {g : Nat → Option String} {f : String → Option String} {key : String}
    {code : Nat} (hkey : keyCode? key = some code) (hg : g code = f key)
    (members : List (String × String)) :
    writeAll g (coded members) code = writeAll f members key := by
  induction members generalizing g f with
  | nil => exact hg
  | cons member rest ih =>
      obtain ⟨other, name⟩ := member
      rw [writeAll_cons]
      cases hother : keyCode? other with
      | none =>
          have hne : key ≠ other := by
            rintro rfl
            rw [hkey] at hother
            cases hother
          rw [coded_cons_of_none hother]
          exact ih (by rw [Function.update_of_ne hne, hg])
      | some code' =>
          rw [coded_cons_of_some hother, writeAll_cons]
          refine ih ?_
          by_cases hcode : code = code'
          · subst hcode
            rw [keyCode?_injective hother hkey, Function.update_self, Function.update_self]
          · have hne : key ≠ other := by
              rintro rfl
              exact hcode (Option.some.inj (hkey.symm.trans hother))
            rw [Function.update_of_ne hcode, Function.update_of_ne hne, hg]

/-- What members say about a code: the last name given to its key. -/
def named (members : List (String × String)) (code : Nat) : Option String :=
  if code < 64 then writeAll (fun _ => none) members (Numeral.binary 6 code) else none

theorem get?_ofPairs_coded (members : List (String × String)) :
    (ofPairs (coded members)).get? = named members := by
  funext code
  rw [get?_ofPairs, named]
  split
  · next hlt => exact writeAll_coded (keyCode?_binary hlt) rfl members
  · next hge =>
      refine writeAll_of_not_mem fun pair hpair heq => hge ?_
      rw [← heq]
      exact lt_of_mem_coded hpair

/-- Passing through the map by key changes nothing about what members say. -/
theorem named_ofList (members : List (String × String)) :
    named (Std.ExtTreeMap.ofList members).toList = named members := by
  funext code
  rw [named, named, writeAll_toList, getElem?_ofList]

/-! ## Reading the keys of a map -/

/-- The first bad key is the error, and without one every member is read. -/
theorem mapM_parseKey (pairs : List (String × String)) :
    (pairs.mapM fun (key, name) => do return (← parseKey key, name)) =
      match pairs.find? fun pair => (keyCode? pair.1).isNone with
      | some pair => .error (.tableKey pair.1)
      | none => .ok (coded pairs) := by
  induction pairs with
  | nil => rfl
  | cons pair rest ih =>
      obtain ⟨key, name⟩ := pair
      rw [List.mapM_cons, ih]
      cases hkey : keyCode? key with
      | none =>
          have hparse : parseKey key = .error (.tableKey key) := by rw [parseKey]; simp only [hkey]
          rw [List.find?_cons_of_pos (by simp only [hkey, Option.isNone_none])]
          simp only [hparse]
          rfl
      | some code =>
          have hparse : parseKey key = .ok code := by rw [parseKey]; simp only [hkey]
          rw [List.find?_cons_of_neg (by simp [hkey]), coded_cons_of_some hkey]
          simp only [hparse]
          cases rest.find? fun pair => (keyCode? pair.1).isNone <;> rfl

/-- The least bad key is the error, and without one every member is written at its code. -/
theorem ofMembers_eq (members : List (String × String)) :
    ofMembers members =
      match (Std.ExtTreeMap.ofList members).toList.find? fun pair => (keyCode? pair.1).isNone with
      | some pair => .error (.tableKey pair.1)
      | none => .ok (ofPairs (coded members)) := by
  have hpairs : ofPairs (coded (Std.ExtTreeMap.ofList members).toList) = ofPairs (coded members) :=
    ext fun code => by rw [get?_ofPairs_coded, get?_ofPairs_coded, named_ofList]
  rw [ofMembers, ofKeyed, mapM_parseKey, ← hpairs]
  cases (Std.ExtTreeMap.ofList members).toList.find? fun pair => (keyCode? pair.1).isNone <;> rfl

theorem mem_keys_ofList {members : List (String × String)} {key : String} :
    key ∈ (Std.ExtTreeMap.ofList members).toList.map (·.1) ↔ key ∈ members.map (·.1) := by
  rw [Std.ExtTreeMap.map_fst_toList_eq_keys, Std.ExtTreeMap.mem_keys, Std.ExtTreeMap.mem_ofList,
    List.contains_iff_mem]

theorem find?_bad_key_eq_none_iff (members : List (String × String)) :
    ((Std.ExtTreeMap.ofList members).toList.find? fun pair => (keyCode? pair.1).isNone) = none ↔
      ∀ member ∈ members, IsKey member.1 := by
  rw [List.find?_eq_none, ← List.forall_mem_map (P := fun key => ¬(keyCode? key).isNone),
    ← List.forall_mem_map (P := IsKey)]
  simp only [mem_keys_ofList, Bool.not_eq_true, Option.isNone_eq_false_iff, isKey_iff]

theorem ofMembers_eq_ok_iff {members : List (String × String)} {t : Names} :
    ofMembers members = .ok t ↔
      (∀ member ∈ members, IsKey member.1) ∧ t = ofPairs (coded members) := by
  rw [ofMembers_eq, ← find?_bad_key_eq_none_iff]
  split
  · next pair hbad => simp [hbad]
  · next hgood =>
      rw [Except.ok.injEq, eq_comm]
      exact ⟨fun h => ⟨hgood, h⟩, And.right⟩

/-- What the members of a map can be wrong in is a key. -/
theorem eq_tableKey_of_ofMembers {members : List (String × String)} {e : Error}
    (h : ofMembers members = .error e) : ∃ key, e = .tableKey key := by
  rw [ofMembers_eq] at h
  split at h
  · next pair _ =>
      cases h
      exact ⟨pair.1, rfl⟩
  · cases h

end Names

theorem Table.eq_tableKey_of_ofMembers {members : Members} {e : Error}
    (h : ofMembers members = .error e) : ∃ key, e = .tableKey key := by
  rw [ofMembers] at h
  cases hopcodes : Names.ofMembers members.opcodes with
  | error e =>
      rw [hopcodes] at h
      cases h
      exact Names.eq_tableKey_of_ofMembers hopcodes
  | ok opcodes =>
      cases hfunctions : Names.ofMembers members.functions with
      | error e =>
          rw [hopcodes, hfunctions] at h
          cases h
          exact Names.eq_tableKey_of_ofMembers hfunctions
      | ok functions =>
          rw [hopcodes, hfunctions] at h
          cases h

end MipsWords
