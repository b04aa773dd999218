import MipsWords.Proofs.BinaryWords
import MipsWords.Proofs.ByteOrder
import MipsWords.Proofs.Spelling.Records
import MipsWords.Proofs.TableRuns

/-!
# Loading a table is inserting its members

A table file is read into the members of its two sections, in the order of the
text, and these are what its value denotes (`Members.Denotes`). Whatever the
text looks like, the rest is a fact about two lists of members: the keys among
them that are bad are looked for in the order of their bytes, and if there are
none, the table is the one that insertions of the members build, one by one.

A key is its own numeral: two keys with the same code are the same, so there is
an entry for every key.
-/

namespace MipsWords

open Json
open Json.Reader
open Settings (Given)

/-! ## The members of a file -/

namespace Table.Members

/-- The members that a value stands for: a record of two sections, each an object of texts. A
section that is not given has no members. -/
def Denotes (members : Members) (v : Value) : Prop :=
  let keys := ["opcodes", "functions"]
  v.IsRecord keys ∧
    Given (fun ms v => v = .object (textMembers ms)) [] members.opcodes (v.part? keys "opcodes") ∧
    Given (fun ms v => v = .object (textMembers ms)) [] members.functions
      (v.part? keys "functions")

/-- What a section does to the members read so far. -/
def effect : Effect Members := fun key v m m' =>
  (key = "opcodes" ∧ ∃ ms, v = .object (textMembers ms) ∧ m' = { m with opcodes := ms }) ∨
  (key = "functions" ∧ ∃ ms, v = .object (textMembers ms) ∧ m' = { m with functions := ms })

theorem commutes_effect : effect.Commutes := by
  rintro key key' v v' m mid m' hne (⟨rfl, ms, hms, rfl⟩ | ⟨rfl, ms, hms, rfl⟩)
    (⟨rfl, ms', hms', rfl⟩ | ⟨rfl, ms', hms', rfl⟩)
  · exact absurd rfl hne
  · exact ⟨_, .inr ⟨rfl, ms', hms', rfl⟩, .inl ⟨rfl, ms, hms, rfl⟩⟩
  · exact ⟨_, .inl ⟨rfl, ms', hms', rfl⟩, .inr ⟨rfl, ms, hms, rfl⟩⟩
  · exact absurd rfl hne

theorem effect_opcodes {v : Value} {m m' : Members} :
    effect "opcodes" v m m' ↔
      ∃ ms, v = .object (textMembers ms) ∧ m' = { m with opcodes := ms } := by
  simp [effect]

theorem effect_functions {v : Value} {m m' : Members} :
    effect "functions" v m m' ↔
      ∃ ms, v = .object (textMembers ms) ∧ m' = { m with functions := ms } := by
  simp [effect]

theorem read_sections : Read sections effect := by
  refine List.forall_mem_cons.mpr ⟨fun m => ?_, List.forall_mem_singleton.mpr fun m => ?_⟩
  · exact (accepts_entries.put _).congr fun m' v => effect_opcodes.symm
  · exact (accepts_entries.put _).congr fun m' v => effect_functions.symm

theorem accepts_sections : Accepts (record "RawTable" sections {}) Denotes := by
  have h := accepts_record read_sections commutes_effect (by decide) "RawTable" {}
  refine h.congr fun m v => and_congr_right fun _ => ?_
  show effect.Run (v.given ["opcodes", "functions"]) {} m ↔ _
  rw [Value.given]
  simp only [Effect.run_filterMap_cons, List.filterMap_nil, Effect.run_nil, exists_eq_right']
  constructor
  · rintro ⟨mid, hopcodes, hfunctions⟩
    obtain ⟨xs, hxs, rfl⟩ := (Effect.part_iff (fun _ _ => effect_opcodes) rfl).mp hopcodes
    obtain ⟨ys, hys, rfl⟩ := (Effect.part_iff (fun _ _ => effect_functions) rfl).mp hfunctions
    exact ⟨hxs, hys⟩
  · rintro ⟨hxs, hys⟩
    exact ⟨_, (Effect.part_iff (fun _ _ => effect_opcodes) rfl).mpr ⟨m.opcodes, hxs, rfl⟩,
      (Effect.part_iff (fun _ _ => effect_functions) rfl).mpr ⟨m.functions, hys, rfl⟩⟩

theorem ofJson_eq_ok_iff_denotes {text : String} {members : Members} :
    ofJson text = .ok members ↔ ∃ v, SpelledDocument v text.toList ∧ members.Denotes v :=
  mapError_eq_ok.trans (document_accepts accepts_sections)

end Table.Members

/-! ## Keys -/

/-- Six characters, each a zero or a one. -/
def SixBits (key : String) : Prop :=
  key.toList.length = 6 ∧ ∀ c ∈ key.toList, c = '0' ∨ c = '1'

/-- A key read as a binary number. -/
def keyValue (key : String) : Nat := Word.bitsValue key.toList

theorem keyCode?_of_sixBits {key : String} (h : SixBits key) :
    Names.keyCode? key = some (keyValue key) := by
  obtain ⟨hlength, hbits⟩ := h
  have hne : key.toList.isEmpty = false := by
    cases hkey : key.toList with
    | nil => rw [hkey] at hlength; cases hlength
    | cons _ _ => rfl
  rw [Names.keyCode?, if_pos (by rw [← String.length_toList, hlength]), Numeral.read?, hne]
  exact Numeral.readFrom?_bits hbits 0

theorem sixBits_of_keyCode? {key : String} {code : Nat} (h : Names.keyCode? key = some code) :
    SixBits key := by
  obtain ⟨hlength, hread⟩ := Names.keyCode?_eq_some h
  refine ⟨hlength, fun c hc => ?_⟩
  obtain ⟨d, hd⟩ := Option.isSome_iff_exists.mp (Numeral.isSome_digit?_of_readFrom? hread c hc)
  exact Numeral.eq_of_digit? hd

theorem keyCode?_eq_none_iff {key : String} : Names.keyCode? key = none ↔ ¬SixBits key := by
  rw [← not_iff_not, not_not]
  refine Option.ne_none_iff_exists'.trans ⟨fun ⟨_, h⟩ => sixBits_of_keyCode? h, fun h => ?_⟩
  exact ⟨_, keyCode?_of_sixBits h⟩

theorem isKey_iff_sixBits {key : String} : Names.IsKey key ↔ SixBits key := by
  rw [Names.isKey_iff, ← not_iff_not, ← keyCode?_eq_none_iff]
  simp

/-! ## The bad key that is reported -/

/-- Of the keys that are no six bits, the one with the least bytes. -/
structure LeastBad (members : List (String × String)) (key : String) : Prop where
  mem : key ∈ members.map (·.1)
  bad : ¬SixBits key
  least : ∀ other ∈ members.map (·.1), ¬SixBits other → other ≠ key → utf8 key < utf8 other

theorem LeastBad.unique {members members' : List (String × String)} {key key' : String}
    (hkeys : ∀ other, other ∈ members.map (·.1) ↔ other ∈ members'.map (·.1))
    (h : LeastBad members key) (h' : LeastBad members' key') : key = key' := by
  by_contra hne
  have hlt := h.least key' ((hkeys key').mpr h'.mem) h'.bad (Ne.symm hne)
  have hgt := h'.least key ((hkeys key).mp h.mem) h.bad hne
  exact List.lt_asymm hlt hgt

/-- The keys of a map ascend, so the first bad one is the least. -/
theorem leastBad_of_find? {members : List (String × String)} {pair : String × String}
    (h : ((Std.ExtTreeMap.ofList members).toList.find? fun pair => (Names.keyCode? pair.1).isNone) =
      some pair) : LeastBad members pair.1 := by
  obtain ⟨hbad, before, after, hsplit, hgood⟩ := List.find?_eq_some_iff_append.mp h
  have hascending : (Std.ExtTreeMap.ofList members).toList.Pairwise fun a b => a.1 < b.1 :=
    (Std.ExtTreeMap.ofList members).ordered_keys_toList.imp fun h => compare_lt_iff_lt.mp h
  rw [hsplit] at hascending
  refine ⟨?_, ?_, fun other hother hotherBad hne => ?_⟩
  · rw [← Names.mem_keys_ofList]
    exact List.mem_map_of_mem (List.mem_of_find?_eq_some h)
  · exact keyCode?_eq_none_iff.mp (Option.isNone_iff_eq_none.mp hbad)
  · rw [← Names.mem_keys_ofList, hsplit] at hother
    obtain ⟨member, hmember, rfl⟩ := List.mem_map.mp hother
    rcases List.mem_append.mp hmember with hbefore | hafter
    · have hsome := hgood member hbefore
      rw [keyCode?_eq_none_iff.mpr hotherBad] at hsome
      cases hsome
    · rcases List.mem_cons.mp hafter with rfl | hrest
      · exact absurd rfl hne
      · exact utf8_lt ((List.pairwise_cons.mp (List.pairwise_append.mp hascending).2.1).1 _ hrest)

/-- A section with a bad key has that least one for an error. -/
theorem ofMembers_of_bad {members : List (String × String)}
    (h : ¬∀ member ∈ members, SixBits member.1) :
    ∃ key, LeastBad members key ∧ Names.ofMembers members = .error (.tableKey key) := by
  cases hfind : (Std.ExtTreeMap.ofList members).toList.find?
      fun pair => (Names.keyCode? pair.1).isNone with
  | none =>
      have hgood := (Names.find?_bad_key_eq_none_iff members).mp hfind
      exact absurd (fun member hmember => isKey_iff_sixBits.mp (hgood member hmember)) h
  | some pair =>
      refine ⟨pair.1, leastBad_of_find? hfind, ?_⟩
      rw [Names.ofMembers_eq, hfind]

/-! ## Insertions -/

/-- The members of a section by value, if their keys are good. -/
def valued (members : List (String × String)) : List (Nat × String) :=
  members.map fun member => (keyValue member.1, member.2)

theorem coded_eq_valued {members : List (String × String)}
    (h : ∀ member ∈ members, SixBits member.1) : Names.coded members = valued members := by
  induction members with
  | nil => rfl
  | cons member rest ih =>
      rw [Names.coded_cons_of_some (keyCode?_of_sixBits (h member (List.mem_cons_self ..))),
        ih fun m hm => h m (List.mem_cons_of_mem _ hm)]
      rfl

theorem insertAll_empty {pairs : List (Nat × String)} (h : ∀ pair ∈ pairs, pair.1 < 64) :
    Names.empty.insertAll pairs = .ofPairs pairs := by
  refine Names.ext fun code => ?_
  rw [Names.get?_insertAll, Names.get?_ofPairs, Names.get?_empty_eq]
  refine congrFun (congrArg (writeAll _) ?_) code
  refine (List.map_congr_left fun pair hpair => ?_).trans (List.map_id pairs)
  show (pair.1 % 64, pair.2) = pair
  rw [Nat.mod_eq_of_lt (h pair hpair)]

namespace Table

/-- The members as insertions, each key by its value, the opcodes first. -/
def Members.inserts (members : Members) : List Edit :=
  (valued members.opcodes).map (fun pair => .opcode pair.1 pair.2) ++
    (valued members.functions).map fun pair => .function pair.1 pair.2

theorem applyAll_append (t : Table) (xs ys : List Edit) :
    t.applyAll (xs ++ ys) = (t.applyAll xs).applyAll ys := List.foldl_append

theorem applyAll_opcodes (t : Table) (pairs : List (Nat × String)) :
    t.applyAll (pairs.map fun pair => .opcode pair.1 pair.2) =
      { t with opcodes := t.opcodes.insertAll pairs } := by
  induction pairs generalizing t with
  | nil => rfl
  | cons pair rest ih => exact ih (t.insertOpcode pair.1 pair.2)

theorem applyAll_functions (t : Table) (pairs : List (Nat × String)) :
    t.applyAll (pairs.map fun pair => .function pair.1 pair.2) =
      { t with functions := t.functions.insertAll pairs } := by
  induction pairs generalizing t with
  | nil => rfl
  | cons pair rest ih => exact ih (t.insertFunction pair.1 pair.2)

/-- Inserting the members into the empty table gives the table of the members. -/
theorem applyAll_inserts {members : Members}
    (h : ∀ member ∈ members.opcodes ++ members.functions, SixBits member.1) :
    empty.applyAll members.inserts = members.table := by
  obtain ⟨hopcodes, hfunctions⟩ := List.forall_mem_append.mp h
  rw [Members.inserts, ← coded_eq_valued hopcodes, ← coded_eq_valued hfunctions, applyAll_append,
    applyAll_opcodes, applyAll_functions]
  show Table.mk (Names.empty.insertAll _) (Names.empty.insertAll _) = _
  rw [insertAll_empty fun _ => Names.lt_of_mem_coded, insertAll_empty fun _ => Names.lt_of_mem_coded]
  rfl

end Table

/-! ## What is in the table -/

theorem writeAll_eq_lookup (members : List (String × String)) (key : String) :
    writeAll (fun _ => none) members key = members.reverse.lookup key := by
  induction members using List.reverseRecOn with
  | nil => rfl
  | append_singleton rest member ih =>
      rw [List.reverse_append, List.reverse_singleton, List.singleton_append, writeAll,
        List.foldl_append]
      show Function.update (writeAll (fun _ => none) rest) member.1 (some member.2) key = _
      rw [Function.update_apply, List.lookup_cons, ih]
      by_cases hkey : key = member.1
      · simp [hkey]
      · rw [if_neg hkey, beq_false_of_ne hkey]

/-- The name of a key is the last one that the members give it. -/
theorem get?_ofPairs_keyValue (members : List (String × String)) {key : String} (h : SixBits key) :
    (Names.ofPairs (Names.coded members)).get? (keyValue key) = members.reverse.lookup key := by
  have hcoded : writeAll (fun _ => none) (Names.coded members) (keyValue key) =
      writeAll (fun _ => none) members key := Names.writeAll_coded (keyCode?_of_sixBits h) rfl members
  rw [Names.get?_ofPairs, hcoded, writeAll_eq_lookup]

theorem isSome_writeAll {pairs : List (Nat × String)} {g : Nat → Option String} {code : Nat} :
    (writeAll g pairs code).isSome ↔ code ∈ pairs.map (·.1) ∨ (g code).isSome := by
  induction pairs generalizing g with
  | nil => simp [writeAll]
  | cons pair rest ih =>
      rw [writeAll_cons, ih, Function.update_apply, List.map_cons, List.mem_cons]
      by_cases hcode : code = pair.1
      · simp [hcode]
      · simp [hcode]

theorem size_ofPairs (pairs : List (Nat × String)) :
    (Names.ofPairs pairs).size = (pairs.map (·.1)).toFinset.card := by
  rw [Names.size_eq_ncard, ← Set.ncard_coe_finset]
  congr 1
  ext code
  rw [Names.get?_ofPairs]
  simp [isSome_writeAll]

theorem keyValue_injOn : Set.InjOn keyValue {key | SixBits key} := by
  intro key h key' h' heq
  have hcode' := keyCode?_of_sixBits h'
  rw [← heq] at hcode'
  exact Names.keyCode?_injective (keyCode?_of_sixBits h) hcode'

/-- Every key has an entry of its own. -/
theorem size_coded {members : List (String × String)} (h : ∀ member ∈ members, SixBits member.1) :
    (Names.ofPairs (Names.coded members)).size = (members.map (·.1)).toFinset.card := by
  have hkeys : (valued members).map (·.1) = (members.map (·.1)).map keyValue := by
    rw [valued, List.map_map, List.map_map]
    rfl
  have himage : ((members.map (·.1)).map keyValue).toFinset =
      (members.map (·.1)).toFinset.image keyValue := by
    ext code
    simp
  rw [size_ofPairs, coded_eq_valued h, hkeys, himage, Finset.card_image_of_injOn]
  refine keyValue_injOn.mono fun key hkey => ?_
  obtain ⟨member, hmember, rfl⟩ := List.mem_map.mp (List.mem_toFinset.mp hkey)
  exact h member hmember

/-! ## Loading -/

namespace Table

/-- Of a file only the members that its value denotes are left. -/
theorem ofJson_eq_ofMembers {text : String} {v : Value} {members : Members}
    (hv : SpelledDocument v text.toList) (hmembers : members.Denotes v) :
    ofJson text = ofMembers members := by
  rw [ofJson, Members.ofJson_eq_ok_iff_denotes.mpr ⟨v, hv, hmembers⟩]
  rfl

/-- A file of good keys loads as the table that its insertions build. -/
theorem ofMembers_of_good {members : Members}
    (h : ∀ member ∈ members.opcodes ++ members.functions, SixBits member.1) :
    ofMembers members = .ok (empty.applyAll members.inserts) := by
  rw [applyAll_inserts h]
  exact ofMembers_eq_ok_iff.mpr
    ⟨fun member hmember => isKey_iff_sixBits.mpr (h member hmember), rfl⟩

theorem ofMembers_of_bad_opcodes {members : Members}
    (h : ¬∀ member ∈ members.opcodes, SixBits member.1) :
    ∃ key, LeastBad members.opcodes key ∧ ofMembers members = .error (.tableKey key) := by
  obtain ⟨key, hkey, herror⟩ := ofMembers_of_bad h
  refine ⟨key, hkey, ?_⟩
  rw [ofMembers, herror]
  rfl

theorem ofMembers_of_bad_functions {members : Members}
    (hopcodes : ∀ member ∈ members.opcodes, SixBits member.1)
    (h : ¬∀ member ∈ members.functions, SixBits member.1) :
    ∃ key, LeastBad members.functions key ∧ ofMembers members = .error (.tableKey key) := by
  obtain ⟨key, hkey, herror⟩ := MipsWords.ofMembers_of_bad h
  obtain ⟨names, hnames⟩ : ∃ names, Names.ofMembers members.opcodes = .ok names :=
    ⟨_, Names.ofMembers_eq_ok_iff.mpr
      ⟨fun member hmember => isKey_iff_sixBits.mpr (hopcodes member hmember), rfl⟩⟩
  refine ⟨key, hkey, ?_⟩
  rw [ofMembers, hnames, herror]
  rfl

theorem forall_sixBits_congr {members members' : List (String × String)}
    (hkeys : ∀ key, key ∈ members.map (·.1) ↔ key ∈ members'.map (·.1)) :
    (∀ member ∈ members, SixBits member.1) ↔ ∀ member ∈ members', SixBits member.1 := by
  have hmap (ms : List (String × String)) :
      (∀ member ∈ ms, SixBits member.1) ↔ ∀ key ∈ ms.map (·.1), SixBits key :=
    List.forall_mem_map.symm
  rw [hmap, hmap]
  exact forall_congr' fun key => imp_congr_left (hkeys key)

/-- Which key is reported is a matter of which keys there are, not of their order. -/
theorem ofMembers_eq_of_bad {members members' : Members}
    (hopcodes : ∀ key, key ∈ members.opcodes.map (·.1) ↔ key ∈ members'.opcodes.map (·.1))
    (hfunctions : ∀ key, key ∈ members.functions.map (·.1) ↔ key ∈ members'.functions.map (·.1))
    (h : ¬∀ member ∈ members.opcodes ++ members.functions, SixBits member.1) :
    ofMembers members = ofMembers members' := by
  have hopcodes' := forall_sixBits_congr hopcodes
  have hfunctions' := forall_sixBits_congr hfunctions
  by_cases hgood : ∀ member ∈ members.opcodes, SixBits member.1
  · have hbad : ¬∀ member ∈ members.functions, SixBits member.1 :=
      fun hgood' => h (List.forall_mem_append.mpr ⟨hgood, hgood'⟩)
    obtain ⟨key, hkey, herror⟩ := ofMembers_of_bad_functions hgood hbad
    obtain ⟨key', hkey', herror'⟩ :=
      ofMembers_of_bad_functions (hopcodes'.mp hgood) (mt hfunctions'.mpr hbad)
    rw [herror, herror', hkey.unique hfunctions hkey']
  · obtain ⟨key, hkey, herror⟩ := ofMembers_of_bad_opcodes hgood
    obtain ⟨key', hkey', herror'⟩ := ofMembers_of_bad_opcodes (mt hopcodes'.mpr hgood)
    rw [herror, herror', hkey.unique hopcodes hkey']

/-- Loading a file that spells the members of two sections agrees with inserting them. The least
bad key among the opcodes is the error, or else that among the functions, in whatever order the
keys come; without a bad key the table is the one that the insertions build from the empty table.
It has an entry for each key, with the last name that the key is given. -/
theorem ofJson_agrees {text : String} {v : Value} {members : Members}
    (hv : SpelledDocument v text.toList) (hmembers : members.Denotes v) :
    (¬(∀ member ∈ members.opcodes, SixBits member.1) →
      ∃ key, LeastBad members.opcodes key ∧ ofJson text = .error (.tableKey key)) ∧
    ((∀ member ∈ members.opcodes, SixBits member.1) →
      ¬(∀ member ∈ members.functions, SixBits member.1) →
      ∃ key, LeastBad members.functions key ∧ ofJson text = .error (.tableKey key)) ∧
    (¬(∀ member ∈ members.opcodes ++ members.functions, SixBits member.1) →
      ∀ (text' : String) (v' : Value) (members' : Members), SpelledDocument v' text'.toList →
      members'.Denotes v' →
      (∀ key, key ∈ members.opcodes.map (·.1) ↔ key ∈ members'.opcodes.map (·.1)) →
      (∀ key, key ∈ members.functions.map (·.1) ↔ key ∈ members'.functions.map (·.1)) →
      ofJson text = ofJson text') ∧
    ((∀ member ∈ members.opcodes ++ members.functions, SixBits member.1) →
      ofJson text = .ok (empty.applyAll members.inserts) ∧
      (∀ key opcode, SixBits key →
        (empty.applyAll members.inserts).resolve ⟨keyValue key, none⟩ =
          members.opcodes.reverse.lookup key ∧
        (empty.applyAll members.inserts).resolve ⟨opcode, some (keyValue key)⟩ =
          members.functions.reverse.lookup key) ∧
      (empty.applyAll members.inserts).size =
        (members.opcodes.map (·.1)).toFinset.card +
          (members.functions.map (·.1)).toFinset.card) := by
  rw [ofJson_eq_ofMembers hv hmembers]
  refine ⟨ofMembers_of_bad_opcodes, ofMembers_of_bad_functions, ?_, fun hgood => ?_⟩
  · intro hbad text' v' members' hv' hmembers' hopcodes hfunctions
    rw [ofJson_eq_ofMembers hv' hmembers']
    exact ofMembers_eq_of_bad hopcodes hfunctions hbad
  · refine ⟨ofMembers_of_good hgood, ?_⟩
    rw [applyAll_inserts hgood]
    obtain ⟨hopcodes, hfunctions⟩ := List.forall_mem_append.mp hgood
    refine ⟨fun key opcode hkey => ⟨?_, ?_⟩, ?_⟩
    · exact get?_ofPairs_keyValue members.opcodes hkey
    · exact get?_ofPairs_keyValue members.functions hkey
    · rw [size, Members.table, size_coded hopcodes, size_coded hfunctions]

/-- A key that starts with a sign comes before one that is not ASCII; of two names the last counts. -/
theorem ofJson_agrees_sign :
    ofJson "[\x7b\"é\":\"a\",\"+00001\":\"b\",\"000010\":\"c\"\x7d]" =
      .error (.tableKey "+00001") ∧
    ofJson "[\x7b\"000010\":\"a\",\"000010\":\"b\"\x7d]" =
      .ok (empty.applyAll [.opcode 2 "a", .opcode 2 "b"]) := by
  have hbad : Members.ofJson "[\x7b\"é\":\"a\",\"+00001\":\"b\",\"000010\":\"c\"\x7d]" =
      .ok ⟨[("é", "a"), ("+00001", "b"), ("000010", "c")], []⟩ := by decide +kernel
  have hgood : Members.ofJson "[\x7b\"000010\":\"a\",\"000010\":\"b\"\x7d]" =
      .ok ⟨[("000010", "a"), ("000010", "b")], []⟩ := by decide +kernel
  constructor
  · obtain ⟨v, hv, hmembers⟩ := Members.ofJson_eq_ok_iff_denotes.mp hbad
    have hsign : ¬SixBits "+00001" := fun h => absurd (h.2 '+' (by decide)) (by decide)
    have hleast : LeastBad [("é", "a"), ("+00001", "b"), ("000010", "c")] "+00001" := by
      refine ⟨by decide, hsign, fun other hother hbits hne => ?_⟩
      obtain rfl | rfl | rfl : other = "é" ∨ other = "+00001" ∨ other = "000010" := by
        simpa using hother
      · exact utf8_lt (by decide)
      · exact absurd rfl hne
      · exact absurd (by simp [SixBits]) hbits
    obtain ⟨key, hkey, herror⟩ := (ofJson_agrees hv hmembers).1
      fun hgood => hsign (hgood ("+00001", "b") (by simp))
    rw [herror, hkey.unique (fun _ => Iff.rfl) hleast]
  · obtain ⟨v, hv, hmembers⟩ := Members.ofJson_eq_ok_iff_denotes.mp hgood
    exact ((ofJson_agrees hv hmembers).2.2.2 (by simp [SixBits])).1

end Table

end MipsWords
