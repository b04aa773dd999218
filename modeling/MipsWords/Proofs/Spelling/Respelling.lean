import MipsWords.Proofs.Spelling.Records

/-!
# One record in many spellings

A record can be written with its keys in any order, as an object or as an array,
and without the parts that say what holds anyway. What is asked of a record is
asked of its parts one by one (`Meets`), and none of these changes makes a
difference to that: they leave each part as it is, but for the one part that is
left out or spelled differently.
-/

namespace MipsWords.Json

/-! ## Parts -/

theorem mem_given {keys : List String} {v part : Value} {key : String} :
    (key, part) ∈ v.given keys ↔ key ∈ keys ∧ v.part? keys key = some part := by
  rw [Value.given, List.mem_filterMap]
  constructor
  · rintro ⟨other, hother, hpart⟩
    obtain ⟨_, hv, heq⟩ := Option.map_eq_some_iff.mp hpart
    cases heq
    exact ⟨hother, hv⟩
  · rintro ⟨hkey, hpart⟩
    exact ⟨key, hkey, by rw [hpart]; rfl⟩

theorem part?_cons_self {keys : List String} {key : String} {v : Value}
    {members : List (String × Value)} :
    (Value.object ((key, v) :: members)).part? keys key = some v := by
  rw [Value.part?, List.find?_cons_of_pos (by simp)]
  rfl

theorem part?_cons_of_ne {keys : List String} {key other : String} {v : Value}
    {members : List (String × Value)} (h : other ≠ key) :
    (Value.object ((key, v) :: members)).part? keys other =
      (Value.object members).part? keys other := by
  rw [Value.part?, List.find?_cons_of_neg (by simpa using h.symm)]
  rfl

theorem part?_of_not_mem {keys : List String} {key : String} {members : List (String × Value)}
    (h : key ∉ members.map (·.1)) : (Value.object members).part? keys key = none := by
  rw [Value.part?, List.find?_eq_none.mpr]
  · rfl
  · intro member hmember heq
    exact h (List.mem_map.mpr ⟨member, hmember, by simpa using heq⟩)

theorem part?_perm {keys : List String} {members members' : List (String × Value)}
    (hperm : members.Perm members') (hnodup : (members.map (·.1)).Nodup) (key : String) :
    (Value.object members).part? keys key = (Value.object members').part? keys key := by
  have hnodup' := (hperm.map (·.1)).nodup_iff.mp hnodup
  ext v
  rw [part?_object_eq_some hnodup, part?_object_eq_some hnodup', hperm.mem_iff]

theorem isRecord_zip {keys : List String} (hkeys : keys.Nodup) (items : List Value) :
    (Value.object (keys.zip items)).IsRecord keys := by
  constructor
  · rw [List.zip_eq_zip_take_min, List.map_fst_zip (by simp)]
    exact hkeys.sublist (List.take_sublist ..)
  · exact fun member hmember => (List.of_mem_zip hmember).1

/-- The place of a key in an array is its place among the declared keys. -/
theorem part?_array {keys : List String} (hkeys : keys.Nodup) {items : List Value} {key : String}
    (hkey : key ∈ keys) :
    (Value.array items).part? keys key = (Value.object (keys.zip items)).part? keys key := by
  ext v
  rw [part?_object_eq_some (isRecord_zip hkeys items).1, ← given_array hkeys, mem_given]
  exact (and_iff_right hkey).symm

/-! ## Respellings -/

/-- One change to the spelling of a record: its keys in another order, an object in place of an
array, a part left out that says the default, or another spelling of a part. -/
inductive Respelled (keys : List String) (isDefault : String → Value → Prop)
    (part : String → Value → Value → Prop) : Value → Value → Prop where
  | order {members members' : List (String × Value)} : members.Perm members' →
      Respelled keys isDefault part (.object members) (.object members')
  | array {items : List Value} : items.length ≤ keys.length →
      Respelled keys isDefault part (.array items) (.object (keys.zip items))
  | omitted {key : String} {v : Value} {members : List (String × Value)} : key ∈ keys →
      key ∉ members.map (·.1) → isDefault key v →
      Respelled keys isDefault part (.object ((key, v) :: members)) (.object members)
  | part {key : String} {v v' : Value} {members : List (String × Value)} : part key v v' →
      Respelled keys isDefault part (.object ((key, v) :: members)) (.object ((key, v') :: members))

/-- What is asked of the parts of a record, each by its key, given or not. -/
def Meets (keys : List String) (asks : String → Option Value → Prop) (v : Value) : Prop :=
  v.IsRecord keys ∧ ∀ key ∈ keys, asks key (v.part? keys key)

variable {keys : List String} {asks : String → Option Value → Prop}

theorem Meets.perm {members members' : List (String × Value)} (hperm : members.Perm members')
    (h : Meets keys asks (.object members)) : Meets keys asks (.object members') := by
  obtain ⟨⟨hnodup, hdeclared⟩, hparts⟩ := h
  refine ⟨⟨(hperm.map _).nodup_iff.mp hnodup, fun member hmember => ?_⟩, fun key hkey => ?_⟩
  · exact hdeclared member (hperm.mem_iff.mpr hmember)
  · rw [← part?_perm hperm hnodup]
    exact hparts key hkey

theorem meets_array (hkeys : keys.Nodup) {items : List Value} (hlength : items.length ≤ keys.length) :
    Meets keys asks (.array items) ↔ Meets keys asks (.object (keys.zip items)) := by
  have hparts (key : String) (hkey : key ∈ keys) :
      (Value.array items).part? keys key = (Value.object (keys.zip items)).part? keys key :=
    part?_array hkeys hkey
  constructor
  · rintro ⟨-, h⟩
    exact ⟨isRecord_zip hkeys items, fun key hkey => hparts key hkey ▸ h key hkey⟩
  · rintro ⟨-, h⟩
    exact ⟨hlength, fun key hkey => (hparts key hkey).symm ▸ h key hkey⟩

theorem isRecord_cons {key : String} {v : Value} {members : List (String × Value)} :
    (Value.object ((key, v) :: members)).IsRecord keys ↔
      key ∉ members.map (·.1) ∧ key ∈ keys ∧ (Value.object members).IsRecord keys := by
  simp only [Value.IsRecord, List.map_cons, List.nodup_cons, List.forall_mem_cons]
  constructor
  · rintro ⟨⟨hfresh, hnodup⟩, hkey, hall⟩
    exact ⟨hfresh, hkey, hnodup, hall⟩
  · rintro ⟨hfresh, hkey, hnodup, hall⟩
    exact ⟨⟨hfresh, hnodup⟩, hkey, hall⟩

/-- Behind a first member, the others are asked what they would be asked without it. -/
theorem meets_cons {key : String} {v : Value} {members : List (String × Value)} :
    Meets keys asks (.object ((key, v) :: members)) ↔
      key ∉ members.map (·.1) ∧ key ∈ keys ∧ asks key (some v) ∧
        (Value.object members).IsRecord keys ∧
        ∀ other ∈ keys, other ≠ key → asks other ((Value.object members).part? keys other) := by
  constructor
  · rintro ⟨hrecord, hparts⟩
    obtain ⟨hfresh, hkey, hrest⟩ := isRecord_cons.mp hrecord
    refine ⟨hfresh, hkey, part?_cons_self ▸ hparts key hkey, hrest, fun other hother hne => ?_⟩
    exact part?_cons_of_ne hne ▸ hparts other hother
  · rintro ⟨hfresh, hkey, hv, hrest, hothers⟩
    refine ⟨isRecord_cons.mpr ⟨hfresh, hkey, hrest⟩, fun other hother => ?_⟩
    by_cases hne : other = key
    · rw [hne, part?_cons_self]
      exact hv
    · rw [part?_cons_of_ne hne]
      exact hothers other hother hne

theorem meets_iff_of_not_mem {key : String} {members : List (String × Value)} (hkey : key ∈ keys)
    (hfresh : key ∉ members.map (·.1)) :
    Meets keys asks (.object members) ↔
      asks key none ∧ (Value.object members).IsRecord keys ∧
        ∀ other ∈ keys, other ≠ key → asks other ((Value.object members).part? keys other) := by
  constructor
  · rintro ⟨hrecord, hparts⟩
    exact ⟨part?_of_not_mem hfresh ▸ hparts key hkey, hrecord, fun other hother _ =>
      hparts other hother⟩
  · rintro ⟨hnone, hrecord, hothers⟩
    refine ⟨hrecord, fun other hother => ?_⟩
    by_cases hne : other = key
    · rw [hne, part?_of_not_mem hfresh]
      exact hnone
    · exact hothers other hother hne

/-- Respelling a record makes no difference to what is asked of its parts, if leaving out a default
and respelling a part make none. -/
theorem Respelled.meets_iff (hkeys : keys.Nodup) {isDefault : String → Value → Prop}
    {part : String → Value → Value → Prop} {v v' : Value}
    (hdefault : ∀ key v, isDefault key v → (asks key (some v) ↔ asks key none))
    (hpart : ∀ key v v', part key v v' → (asks key (some v) ↔ asks key (some v')))
    (h : Respelled keys isDefault part v v') : Meets keys asks v ↔ Meets keys asks v' := by
  cases h with
  | order hperm => exact ⟨.perm hperm, .perm hperm.symm⟩
  | array hlength => exact meets_array hkeys hlength
  | @omitted key v members hkey hfresh hv =>
      rw [meets_cons, meets_iff_of_not_mem hkey hfresh, hdefault key v hv]
      exact ⟨fun ⟨_, _, h⟩ => h, fun h => ⟨hfresh, hkey, h⟩⟩
  | @part key v v' members hv => rw [meets_cons, meets_cons, hpart key v v' hv]

end MipsWords.Json
