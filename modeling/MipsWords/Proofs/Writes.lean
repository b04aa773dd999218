import Mathlib
import MipsWords.Mnemonic.Names

/-!
# Maps as written functions

What a map holds is a partial function, and every way to fill a map writes that
function pair by pair, a later pair over an earlier one (`writeAll`). For the
maps of the library this is `getElem?_insertMany`, and the maps of names follow:
an insertion writes at the low six bits of its code, and the entries list what
was written in ascending order.

Codes from 64 on are kept out by each operation for itself, so the bound is a
predicate on maps that all of them keep.
-/

namespace MipsWords

section Keyed

variable {κ α : Type} [DecidableEq κ]

/-- A partial function after each pair is written to it in turn. -/
def writeAll (g : κ → Option α) (pairs : List (κ × α)) : κ → Option α :=
  pairs.foldl (fun g (key, value) => Function.update g key (some value)) g

theorem writeAll_cons (g : κ → Option α) (key : κ) (value : α) (rest : List (κ × α)) :
    writeAll g ((key, value) :: rest) = writeAll (Function.update g key (some value)) rest := rfl

theorem writeAll_of_not_mem {g : κ → Option α} {pairs : List (κ × α)} {key : κ}
    (h : ∀ pair ∈ pairs, pair.1 ≠ key) : writeAll g pairs key = g key := by
  induction pairs generalizing g with
  | nil => rfl
  | cons pair rest ih =>
      have hkey : pair.1 ≠ key := h pair (List.mem_cons_self ..)
      rw [writeAll_cons, ih fun p hp => h p (List.mem_cons_of_mem _ hp),
        Function.update_of_ne (Ne.symm hkey)]

variable [Ord κ] [Std.TransOrd κ] [Std.LawfulEqOrd κ]

theorem getElem?_insert_eq_update (m : Std.ExtTreeMap κ α) (key : κ) (value : α) :
    (fun k => (m.insert key value)[k]?) = Function.update (fun k => m[k]?) key (some value) := by
  funext k
  rw [Std.ExtTreeMap.getElem?_insert, Function.update_apply]
  simp only [Std.LawfulEqCmp.compare_eq_iff_eq, eq_comm (a := k)]

theorem getElem?_insertMany (m : Std.ExtTreeMap κ α) (pairs : List (κ × α)) :
    (fun k => (m.insertMany pairs)[k]?) = writeAll (fun k => m[k]?) pairs := by
  induction pairs generalizing m with
  | nil => rw [Std.ExtTreeMap.insertMany_nil]; rfl
  | cons pair rest ih =>
      rw [Std.ExtTreeMap.insertMany_cons, ih, writeAll_cons, getElem?_insert_eq_update]

theorem getElem?_ofList (pairs : List (κ × α)) :
    (fun k => (Std.ExtTreeMap.ofList pairs)[k]?) = writeAll (fun _ => none) pairs := by
  rw [Std.ExtTreeMap.ofList_eq_insertMany_empty, getElem?_insertMany]
  simp

/-- Writing the pairs of a map gives back what the map holds. -/
theorem writeAll_toList (m : Std.ExtTreeMap κ α) :
    writeAll (fun _ => none) m.toList = fun key => m[key]? := by
  funext key
  cases hm : m[key]? with
  | some value =>
      have hmem := Std.ExtTreeMap.mem_toList_iff_getElem?_eq_some.mpr hm
      rw [← getElem?_ofList]
      exact Std.ExtTreeMap.getElem?_ofList_of_mem Std.ReflCmp.compare_self m.distinct_keys_toList
        hmem
  | none =>
      refine writeAll_of_not_mem fun pair hpair heq => ?_
      have hpair' : m[pair.1]? = some pair.2 :=
        Std.ExtTreeMap.mem_toList_iff_getElem?_eq_some.mp hpair
      rw [heq, hm] at hpair'
      cases hpair'

end Keyed

namespace Names

/-! ## What operations write -/

theorem get?_empty_eq : empty.get? = fun _ => none := funext get?_empty

theorem get?_insert_eq_update (t : Names) (code : Nat) (name : String) :
    (t.insert code name).get? = Function.update t.get? (code % 64) (some name) := by
  funext other
  rw [get?_insert, Function.update_apply]

theorem get?_insertAll (t : Names) (pairs : List (Nat × String)) :
    (t.insertAll pairs).get? =
      writeAll t.get? (pairs.map fun (code, name) => (code % 64, name)) := by
  induction pairs generalizing t with
  | nil => rfl
  | cons pair rest ih =>
      show ((t.insert pair.1 pair.2).insertAll rest).get? = _
      rw [ih, get?_insert_eq_update]
      rfl

theorem get?_ofPairs (pairs : List (Nat × String)) :
    (ofPairs pairs).get? = writeAll (fun _ => none) pairs := getElem?_ofList pairs

/-! ## Entries -/

theorem mem_entries {t : Names} {code : Nat} {name : String} :
    (code, name) ∈ t.entries ↔ t.get? code = some name :=
  Std.ExtTreeMap.mem_toList_iff_getElem?_eq_some

theorem entries_ascending (t : Names) : (t.entries.map (·.1)).Pairwise (· < ·) := by
  rw [List.pairwise_map]
  exact t.map.ordered_keys_toList.imp fun h => Nat.compare_eq_lt.mp h

/-- Two maps list the same entries at some of the codes exactly if they have the same names there. -/
theorem filter_entries_eq_iff {s t : Names} (p : Nat → Bool) :
    s.entries.filter (p ·.1) = t.entries.filter (p ·.1) ↔
      ∀ code, p code = true → s.get? code = t.get? code := by
  have hmem : ∀ (u : Names) code name, (code, name) ∈ u.entries.filter (p ·.1) ↔
      u.get? code = some name ∧ p code = true := by
    intro u code name
    rw [List.mem_filter, mem_entries]
  have hascending : ∀ u : Names, (u.entries.filter (p ·.1)).Pairwise (·.1 < ·.1) :=
    fun u => (List.pairwise_map.mp u.entries_ascending).filter _
  constructor
  · intro h code hcode
    refine Option.ext fun name => ?_
    have hboth := hmem s code name
    rw [h, hmem] at hboth
    simpa [hcode] using hboth.symm
  · intro h
    have : Std.Irrefl fun a b : Nat × String => a.1 < b.1 := ⟨fun a => Nat.lt_irrefl a.1⟩
    have : Std.Antisymm fun a b : Nat × String => a.1 < b.1 :=
      ⟨fun a b hab hba => absurd hab (Nat.lt_asymm hba)⟩
    refine List.Pairwise.eq_of_mem_iff (hascending s) (hascending t) fun entry => ?_
    rw [hmem, hmem]
    exact and_congr_left fun hcode => by rw [h _ hcode]

/-- The size counts the codes that have a name. -/
theorem size_eq_ncard (t : Names) : t.size = {code | (t.get? code).isSome}.ncard := by
  have hnodup : (t.entries.map (·.1)).Nodup := t.entries_ascending.imp Nat.ne_of_lt
  have hcodes : {code | (t.get? code).isSome} = ((t.entries.map (·.1)).toFinset : Set Nat) := by
    ext code
    simp only [Set.mem_ofPred_eq, Option.isSome_iff_exists, List.coe_toFinset, List.mem_map]
    constructor
    · rintro ⟨name, hname⟩
      exact ⟨(code, name), mem_entries.mpr hname, rfl⟩
    · rintro ⟨entry, hentry, rfl⟩
      exact ⟨entry.2, mem_entries.mp hentry⟩
  rw [hcodes, Set.ncard_coe_finset, List.toFinset_card_of_nodup hnodup, List.length_map]
  exact Std.ExtTreeMap.length_toList.symm

theorem isEmpty_iff (t : Names) : t.isEmpty = true ↔ ∀ code, t.get? code = none := by
  constructor
  · intro h code
    rw [isEmpty, Std.ExtTreeMap.isEmpty_iff] at h
    rw [get?, h, Std.ExtTreeMap.getElem?_empty]
  · intro h
    have hempty : t = empty := ext fun code => by rw [h, get?_empty]
    rw [hempty]
    exact Std.ExtTreeMap.isEmpty_empty

/-! ## The bound on codes -/

/-- No code from 64 on has a name. -/
def Bounded (t : Names) : Prop := ∀ code, 64 ≤ code → t.get? code = none

theorem bounded_empty : empty.Bounded := fun code _ => get?_empty code

theorem Bounded.insert {t : Names} (h : t.Bounded) (code : Nat) (name : String) :
    (t.insert code name).Bounded := by
  intro other hother
  have hcode : code % 64 < 64 := Nat.mod_lt code (by decide)
  rw [get?_insert, if_neg (by omega), h other hother]

theorem Bounded.insertAll {t : Names} (h : t.Bounded) (pairs : List (Nat × String)) :
    (t.insertAll pairs).Bounded := by
  induction pairs generalizing t with
  | nil => exact h
  | cons pair rest ih => exact ih (h.insert pair.1 pair.2)

theorem bounded_ofPairs {pairs : List (Nat × String)} (h : ∀ pair ∈ pairs, pair.1 < 64) :
    (ofPairs pairs).Bounded := by
  intro code hcode
  rw [get?_ofPairs]
  refine writeAll_of_not_mem fun pair hpair heq => ?_
  have := h pair hpair
  omega

theorem Bounded.lt_of_mem_entries {t : Names} (h : t.Bounded) {code : Nat} {name : String}
    (hmem : (code, name) ∈ t.entries) : code < 64 := by
  by_contra hge
  rw [mem_entries, h code (Nat.not_lt.mp hge)] at hmem
  cases hmem

theorem Bounded.size_le {t : Names} (h : t.Bounded) : t.size ≤ 64 := by
  rw [size_eq_ncard]
  have hsub : {code | (t.get? code).isSome} ⊆ (Finset.range 64 : Set Nat) := by
    intro code hcode
    obtain ⟨name, hname⟩ := Option.isSome_iff_exists.mp hcode
    exact Finset.mem_coe.mpr (Finset.mem_range.mpr (h.lt_of_mem_entries (mem_entries.mpr hname)))
  have hcard := Set.ncard_le_ncard hsub (Finset.finite_toSet _)
  rwa [Set.ncard_coe_finset, Finset.card_range] at hcard

end Names

end MipsWords
