import Mathlib

/-!
# Facts about tree maps

What the extensional tree maps of the standard library lack: membership as the existence of an entry, the erasure of
an absent key, and the entries of a map as a list.
-/

namespace Lib

open Std

variable {α β : Type} [Ord α] [TransOrd α] {m : ExtTreeMap α β} {a k : α} {v : β}

theorem mem_iff_exists : a ∈ m ↔ ∃ v, m[a]? = some v := by
  rw [ExtTreeMap.mem_iff_isSome_getElem?, Option.isSome_iff_exists]

theorem mem_of_getElem? (h : m[a]? = some v) : a ∈ m := mem_iff_exists.mpr ⟨v, h⟩

theorem getElem?_eq_none_of_notMem (h : a ∉ m) : m[a]? = none := by
  rw [ExtTreeMap.mem_iff_isSome_getElem?] at h
  simpa using h

variable [LawfulEqOrd α]

theorem getElem?_insert_iff [DecidableEq α] : (m.insert k v)[a]? = if a = k then some v else m[a]? := by
  rw [ExtTreeMap.getElem?_insert]
  by_cases h : a = k
  · subst h; simp
  · simp [h, Ne.symm h]

theorem getElem?_erase_iff [DecidableEq α] : (m.erase k)[a]? = if a = k then none else m[a]? := by
  rw [ExtTreeMap.getElem?_erase]
  by_cases h : a = k
  · subst h; simp
  · simp [h, Ne.symm h]

theorem mem_erase_iff : a ∈ m.erase k ↔ a ≠ k ∧ a ∈ m := by
  rw [ExtTreeMap.mem_erase, Ne, Std.compare_eq_iff_eq, eq_comm]

theorem erase_of_notMem (h : k ∉ m) : m.erase k = m := by
  classical
  refine ExtTreeMap.ext_getElem? fun a => ?_
  rw [getElem?_erase_iff]
  split
  · next ha => subst ha; rw [getElem?_eq_none_of_notMem h]
  · rfl

/-- The entries of a map, inserted one after the other, make up the map. -/
theorem foldl_insert_toList (m : ExtTreeMap α β) :
    m.toList.foldl (fun (t : ExtTreeMap α β) e => t.insert e.1 e.2) ∅ = m := by
  classical
  refine ExtTreeMap.ext_getElem? fun a => ?_
  rw [← ExtTreeMap.insertMany_list_eq_foldl]
  cases h : m[a]? with
  | some v =>
    refine ExtTreeMap.getElem?_insertMany_list_of_mem (Std.compare_eq_iff_eq.mpr rfl) ?_ ?_ (k := a)
    · exact ExtTreeMap.distinct_keys_toList
    · exact ExtTreeMap.mem_toList_iff_getElem?_eq_some.mpr h
  | none =>
    rw [ExtTreeMap.getElem?_insertMany_list_of_contains_eq_false]
    · simp
    · rw [ExtTreeMap.map_fst_toList_eq_keys, ExtTreeMap.contains_keys]
      rw [← ExtTreeMap.isSome_getElem?_eq_contains, h]
      rfl

theorem insert_insert_self : (m.insert k v).insert k v = m.insert k v := by
  classical
  refine ExtTreeMap.ext_getElem? fun a => ?_
  simp only [getElem?_insert_iff]
  split <;> rfl

end Lib
