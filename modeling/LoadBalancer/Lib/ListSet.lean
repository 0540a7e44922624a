/-
  Replacing or erasing one element of a list.
-/
import Mathlib.Algebra.BigOperators.Group.List.Basic
import Mathlib.Algebra.GroupWithZero.Nat
import Mathlib.Data.List.Nodup
import Mathlib.Data.List.Pairwise

namespace List

variable {α : Type*}

theorem getElem?_set_eq_some {l : List α} {i j : Nat} {old new x : α} (hi : l[i]? = some old) :
    (l.set i new)[j]? = some x ↔ (i = j ∧ new = x) ∨ (i ≠ j ∧ l[j]? = some x) := by
  by_cases hij : i = j
  · subst hij
    obtain ⟨hlt, -⟩ := getElem?_eq_some_iff.mp hi
    rw [getElem?_set_self hlt]
    simp
  · rw [getElem?_set_ne hij]
    simp [hij]

/-- Where the old element does not meet `P`, replacing it adds what the new one brings. -/
theorem exists_mem_set {l : List α} {i : Nat} {old new : α} {P : α → Prop}
    (hi : l[i]? = some old) (hold : ¬ P old) :
    (∃ x ∈ l.set i new, P x) ↔ P new ∨ ∃ x ∈ l, P x := by
  constructor
  · intro hex
    obtain ⟨x, hx, hP⟩ := hex
    rcases mem_or_eq_of_mem_set hx with hx | rfl
    · exact Or.inr ⟨x, hx, hP⟩
    · exact Or.inl hP
  · intro hor
    rcases hor with hP | ⟨x, hx, hP⟩
    · obtain ⟨hlt, -⟩ := getElem?_eq_some_iff.mp hi
      exact ⟨new, mem_set hlt new, hP⟩
    · obtain ⟨j, hj⟩ := mem_iff_getElem?.mp hx
      have hne : i ≠ j := by
        intro heq
        subst heq
        rw [hi] at hj
        exact hold (Option.some.inj hj ▸ hP)
      have hset : (l.set i new)[j]? = some x := by rw [getElem?_set_ne hne, hj]
      exact ⟨x, mem_iff_getElem?.mpr ⟨j, hset⟩, hP⟩

/-- Replacing an element by one that meets `P` alike. -/
theorem exists_mem_set_congr {l : List α} {i : Nat} {old new : α} {P : α → Prop}
    (hi : l[i]? = some old) (h : P new ↔ P old) :
    (∃ x ∈ l.set i new, P x) ↔ ∃ x ∈ l, P x := by
  by_cases hold : P old
  · obtain ⟨hlt, -⟩ := getElem?_eq_some_iff.mp hi
    exact iff_of_true ⟨new, mem_set hlt new, h.mpr hold⟩ ⟨old, mem_of_getElem? hi, hold⟩
  · rw [exists_mem_set hi hold, h]
    exact or_iff_right hold

/-- A sum changes by the difference of the replaced terms. -/
theorem sum_map_set {l : List α} {i : Nat} {old new : α} (f : α → Nat)
    (hi : l[i]? = some old) :
    ((l.set i new).map f).sum + f old = (l.map f).sum + f new := by
  induction l generalizing i with
  | nil => cases hi
  | cons x xs ih =>
      cases i with
      | zero =>
          obtain rfl : x = old := Option.some.inj hi
          simp only [set_cons_zero, map_cons, sum_cons]
          omega
      | succ i =>
          have htail := ih hi
          simp only [set_cons_succ, map_cons, sum_cons]
          omega

/-- What the new element adds to the old one's share is added to the whole. -/
theorem flatMap_set_perm {β : Type*} [DecidableEq β] {l : List α} {i : Nat} {old new : α}
    {f : α → List β} {xs : List β} (hi : l[i]? = some old) (h : f new = f old ++ xs) :
    ((l.set i new).flatMap f).Perm (l.flatMap f ++ xs) := by
  rw [perm_iff_count]
  intro b
  have hsum : ((l.set i new).map fun a => (f a).count b).sum + (f old).count b =
      (l.map fun a => (f a).count b).sum + (f new).count b := sum_map_set _ hi
  rw [h, count_append] at hsum
  rw [count_append, count_flatMap, count_flatMap]
  simp only [Function.comp_def]
  omega

/-- Where the shares are disjoint, what is in two of them is in one. -/
theorem eq_of_nodup_flatMap {β : Type*} {l : List α} {f : α → List β} (h : (l.flatMap f).Nodup)
    {x y : α} (hx : x ∈ l) (hy : y ∈ l) {p : β} (hxp : p ∈ f x) (hyp : p ∈ f y) : x = y := by
  by_contra hne
  have hsymm : Std.Symm (Function.onFun Disjoint f) := ⟨fun _ _ hxy _ ha hb => hxy hb ha⟩
  exact (nodup_flatMap.mp h).2.forall hx hy hne hxp hyp

theorem eraseIdx_modify_self (l : List α) (i : Nat) (f : α → α) :
    (l.modify i f).eraseIdx i = l.eraseIdx i := by
  apply ext_getElem?
  intro j
  rw [getElem?_eraseIdx, getElem?_eraseIdx, getElem?_modify, getElem?_modify]
  by_cases hj : j < i
  · simp [hj, Nat.ne_of_gt hj]
  · have hne : i ≠ j + 1 := by omega
    simp [hj, hne]

/-- With one element per key, erasing the first element of a key erases all of them. -/
theorem eraseIdx_findIdx?_key {β : Type*} [DecidableEq β] {key : α → β} {l : List α}
    (hnd : (l.map key).Nodup) {b : β} {i : Nat} (hi : l.findIdx? (fun a => key a == b) = some i) :
    l.eraseIdx i = l.filter fun a => key a ≠ b := by
  induction l generalizing i with
  | nil => simp at hi
  | cons x xs ih =>
      obtain ⟨hx, hnd⟩ := nodup_cons.mp (map_cons ▸ hnd)
      rw [findIdx?_cons] at hi
      by_cases hkey : key x = b
      · obtain rfl : 0 = i := by simpa [hkey] using hi
        subst hkey
        rw [eraseIdx_cons_zero, filter_cons_of_neg (by simp)]
        refine (filter_eq_self.mpr fun a ha => ?_).symm
        have hne : key a ≠ key x := fun heq => hx (heq ▸ mem_map_of_mem ha)
        simpa using hne
      · obtain ⟨j, hj, rfl⟩ : ∃ j, xs.findIdx? (fun a => key a == b) = some j ∧ j + 1 = i := by
          simpa [hkey] using hi
        rw [eraseIdx_cons_succ, filter_cons_of_pos (by simpa using hkey), ih hnd hj]

end List
