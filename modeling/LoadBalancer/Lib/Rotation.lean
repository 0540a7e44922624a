/-
  Walking around a circle of `n` positions.

  `visits n i m` lists the positions of `m` steps from position `i`. Any `n` consecutive steps
  visit every position once (`perm_visits`), and any `m` steps visit each one `m / n` times,
  rounded down or up (`count_visits`). The start `i` may lie past the end of the circle.

  `find?_rotate` says where, in the list of the elements that meet a test, the next such
  element stands from a given place on. Where elements have weights, the circle holds each one
  as often as its weight says (`List.weighted`); a place on it is an element and the number of
  its copies that were passed (`List.slot`). Of the steps around a list, each element gets its
  share (`count_map_visits`).
-/
import Mathlib.Algebra.Order.Floor.Div
import Mathlib.Data.List.Rotate
import Mathlib.GroupTheory.GroupAction.Ring

/-- The positions at steps `i` to `i + m - 1` around a circle of `n` positions. -/
def visits (n i m : Nat) : List Nat := (List.range m).map fun k => (i + k) % n

@[simp] theorem length_visits (n i m : Nat) : (visits n i m).length = m := by
  simp [visits]

@[simp] theorem visits_zero (n i : Nat) : visits n i 0 = [] := rfl

theorem visits_succ (n i m : Nat) : visits n i (m + 1) = i % n :: visits n (i + 1) m := by
  unfold visits
  rw [List.range_succ_eq_map, List.map_cons, List.map_map, Nat.add_zero]
  refine congrArg (i % n :: ·) (List.map_congr_left fun k _ => ?_)
  rw [Function.comp_apply, Nat.succ_eq_add_one, Nat.add_assoc, Nat.add_comm 1]

theorem visits_add (n i m k : Nat) :
    visits n i (m + k) = visits n i m ++ visits n (i + m) k := by
  unfold visits
  rw [List.range_add, List.map_append, List.map_map]
  refine congrArg (_ ++ ·) (List.map_congr_left fun j _ => ?_)
  rw [Function.comp_apply, Nat.add_assoc]

theorem visits_mod (n i m : Nat) : visits n (i % n) m = visits n i m := by
  unfold visits
  refine List.map_congr_left fun k _ => ?_
  rw [Nat.mod_add_mod]

theorem lt_of_mem_visits {n i m j : Nat} (hn : 0 < n) (h : j ∈ visits n i m) : j < n := by
  obtain ⟨k, -, rfl⟩ := List.mem_map.mp h
  exact Nat.mod_lt _ hn

theorem visits_eq_rotate (n i : Nat) : visits n i n = (List.range n).rotate i := by
  apply List.ext_getElem?
  intro k
  by_cases hk : k < n
  · have hmod : (k + i) % n < n := Nat.mod_lt _ (by omega)
    rw [List.getElem?_rotate (by simpa using hk), List.length_range, List.getElem?_range hmod]
    simp [visits, hk, Nat.add_comm]
  · rw [List.getElem?_eq_none (by simpa using hk), List.getElem?_eq_none (by simpa using hk)]

/-- Any `n` consecutive steps visit every position once. -/
theorem perm_visits (n i : Nat) : (visits n i n).Perm (List.range n) := by
  rw [visits_eq_rotate]
  exact List.rotate_perm _ _

/-- Fewer than `n` steps visit no position twice. -/
theorem nodup_visits {n m : Nat} (hm : m ≤ n) (i : Nat) : (visits n i m).Nodup := by
  have hfull : (visits n i n).Nodup := (perm_visits n i).nodup_iff.mpr List.nodup_range
  have hsplit : visits n i n = visits n i m ++ visits n (i + m) (n - m) := by
    rw [← visits_add, Nat.add_sub_cancel' hm]
  rw [hsplit] at hfull
  exact (List.nodup_append.mp hfull).1

/-- Any `m` steps visit each position `m / n` times, rounded down or up. -/
theorem count_visits {n j : Nat} (hj : j < n) (i m : Nat) :
    (visits n i m).count j = m / n ∨ (visits n i m).count j = m ⌈/⌉ n := by
  rw [Nat.ceilDiv_eq_add_pred_div]
  induction m using Nat.strong_induction_on generalizing i with
  | _ m ih =>
      by_cases hm : m < n
      · -- the round is not complete: the position is visited once at most
        have hfloor : m / n = 0 := Nat.div_eq_of_lt hm
        rcases Nat.eq_zero_or_pos m with rfl | hpos
        · exact Or.inl (by simp)
        · have hceil : (m + n - 1) / n = 1 := by
            rw [show m + n - 1 = (m - 1) + n by omega, Nat.add_div_right _ (by omega),
              Nat.div_eq_of_lt (by omega)]
          have hle : (visits n i m).count j ≤ 1 :=
            List.nodup_iff_count_le_one.mp (nodup_visits (by omega) i) j
          omega
      · -- one full round, and the rest
        have hround : (visits n i n).count j = 1 := by
          rw [(perm_visits n i).count_eq, List.count_eq_one_of_mem List.nodup_range
            (List.mem_range.mpr hj)]
        have hfloor : m / n = (m - n) / n + 1 := by
          rw [← Nat.add_div_right _ (by omega), Nat.sub_add_cancel (by omega)]
        have hceil : (m + n - 1) / n = (m - n + n - 1) / n + 1 := by
          rw [← Nat.add_div_right _ (by omega)]
          congr 1
          omega
        have hsplit : visits n i m = visits n i n ++ visits n (i + n) (m - n) := by
          rw [← visits_add, Nat.add_sub_cancel' (by omega)]
        rw [hsplit, List.count_append, hround, hfloor, hceil]
        have hrest := ih (m - n) (by omega) (i + n)
        omega

/-! ## The next element that meets a test -/

namespace List

variable {α : Type*}

/-- From place `i` on, and around, the next element that meets `q` is, in the list of all that
    do, the one after those before place `i`. -/
theorem find?_rotate {l : List α} {q : α → Bool} {i : Nat} (hi : i ≤ l.length) :
    (l.rotate i).find? q = (l.filter q)[((l.take i).filter q).length % (l.filter q).length]? := by
  have hsplit : l.filter q = (l.take i).filter q ++ (l.drop i).filter q := by
    rw [← filter_append, take_append_drop]
  rw [rotate_eq_drop_append_take hi, ← head?_filter, filter_append, hsplit, length_append]
  cases hdrop : (l.drop i).filter q with
  | nil =>
      rw [nil_append, append_nil, length_nil, Nat.add_zero, Nat.mod_self]
      exact head?_eq_getElem?
  | cons x xs =>
      rw [Nat.mod_eq_of_lt (by simp), getElem?_append_right (Nat.le_refl _)]
      simp

/-- The place of an element in the list of those that meet a test. -/
theorem length_filter_take_idxOf [DecidableEq α] {l : List α} (hnd : l.Nodup) {q : α → Bool}
    {j : Nat} {b : α} (hj : (l.filter q)[j]? = some b) :
    ((l.take (l.idxOf b + 1)).filter q).length = j + 1 := by
  induction l generalizing j with
  | nil => simp at hj
  | cons x xs ih =>
      obtain ⟨hx, hnd⟩ := nodup_cons.mp hnd
      -- an element of the tail is not the head
      have htail : b ∈ xs → (x :: xs).idxOf b = xs.idxOf b + 1 := by
        intro hb
        rw [idxOf_cons_ne]
        exact fun heq => hx (heq ▸ hb)
      by_cases hq : q x = true
      · rw [filter_cons_of_pos hq] at hj
        cases j with
        | zero =>
            obtain rfl : x = b := by simpa using hj
            simp [hq]
        | succ j =>
            rw [getElem?_cons_succ] at hj
            rw [htail (mem_of_mem_filter (mem_of_getElem? hj)), take_succ_cons,
              filter_cons_of_pos hq, length_cons, ih hnd hj]
      · rw [filter_cons_of_neg hq] at hj
        rw [htail (mem_of_mem_filter (mem_of_getElem? hj)), take_succ_cons,
          filter_cons_of_neg hq, ih hnd hj]

end List

/-! ## Circles whose elements have weights -/

namespace List

variable {α : Type*}

/-- Each element as often as its weight says. -/
def weighted (w : α → Nat) (l : List α) : List α := l.flatMap fun a => replicate (w a) a

/-- The place of the `k`-th copy of the `c`-th element. -/
def slot (w : α → Nat) (l : List α) (c k : Nat) : Nat := ((l.take c).map w).sum + k

variable {w : α → Nat}

@[simp] theorem length_weighted (l : List α) : (l.weighted w).length = (l.map w).sum := by
  simp [weighted, length_flatMap]

@[simp] theorem slot_zero (l : List α) : l.slot w 0 0 = 0 := rfl

theorem getElem?_weighted {l : List α} {c k : Nat} {a : α} (ha : l[c]? = some a) (hk : k < w a) :
    (l.weighted w)[l.slot w c k]? = some a := by
  induction l generalizing c with
  | nil => simp at ha
  | cons x xs ih =>
      unfold weighted
      rw [flatMap_cons]
      cases c with
      | zero =>
          obtain rfl : x = a := by simpa using ha
          rw [getElem?_append_left (by simpa [slot] using hk)]
          simp [slot, hk]
      | succ c =>
          have hslot : (x :: xs).slot w (c + 1) k = w x + xs.slot w c k := by
            simp [slot, Nat.add_assoc]
          rw [getElem?_cons_succ] at ha
          rw [hslot, getElem?_append_right (by simp), length_replicate, Nat.add_sub_cancel_left]
          exact ih ha

/-- Behind the last copy of an element stands the first copy of the next one, around. -/
theorem slot_next {l : List α} (hw : ∀ a ∈ l, 0 < w a) {c : Nat} {a : α} (ha : l[c]? = some a) :
    l.slot w ((c + 1) % l.length) 0 = (l.slot w c (w a)) % (l.map w).sum := by
  obtain ⟨hc, rfl⟩ := getElem?_eq_some_iff.mp ha
  have hfull : l.slot w c (w l[c]) = ((l.take (c + 1)).map w).sum := by
    rw [take_succ_eq_append_getElem hc, map_append, sum_append]
    simp [slot]
  rw [hfull]
  by_cases hlast : c + 1 = l.length
  · rw [hlast, Nat.mod_self, take_length, Nat.mod_self, slot_zero]
  · have hnext : c + 1 < l.length := by omega
    have hlt : ((l.take (c + 1)).map w).sum < (l.map w).sum := by
      have hpos := hw l[c + 1] (getElem_mem hnext)
      have hsplit : (l.map w).sum =
          ((l.take (c + 1)).map w).sum + (w l[c + 1] + ((l.drop (c + 2)).map w).sum) := by
        rw [← sum_cons, ← map_cons, ← drop_eq_getElem_cons hnext, ← sum_append, ← map_append,
          take_append_drop]
      omega
    rw [Nat.mod_eq_of_lt hnext, Nat.mod_eq_of_lt hlt]
    rfl

/-- With one element per key, each key occurs as often as its element's weight says. -/
theorem count_map_weighted {β : Type*} [DecidableEq β] {key : α → β} {l : List α}
    (hnd : (l.map key).Nodup) {a : α} (ha : a ∈ l) : ((l.weighted w).map key).count (key a) = w a := by
  induction l with
  | nil => simp at ha
  | cons x xs ih =>
      obtain ⟨hx, hnd⟩ := nodup_cons.mp (map_cons ▸ hnd)
      unfold weighted
      rw [flatMap_cons, map_append, count_append, map_replicate, count_replicate]
      rcases mem_cons.mp ha with rfl | ha
      · have hnone : ((xs.weighted w).map key).count (key a) = 0 := by
          rw [count_eq_zero]
          intro hmem
          obtain ⟨y, hy, heq⟩ := mem_map.mp hmem
          obtain ⟨z, hz, hyz⟩ := mem_flatMap.mp hy
          obtain rfl := (mem_replicate.mp hyz).2
          exact hx (heq ▸ mem_map_of_mem hz)
        unfold weighted at hnone
        rw [if_pos (by simp), hnone, Nat.add_zero]
      · have hne : key x ≠ key a := fun heq => hx (heq ▸ mem_map_of_mem ha)
        rw [if_neg (by simpa using hne), Nat.zero_add]
        exact ih hnd ha

end List

/-- Once around a circle from any place: the elements in their order, from that place. -/
theorem map_visits_length {α β : Type*} (l : List α) (i : Nat) (f : Option α → β) :
    (visits l.length i l.length).map (fun j => f l[j]?) = (l.rotate i).map fun a => f (some a) := by
  have hrange : (List.range l.length).map (fun j => f l[j]?) = l.map fun a => f (some a) := by
    apply List.ext_getElem (by simp)
    intro j hj _
    have hj : j < l.length := by simpa using hj
    simp [hj]
  rw [visits_eq_rotate, List.map_rotate, hrange, List.map_rotate]

/-- Any `m` steps around a circle meet an element at least as often as it stands on the circle
    for each full round, and at most so for each round begun. -/
theorem count_map_visits {α : Type*} [DecidableEq α] (l : List α) (a : α) (i m : Nat) :
    l.count a * (m / l.length) ≤ ((visits l.length i m).map fun j => l[j]?).count (some a) ∧
      ((visits l.length i m).map fun j => l[j]?).count (some a) ≤
        l.count a * (m ⌈/⌉ l.length) := by
  have hround : ∀ i, ((visits l.length i l.length).map fun j => l[j]?).count (some a) =
      l.count a := by
    intro i
    have hrotate : (visits l.length i l.length).map (fun j => l[j]?) = (l.rotate i).map some :=
      map_visits_length l i id
    rw [hrotate, List.count_map_of_injective _ _ (Option.some_injective _),
      (List.rotate_perm l i).count_eq]
  rw [Nat.ceilDiv_eq_add_pred_div]
  rcases Nat.eq_zero_or_pos l.length with hzero | hpos
  · obtain rfl := List.length_eq_zero_iff.mp hzero
    simp [List.count_replicate]
  induction m using Nat.strong_induction_on generalizing i with
  | _ m ih =>
      by_cases hm : m < l.length
      · -- the round is not complete
        have hfull := hround i
        have hsplit : visits l.length i l.length =
            visits l.length i m ++ visits l.length (i + m) (l.length - m) := by
          rw [← visits_add, Nat.add_sub_cancel' (by omega)]
        rw [hsplit, List.map_append, List.count_append] at hfull
        rw [Nat.div_eq_of_lt hm, Nat.mul_zero]
        refine ⟨Nat.zero_le _, ?_⟩
        rcases Nat.eq_zero_or_pos m with rfl | hmpos
        · simp
        · have hceil : (m + l.length - 1) / l.length = 1 := by
            rw [show m + l.length - 1 = (m - 1) + l.length by omega, Nat.add_div_right _ hpos,
              Nat.div_eq_of_lt (by omega)]
          rw [hceil, Nat.mul_one]
          omega
      · -- one full round, and the rest
        have hfloor : m / l.length = (m - l.length) / l.length + 1 := by
          rw [← Nat.add_div_right _ hpos, Nat.sub_add_cancel (by omega)]
        have hceil : (m + l.length - 1) / l.length =
            (m - l.length + l.length - 1) / l.length + 1 := by
          rw [← Nat.add_div_right _ hpos]
          congr 1
          omega
        have hsplit : visits l.length i m =
            visits l.length i l.length ++ visits l.length (i + l.length) (m - l.length) := by
          rw [← visits_add, Nat.add_sub_cancel' (by omega)]
        obtain ⟨hlow, hhigh⟩ := ih (m - l.length) (by omega) (i + l.length)
        rw [hsplit, List.map_append, List.count_append, hround, hfloor, hceil, Nat.mul_succ,
          Nat.mul_succ]
        omega
