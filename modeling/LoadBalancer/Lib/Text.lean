/-
  Decimal numbers in texts, and the last separator of a text.
-/
import Mathlib.Algebra.Group.Nat.Defs
import Mathlib.Data.List.Basic

namespace Text

/-- What follows the last `c` of a text is determined by the text. -/
theorem append_cons_inj {α : Type*} {c : α} {xs xs' ys ys' : List α} (hys : c ∉ ys)
    (hys' : c ∉ ys') (h : xs ++ c :: ys = xs' ++ c :: ys') : xs = xs' ∧ ys = ys' := by
  rcases List.append_eq_append_iff.mp h with ⟨zs, rfl, hzs⟩ | ⟨zs, rfl, hzs⟩
  · cases zs with
    | nil => simpa using hzs
    | cons z zs =>
        obtain ⟨-, hzs⟩ := List.cons.inj hzs
        exact absurd (hzs ▸ List.mem_append_right _ List.mem_cons_self) hys
  · cases zs with
    | nil => simpa [eq_comm] using hzs
    | cons z zs =>
        obtain ⟨-, hzs⟩ := List.cons.inj hzs
        exact absurd (hzs ▸ List.mem_append_right _ List.mem_cons_self) hys'

theorem toList_toString (n : Nat) : (toString n).toList = Nat.toDigits 10 n := by
  simp [toString, Nat.repr]

theorem toList_toString_ne_nil (n : Nat) : (toString n).toList ≠ [] := by
  rw [toList_toString]
  exact Nat.toDigits_ne_nil

theorem length_toString_le_iff (n : Nat) {k : Nat} (hk : 0 < k) :
    (toString n).toList.length ≤ k ↔ n < 10 ^ k := by
  rw [toList_toString]
  exact Nat.length_toDigits_le_iff (by decide) hk

theorem isDigit_of_mem {c : Char} {n : Nat} (h : c ∈ (toString n).toList) : c.isDigit = true := by
  rw [toList_toString] at h
  exact Nat.isDigit_of_mem_toDigits (by decide) (by decide) h

theorem not_mem_digits {c : Char} (hc : c.isDigit = false) (n : Nat) :
    c ∉ (toString n).toList := by
  intro hmem
  rw [isDigit_of_mem hmem] at hc
  cases hc

theorem toString_injective {m n : Nat} (h : (toString m).toList = (toString n).toList) :
    m = n := by
  rw [toList_toString, toList_toString] at h
  calc m = Nat.ofDigitChars 10 (Nat.toDigits 10 m) 0 := Nat.ofDigitChars_ten_toDigits.symm
    _ = Nat.ofDigitChars 10 (Nat.toDigits 10 n) 0 := by rw [h]
    _ = n := Nat.ofDigitChars_ten_toDigits

end Text
