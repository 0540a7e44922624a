/-
  The first of some keys, counting up from a given key and wrapping around.

  `CyclicLeast P k p` says that `p` is the least key at or above `k` that meets `P`, or the
  least of all that meet `P` when they all lie below `k`. There is one at most, and it stays
  the first among fewer keys as long as it is one of them: taking keys away moves nothing
  but the points that lead to them.
-/
import Mathlib.Order.Lattice

section

variable {K : Type*} [LinearOrder K]

/-- Of the keys that meet `P`, the first one from `k` on, around the circle. -/
def CyclicLeast (P : K → Prop) (k p : K) : Prop :=
  P p ∧ ((k ≤ p ∧ ∀ q, P q → k ≤ q → p ≤ q) ∨ (∀ q, P q → q < k) ∧ ∀ q, P q → p ≤ q)

namespace CyclicLeast

theorem unique {P : K → Prop} {k p q : K} (hp : CyclicLeast P k p) (hq : CyclicLeast P k q) :
    p = q := by
  obtain ⟨hPp, hp⟩ := hp
  obtain ⟨hPq, hq⟩ := hq
  rcases hp with ⟨hkp, hp⟩ | ⟨hbelow, hp⟩
  · rcases hq with ⟨hkq, hq⟩ | ⟨hbelow, -⟩
    · exact le_antisymm (hp q hPq hkq) (hq p hPp hkp)
    · exact absurd (hbelow p hPp) (not_lt.mpr hkp)
  · rcases hq with ⟨hkq, -⟩ | ⟨-, hq⟩
    · exact absurd (hbelow q hPq) (not_lt.mpr hkq)
    · exact le_antisymm (hp q hPq) (hq p hPp)

/-- Among fewer keys the first one stays the first, if it is still there. -/
theorem anti {P Q : K → Prop} {k p : K} (h : CyclicLeast P k p) (hsub : ∀ q, Q q → P q)
    (hp : Q p) : CyclicLeast Q k p := by
  obtain ⟨-, h⟩ := h
  refine ⟨hp, ?_⟩
  rcases h with ⟨hkp, h⟩ | ⟨hbelow, h⟩
  · exact Or.inl ⟨hkp, fun q hq => h q (hsub q hq)⟩
  · exact Or.inr ⟨fun q hq => hbelow q (hsub q hq), fun q hq => h q (hsub q hq)⟩

theorem congr {P Q : K → Prop} (h : ∀ q, P q ↔ Q q) (k p : K) :
    CyclicLeast P k p ↔ CyclicLeast Q k p :=
  ⟨fun hp => hp.anti (fun q => (h q).mpr) ((h p).mp hp.1),
    fun hq => hq.anti (fun q => (h q).mp) ((h p).mpr hq.1)⟩

end CyclicLeast

end
