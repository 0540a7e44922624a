/-
  Accounts that may be closed, and the charges that make up their balance.

  A party holds a charge at a time. `Transfer` relates an account and the charge of one party
  before a step to both after it: the balance moves with the charge, and a closed account is
  not opened again. Balances are natural numbers, so a withdrawal from an empty account takes
  nothing; `Transfer` therefore promises the new balance only where the old one covers the
  charge of the party, which `Balanced` gives.
-/
import LoadBalancer.Lib.ListSet
import Mathlib.Algebra.Order.BigOperators.Group.List
import Mathlib.Algebra.Order.Group.Nat

namespace Ledger

/-- An open account holds the sum of the charges. -/
def Balanced (account : Option Nat) (charges : List Nat) : Prop :=
  ∀ n, account = some n → n = charges.sum

def Transfer (account : Option Nat) (charge : Nat) (account' : Option Nat) (charge' : Nat) :
    Prop :=
  ∀ n', account' = some n' → ∃ n, account = some n ∧ (charge ≤ n → n' + charge = n + charge')

variable {account account' : Option Nat} {charge charge' : Nat}

namespace Transfer

theorem refl (account : Option Nat) (charge : Nat) : Transfer account charge account charge :=
  fun n' h => ⟨n', h, fun _ => rfl⟩

theorem deposit : Transfer account charge (account.map (· + 1)) (charge + 1) := by
  intro n' h
  obtain ⟨n, hn, rfl⟩ := Option.map_eq_some_iff.mp h
  exact ⟨n, hn, fun _ => by omega⟩

theorem withdraw : Transfer account (charge + 1) (account.map (· - 1)) charge := by
  intro n' h
  obtain ⟨n, hn, rfl⟩ := Option.map_eq_some_iff.mp h
  exact ⟨n, hn, fun hle => by omega⟩

theorem close : Transfer account charge none charge' := by
  intro n' h
  cases h

end Transfer

namespace Balanced

theorem of_zero {charges : List Nat} (h : ∀ n, account = some n → n = 0)
    (hzero : ∀ c ∈ charges, c = 0) : Balanced account charges := by
  intro n hn
  rw [h n hn, List.sum_eq_zero hzero]

/-- A new party without a charge. -/
theorem append_zero {charges : List Nat} (h : Balanced account charges) :
    Balanced account (charges ++ [0]) := by
  intro n hn
  rw [h n hn]
  simp

/-- A transfer of one party keeps the books balanced. -/
theorem transfer {α : Type*} {parties : List α} {f : α → Nat} {i : Nat} {old new : α}
    (h : Balanced account (parties.map f)) (hi : parties[i]? = some old)
    (htransfer : Transfer account (f old) account' (f new)) :
    Balanced account' ((parties.set i new).map f) := by
  intro n' hn'
  obtain ⟨n, hn, hmove⟩ := htransfer n' hn'
  have hsum : n = (parties.map f).sum := h n hn
  have hmem : f old ∈ parties.map f := List.mem_map_of_mem (List.mem_of_getElem? hi)
  have hcovered : f old ≤ n := by
    rw [hsum]
    exact List.single_le_sum (fun x _ => Nat.zero_le x) _ hmem
  have hset : ((parties.set i new).map f).sum + f old = (parties.map f).sum + f new :=
    List.sum_map_set f hi
  have hmoved := hmove hcovered
  omega

end Balanced

end Ledger
