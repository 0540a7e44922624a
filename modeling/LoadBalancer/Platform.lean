/-
  What the load balancer takes from the C++ library, Boost and yaml-cpp.

  None of this code is part of the repository, so it is a parameter. `Platform` holds the
  operations the repository calls; the classes after it hold, one by one, the documented
  behaviour a result may rely on. A result that names no such class holds whatever the
  platform does.
-/
import LoadBalancer.Lib.MutableHeap
import Mathlib.Algebra.Group.Nat.Defs
import Mathlib.Algebra.Group.Int.Defs
import Mathlib.Algebra.Order.Ring.Rat
import Mathlib.Order.Defs.LinearOrder
import Mathlib.Tactic.NormNum

namespace LoadBalancer

/-- `std::size_t` as the type of hash values. -/
abbrev HashType := Fin (2 ^ 64)

/-- Unsigned arithmetic wraps around. -/
def HashType.ofNat (n : Nat) : HashType := Fin.ofNat _ n

/-- `boost::system::error_code` of a completed operation. -/
inductive ErrorCode where
  | success
  /-- `boost::asio::error::connection_refused` -/
  | connectionRefused
  | other (value : Nat)
deriving DecidableEq

def ErrorCode.isError : ErrorCode → Bool
  | .success => false
  | _ => true

/-- What the code does with values of `double`: it compares, adds, subtracts and multiplies them,
    converts integers to them and has decimal literals. How a result is rounded is left open. -/
class DoubleArithmetic (D : Type) extends
  LinearOrder D, Add D, Sub D, Mul D, IntCast D, OfScientific D

class Platform where
  /-- `boost::asio::ip::address` -/
  Address : Type
  decEqAddress : DecidableEq Address
  /-- `address::from_string`; `none` where it throws -/
  addressFromString : String → Option Address
  /-- `address::to_string` -/
  addressToString : Address → String
  /-- the integer a YAML scalar is read as, before the range of the target type is checked -/
  readInteger : String → Option Int
  /-- `std::hash<std::string>` -/
  hash : String → HashType
  /-- the numbers of `double`: an average of `long`s is finite, so that NaN does not occur and
      the order is total -/
  Double : Type
  doubleArithmetic : DoubleArithmetic Double
  /-- `std::sort`; the order of equivalent elements is up to the implementation -/
  sort : {α : Type} → (α → α → Bool) → List α → List α
  /-- `boost::heap::pairing_heap` with a comparator -/
  PairingHeap : (α : Type) → (α → α → Bool) → Type
  heapOps : ∀ α lt, MutableHeap (PairingHeap α lt) α

attribute [reducible, instance] Platform.decEqAddress Platform.doubleArithmetic Platform.heapOps

open Platform (Double PairingHeap)

/-- `double` arithmetic at zero: adding zero and multiplying with it is exact, and the product of
    0.9 with an integer other than zero is not rounded to zero. -/
class LawfulDouble [Platform] : Prop where
  zero_add : ∀ a : Double, 0.0 + a = a
  mul_zero : ∀ a : Double, a * 0.0 = 0.0
  mul_eq_zero : ∀ r : Int, (0.9 : Double) * (r : Double) = 0.0 ↔ r = 0

/-- `double` arithmetic read as rational arithmetic, which nothing rounds. -/
class ExactDouble [Platform] where
  value : Double → ℚ
  value_lt : ∀ {a b : Double}, value a < value b ↔ a < b
  value_add : ∀ a b : Double, value (a + b) = value a + value b
  value_sub : ∀ a b : Double, value (a - b) = value a - value b
  value_mul : ∀ a b : Double, value (a * b) = value a * value b
  value_intCast : ∀ r : Int, value r = r
  value_ofScientific : ∀ m s e,
    value (OfScientific.ofScientific m s e) = OfScientific.ofScientific m s e

namespace ExactDouble

variable [Platform] [ExactDouble]

theorem value_le {a b : Double} : value a ≤ value b ↔ a ≤ b := by
  rw [← not_lt, ← not_lt, value_lt]

theorem value_injective {a b : Double} (h : value a = value b) : a = b :=
  le_antisymm (value_le.mp h.le) (value_le.mp h.ge)

theorem value_inj {a b : Double} : value a = value b ↔ a = b :=
  ⟨value_injective, congrArg value⟩

theorem value_zero : value (0.0 : Double) = 0 := by
  rw [value_ofScientific]
  norm_num

theorem value_alpha : value (0.9 : Double) = 9 / 10 := by
  rw [value_ofScientific]
  norm_num

/-- The rational reading meets the laws. -/
theorem lawful : LawfulDouble where
  zero_add a := by
    rw [← value_inj, value_add, value_zero]
    exact zero_add _
  mul_zero a := by
    rw [← value_inj, value_mul, value_zero]
    exact mul_zero _
  mul_eq_zero r := by
    rw [← value_inj, value_mul, value_zero, value_alpha, value_intCast]
    norm_num

end ExactDouble

/-- A pairing heap is a finite set of nodes addressed by handles; `top` is one of them. -/
class LawfulPairingHeap [Platform] : Prop where
  lawful : ∀ α lt, MutableHeap.LawfulHeap (PairingHeap α lt)

/-- A pairing heap with a comparator that is a strict weak order keeps its heap order, and
    `top` is then a maximum. -/
class OrderedPairingHeap [Platform] : Prop extends LawfulPairingHeap where
  ordered : ∀ {α} {lt : α → α → Bool}, StrictWeak lt →
    MutableHeap.OrderedHeap (PairingHeap α lt) lt

/-- A pairing heap that keeps its heap order if it is told the direction in which a value
    changed, as the documentation of `increase` and `decrease` demands. -/
class ContractPairingHeap [Platform] : Prop extends LawfulPairingHeap where
  contract : ∀ {α} {lt : α → α → Bool}, StrictWeak lt →
    MutableHeap.ContractHeap (PairingHeap α lt) lt

attribute [instance] LawfulPairingHeap.lawful

/-- `std::sort` permutes its input. -/
class LawfulSort [Platform] : Prop where
  sort_perm : ∀ {α : Type} (lt : α → α → Bool) (l : List α), (Platform.sort lt l).Perm l
  sort_sorted : ∀ {α : Type} {lt : α → α → Bool} (l : List α), StrictWeak lt →
    (Platform.sort lt l).Pairwise fun a b => lt b a = false

end LoadBalancer
