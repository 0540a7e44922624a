/-
  A platform that meets every law, on which the model runs.

  Addresses are IPv4 quadruples in dotted decimal form, sorting is insertion sort, and the
  priority queue is the list queue of `Lib.MutableHeap`. The hash is a polynomial in the
  characters of the text; nothing rests on its values. For `double` stand the rational numbers.
  The instances are active where the namespace `Reference` is open.
-/
import LoadBalancer.Yaml
import Mathlib.Data.List.Sort

namespace LoadBalancer

namespace Reference

def isDecimal (cs : List Char) : Bool := !cs.isEmpty && cs.all Char.isDigit

def decimal (cs : List Char) : Nat :=
  cs.foldl (fun n c => 10 * n + (c.toNat - '0'.toNat)) 0

/-- The parts of a text between its dots. -/
def dotted : List Char → List (List Char)
  | [] => [[]]
  | c :: cs =>
    match dotted cs with
    | [] => [[c]]
    | part :: parts => if c == '.' then [] :: part :: parts else (c :: part) :: parts

def octet (cs : List Char) : Option (Fin 256) :=
  if h : decimal cs < 256 then
    if isDecimal cs && (cs.length = 1 || cs.head? != some '0') then some ⟨decimal cs, h⟩ else none
  else none

abbrev Address := Fin 256 × Fin 256 × Fin 256 × Fin 256

def addressFromString (s : String) : Option Address :=
  match dotted s.toList with
  | [a, b, c, d] => do return (← octet a, ← octet b, ← octet c, ← octet d)
  | _ => none

def addressToString : Address → String
  | (a, b, c, d) =>
    toString a.val ++ "." ++ toString b.val ++ "." ++ toString c.val ++ "." ++ toString d.val

def readInteger (s : String) : Option Int :=
  match s.toList with
  | '-' :: cs => if isDecimal cs then some (-(decimal cs : Int)) else none
  | cs => if isDecimal cs then some (decimal cs : Int) else none

def hash (s : String) : HashType :=
  .ofNat (s.toList.foldl (fun h c => 31 * h + c.toNat) 7)

/-! ## Configurations -/

/-- An `endpoints` entry given as `ip` and `port`, with a weight that some selectors ignore. -/
def ipEntry (ip port : String) : Node :=
  .map [("ip", .scalar ip), ("port", .scalar port), ("weight", .scalar "1")]

/-- An `endpoints` entry given as `url`. -/
def urlEntry (url : String) : Node :=
  .map [("url", .scalar url), ("weight", .scalar "1")]

def balancing (entries : List Node) : Node := .map [("endpoints", .sequence entries)]

/-! ## Sorting -/

def notBelow {α : Type} (lt : α → α → Bool) (a b : α) : Prop := lt b a = false

instance {α : Type} (lt : α → α → Bool) : DecidableRel (notBelow lt) :=
  fun a b => inferInstanceAs (Decidable (lt b a = false))

instance rationals : DoubleArithmetic ℚ where
  toLinearOrder := inferInstance
  toAdd := inferInstance
  toSub := inferInstance
  toMul := inferInstance
  toIntCast := inferInstance
  -- as the core library has it, but so that comparisons of literals evaluate
  ofScientific m s e := if s then mkRat m (10 ^ e) else (m * 10 ^ e : Nat)

scoped instance platform : Platform where
  Address := Address
  decEqAddress := inferInstance
  addressFromString := addressFromString
  addressToString := addressToString
  readInteger := readInteger
  hash := hash
  Double := ℚ
  doubleArithmetic := rationals
  sort lt l := l.insertionSort (notBelow lt)
  PairingHeap := ListHeap
  heapOps _ _ := inferInstance

scoped instance : LawfulPairingHeap where
  lawful α lt := inferInstanceAs (MutableHeap.LawfulHeap (ListHeap α lt))

scoped instance : OrderedPairingHeap where
  ordered hlt := ListHeap.orderedHeap hlt

theorem pairwise_insertionSort {α : Type} {lt : α → α → Bool} (hlt : StrictWeak lt)
    (l : List α) : (l.insertionSort (notBelow lt)).Pairwise (notBelow lt) := by
  have htotal : Std.Total (notBelow lt) := by
    constructor
    intro a b
    by_cases h : lt b a = false
    · exact Or.inl h
    · exact Or.inr (hlt.asymm (by simpa using h))
  have htrans : IsTrans α (notBelow lt) :=
    ⟨fun a b c hab hbc => hlt.negTrans hbc hab⟩
  exact List.pairwise_insertionSort _ l

scoped instance : LawfulSort where
  sort_perm _ l := List.perm_insertionSort _ l
  sort_sorted l hlt := pairwise_insertionSort hlt l

scoped instance exactDouble : ExactDouble where
  value a := a
  value_lt := Iff.rfl
  value_add _ _ := rfl
  value_sub _ _ := rfl
  value_mul _ _ := rfl
  value_intCast _ := rfl
  value_ofScientific _ _ _ := Rat.ofScientific_def.symm

scoped instance : LawfulDouble := ExactDouble.lawful

/-- The address 127.0.0.1. -/
def localhost : Address := (127, 0, 0, 1)

end Reference

end LoadBalancer
