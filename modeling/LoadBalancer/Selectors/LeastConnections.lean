/-
  `LeastConnectionsSelector`: a heap of connection counters, least counter first.

  The counter of an entry is changed through its name only. `SelectBackend` reads the top
  entry and increments the entry that the top's name leads to, which is another one where
  two backends share a name. The counter, a `std::size_t`, is read as a natural number: it is
  never decremented at zero, and would have to be incremented `2 ^ 64` times to wrap.
-/
import LoadBalancer.Selectors.HeapPool
import Mathlib.Order.Nat

namespace LoadBalancer

open MutableHeap Platform

variable [Platform]

structure CounterWrapper where
  b : Backend
  counter : Nat

instance : HeapEntry CounterWrapper := ⟨CounterWrapper.b⟩

/-- `ConnectionsCompare`; the comparator is inverted, so the top has the least counter. -/
def connectionsCompare (lhs rhs : CounterWrapper) : Bool := decide (lhs.counter > rhs.counter)

abbrev LeastConnectionsSelector := HeapPool CounterWrapper connectionsCompare

namespace LeastConnectionsSelector

def insertBackend (s : LeastConnectionsSelector) (b : Backend) : LeastConnectionsSelector :=
  HeapPool.insertBackend s { b := b, counter := 0 }

def configure (config : Node) : Except Exception LeastConnectionsSelector := do
  return (← configuredBackends "Least connections endpoints node is missed" config).foldl
    (fun s b => s.insertBackend b) HeapPool.new

/-- `counter++`, and the heap is told to `decrease`. -/
def countUp (entry : CounterWrapper) : Option (CounterWrapper × HeapUpdate) :=
  some ({ entry with counter := entry.counter + 1 }, .decrease)

/-- `counter--` where it is positive, and the heap is told to `decrease`. -/
def countDown (entry : CounterWrapper) : Option (CounterWrapper × HeapUpdate) :=
  if entry.counter > 0 then some ({ entry with counter := entry.counter - 1 }, .decrease)
  else none

def increaseConnectionCount (s : LeastConnectionsSelector) (backend : Backend) :
    Outcome Unit × LeastConnectionsSelector :=
  s.updateEntry backend countUp

def decreaseConnectionCount (s : LeastConnectionsSelector) (backend : Backend) :
    Outcome Unit × LeastConnectionsSelector :=
  s.updateEntry backend countDown

def selectBackend (s : LeastConnectionsSelector) (_notused : Endpoint) :
    Outcome Backend × LeastConnectionsSelector :=
  match s.topEntry with
  | .returned entry =>
    match s.increaseConnectionCount entry.b with
    | (.returned (), s) => (.returned entry.b, s)
    | (.thrown e, s) => (.thrown e, s)
    | (.undefined, s) => (.undefined, s)
  | .thrown e => (.thrown e, s)
  | .undefined => (.undefined, s)

def excludeBackend (s : LeastConnectionsSelector) (backend : Backend) :
    Outcome Unit × LeastConnectionsSelector :=
  HeapPool.excludeBackend s backend

theorem connectionsCompare_strictWeak : StrictWeak connectionsCompare :=
  strictWeak_of_key CounterWrapper.counter

instance orderedConnections [OrderedPairingHeap] :
    OrderedHeap (PairingHeap CounterWrapper connectionsCompare) connectionsCompare :=
  OrderedPairingHeap.ordered connectionsCompare_strictWeak

theorem configure_eq_ok {config : Node} {s : LeastConnectionsSelector}
    (h : configure config = .ok s) :
    ∃ bs, (∀ missed, configuredBackends missed config = .ok bs) ∧
      s = bs.foldl (fun s b => insertBackend s b) HeapPool.new :=
  configured_eq_ok h

theorem ordered_configure
    [ContractHeap (PairingHeap CounterWrapper connectionsCompare) connectionsCompare]
    {config : Node} {s : LeastConnectionsSelector} (h : configure config = .ok s) :
    Ordered s.backends := by
  obtain ⟨bs, -, rfl⟩ := configure_eq_ok h
  exact HeapPool.ordered_insertAll_new _ bs

theorem keepsBackend_countUp : HeapPool.KeepsBackend countUp := by
  intro w v u h
  cases h
  rfl

theorem keepsBackend_countDown : HeapPool.KeepsBackend countDown := by
  intro w v u h
  unfold countDown at h
  split at h
  · cases h
    rfl
  · cases h

/-- A selection returns the backend of the top entry and increments the entry that the name
    of that backend leads to. -/
theorem selectBackend_cases {s : LeastConnectionsSelector} (hs : s.Keyed) (client : Endpoint) :
    (∃ entry, s.topEntry = .returned entry ∧ s.selectBackend client =
        (.returned entry.b, (s.increaseConnectionCount entry.b).2)) ∨
      s.topEntry = .undefined ∧ s.selectBackend client = (.undefined, s) := by
  unfold selectBackend
  cases h : s.topEntry with
  | returned entry =>
      have hfst := HeapPool.updateEntry_fst hs entry.b countUp
      refine Or.inl ⟨entry, rfl, ?_⟩
      rw [← increaseConnectionCount] at hfst
      rcases heq : s.increaseConnectionCount entry.b with ⟨o, t⟩
      rw [heq] at hfst
      obtain rfl : o = .returned () := hfst
      simp only [heq]
  | thrown e => exact absurd h (HeapPool.topEntry_ne_thrown s e)
  | undefined => exact Or.inr ⟨rfl, rfl⟩

theorem selectBackend_of_topEntry {s : LeastConnectionsSelector} (hs : s.Keyed)
    {entry : CounterWrapper} (htop : s.topEntry = .returned entry) (client : Endpoint) :
    s.selectBackend client = (.returned entry.b, (s.increaseConnectionCount entry.b).2) := by
  rcases selectBackend_cases hs client with ⟨entry', htop', h⟩ | ⟨htop', -⟩
  · obtain rfl := Outcome.returned.inj (htop.symm.trans htop')
    exact h
  · cases htop.symm.trans htop'

/-! ## Counters by name -/

/-- The counter of the entry that a name leads to. -/
def counterOf (s : LeastConnectionsSelector) (name : String) : Option Nat :=
  (s.lookup name).map CounterWrapper.counter

/-- Some entry for the backend has the counter `n`. -/
def Counts (s : LeastConnectionsSelector) (b : Backend) (n : Nat) : Prop :=
  ∃ k w, find s.backends k = some w ∧ w.b = b ∧ w.counter = n

/-- An entry that its name does not lead to has counted nothing. -/
def ZeroStrays (s : LeastConnectionsSelector) : Prop :=
  s.Strays fun w => w.counter = 0

theorem counter_countUp (w : CounterWrapper) :
    (((countUp w).map Prod.fst).getD w).counter = w.counter + 1 := rfl

theorem counter_countDown (w : CounterWrapper) :
    (((countDown w).map Prod.fst).getD w).counter = w.counter - 1 := by
  unfold countDown
  split
  · rfl
  · next h =>
    show w.counter = w.counter - 1
    omega

theorem counts_of_counterOf {s : LeastConnectionsSelector} (hs : s.Keyed) {name : String}
    {n : Nat} (h : s.counterOf name = some n) : ∃ b, b.toString = name ∧ s.Counts b n := by
  obtain ⟨w, hw, hn⟩ := Option.map_eq_some_iff.mp h
  obtain ⟨k, -, hfind, hname⟩ := HeapPool.lookup_eq_some hs hw
  exact ⟨w.b, hname, k, w, hfind, rfl, hn⟩

theorem counterOf_of_counts {s : LeastConnectionsSelector} (hs : s.ZeroStrays) {b : Backend}
    {n : Nat} (h : s.Counts b n) : s.counterOf b.toString = some n ∨ n = 0 := by
  obtain ⟨k, w, hfind, rfl, rfl⟩ := h
  rcases hs k w hfind with hpool | hzero
  · left
    have hlookup : s.lookup w.b.toString = some w :=
      Option.bind_eq_some_iff.mpr ⟨k, hpool, hfind⟩
    rw [counterOf, hlookup]
    rfl
  · exact Or.inr hzero

/-- Where every entry is the one its name leads to, so is its counter. -/
theorem counterOf_of_pooled {s : LeastConnectionsSelector} (hs : s.Pooled) {b : Backend}
    {n : Nat} (h : s.Counts b n) : s.counterOf b.toString = some n := by
  obtain ⟨k, w, hfind, rfl, rfl⟩ := h
  have hlookup : s.lookup w.b.toString = some w :=
    Option.bind_eq_some_iff.mpr ⟨k, hs k w hfind, hfind⟩
  rw [counterOf, hlookup]
  rfl

section Lawful

variable [LawfulPairingHeap]

theorem counterOf_updateEntry {s : LeastConnectionsSelector} (hs : s.Keyed)
    {f : CounterWrapper → Option (CounterWrapper × HeapUpdate)} {g : Nat → Nat}
    (hf : ∀ w, (((f w).map Prod.fst).getD w).counter = g w.counter) (b : Backend)
    (name : String) : counterOf (s.updateEntry b f).2 name =
      if name = b.toString then (s.counterOf name).map g else s.counterOf name := by
  simp only [counterOf, HeapPool.lookup_updateEntry hs]
  split
  · rw [Option.map_map, Option.map_map]
    exact congrArg (fun h => Option.map h _) (funext hf)
  · rfl

theorem counterOf_increaseConnectionCount {s : LeastConnectionsSelector} (hs : s.Keyed)
    (b : Backend) (name : String) : (s.increaseConnectionCount b).2.counterOf name =
      if name = b.toString then (s.counterOf name).map (· + 1) else s.counterOf name :=
  counterOf_updateEntry hs counter_countUp b name

theorem counterOf_decreaseConnectionCount {s : LeastConnectionsSelector} (hs : s.Keyed)
    (b : Backend) (name : String) : (s.decreaseConnectionCount b).2.counterOf name =
      if name = b.toString then (s.counterOf name).map (· - 1) else s.counterOf name :=
  counterOf_updateEntry hs counter_countDown b name

theorem counterOf_excludeBackend {s : LeastConnectionsSelector} (hs : s.Keyed)
    (b : Backend) (name : String) : (s.excludeBackend b).2.counterOf name =
      if name = b.toString then none else s.counterOf name := by
  simp only [counterOf, excludeBackend, HeapPool.lookup_excludeBackend hs]
  split <;> rfl

theorem keyed_configure {config : Node} {s : LeastConnectionsSelector}
    (h : configure config = .ok s) : s.Keyed := by
  obtain ⟨bs, -, rfl⟩ := configure_eq_ok h
  exact HeapPool.keyed_insertAll HeapPool.keyed_new bs

/-- A new selector has counted nothing. -/
theorem counts_configure {config : Node} {s : LeastConnectionsSelector}
    (h : configure config = .ok s) {b : Backend} {n : Nat} (hn : s.Counts b n) : n = 0 := by
  obtain ⟨bs, -, rfl⟩ := configure_eq_ok h
  obtain ⟨k, w, hfind, -, rfl⟩ := hn
  have hnew : ∀ k (w : CounterWrapper),
      find (HeapPool.new : LeastConnectionsSelector).backends k = some w → w.counter = 0 := by
    intro k w hw
    rw [HeapPool.find_new] at hw
    cases hw
  exact HeapPool.forall_insertAll (P := fun w : CounterWrapper => w.counter = 0)
    (fun _ => rfl) hnew bs k w hfind

end Lawful

end LeastConnectionsSelector

end LoadBalancer
