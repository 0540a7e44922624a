/-
  `LeastResponseTimeSelector`: a heap of averaged response times, least average first.

  The arithmetic of the averages is the platform's, so what holds here holds of any rounding.
-/
import LoadBalancer.Selectors.HeapPool

namespace LoadBalancer

open MutableHeap Platform

variable [Platform]

structure AverageTimeWrapper where
  backend : Backend
  responseTimeEma : Double := 0.0
  alpha : Double := 0.9

instance : HeapEntry AverageTimeWrapper := ⟨AverageTimeWrapper.backend⟩

/-- `ResponseTimeEMACompare`; the comparator is inverted, so the top has the least average. -/
def responseTimeEmaCompare (lhs rhs : AverageTimeWrapper) : Bool :=
  decide (lhs.responseTimeEma > rhs.responseTimeEma)

abbrev LeastResponseTimeSelector := HeapPool AverageTimeWrapper responseTimeEmaCompare

namespace LeastResponseTimeSelector

def insertBackend (s : LeastResponseTimeSelector) (b : Backend) : LeastResponseTimeSelector :=
  HeapPool.insertBackend s { backend := b }

def configure (config : Node) : Except Exception LeastResponseTimeSelector := do
  return (← configuredBackends "Least response time endpoints node is missed" config).foldl
    (fun s b => insertBackend s b) HeapPool.new

def selectBackend (s : LeastResponseTimeSelector) (_notused : Endpoint) :
    Outcome Backend × LeastResponseTimeSelector :=
  match s.topEntry with
  | .returned entry => (.returned entry.backend, s)
  | .thrown e => (.thrown e, s)
  | .undefined => (.undefined, s)

def excludeBackend (s : LeastResponseTimeSelector) (backend : Backend) :
    Outcome Unit × LeastResponseTimeSelector :=
  HeapPool.excludeBackend s backend

/-- The average after a further sample; the `1` of the formula is an `int`. -/
def newEma (alpha oldEma : Double) (responseTime : Int) : Double :=
  (((1 : Int) : Double) - alpha) * oldEma + alpha * (responseTime : Double)

/-- The new average, and the member the heap is told with. -/
def addSample (responseTime : Int) (entry : AverageTimeWrapper) :
    Option (AverageTimeWrapper × HeapUpdate) :=
  let ema := newEma entry.alpha entry.responseTimeEma responseTime
  some ({ entry with responseTimeEma := ema },
    if entry.responseTimeEma > ema then .decrease else .increase)

def addResponseTime (s : LeastResponseTimeSelector) (backend : Backend) (responseTime : Int) :
    Outcome Unit × LeastResponseTimeSelector :=
  s.updateEntry backend (addSample responseTime)

theorem configure_eq_ok {config : Node} {s : LeastResponseTimeSelector}
    (h : configure config = .ok s) :
    ∃ bs, (∀ missed, configuredBackends missed config = .ok bs) ∧
      s = bs.foldl (fun s b => insertBackend s b) HeapPool.new :=
  configured_eq_ok h

theorem keepsBackend_addSample (responseTime : Int) :
    HeapPool.KeepsBackend (addSample responseTime) := by
  intro w v u h
  cases h
  rfl

theorem selectBackend_cases (s : LeastResponseTimeSelector) (client : Endpoint) :
    (∃ entry, s.topEntry = .returned entry ∧
        s.selectBackend client = (.returned entry.backend, s)) ∨
      s.topEntry = .undefined ∧ s.selectBackend client = (.undefined, s) := by
  unfold selectBackend
  cases h : s.topEntry with
  | returned entry => exact Or.inl ⟨entry, rfl, rfl⟩
  | thrown e => exact absurd h (HeapPool.topEntry_ne_thrown s e)
  | undefined => exact Or.inr ⟨rfl, rfl⟩

end LeastResponseTimeSelector

end LoadBalancer
