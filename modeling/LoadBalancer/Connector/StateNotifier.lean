/-
  `LeastConnectionsCallbacks` and `LeastResponseTimeCallbacks`: what a session reports to the
  selector.

  A notification makes one selector call at most. The callbacks hold the selector through
  `dynamic_pointer_cast`, so a call on a selector of another type is a call through a null
  pointer.
-/
import LoadBalancer.Selectors.Exclusion
import LoadBalancer.Session.HttpSession

namespace LoadBalancer

variable [Platform]

namespace Selector

/-- `LeastConnectionsSelector::IncreaseConnectionCount` -/
def increaseConnectionCount (backend : Backend) : Selector → Outcome Unit × Selector
  | .leastConnections s =>
    (LeastConnectionsSelector.increaseConnectionCount s backend).map id .leastConnections
  | s => (.undefined, s)

/-- `LeastConnectionsSelector::DecreaseConnectionCount` -/
def decreaseConnectionCount (backend : Backend) : Selector → Outcome Unit × Selector
  | .leastConnections s =>
    (LeastConnectionsSelector.decreaseConnectionCount s backend).map id .leastConnections
  | s => (.undefined, s)

/-- `LeastResponseTimeSelector::AddResponseTime` -/
def addResponseTime (backend : Backend) (responseTime : Int) : Selector → Outcome Unit × Selector
  | .leastResponseTime s =>
    (LeastResponseTimeSelector.addResponseTime s backend responseTime).map id .leastResponseTime
  | s => (.undefined, s)

end Selector

/-- The `StateNotifier` of a session. -/
inductive Visitor where
  | none
  | leastConnectionsCallbacks (backend : Backend)
  | leastResponseTimeCallbacks (backend : Backend) (responseBegin : Int)

namespace Visitor

/-- The visitor that `MakeSession` gives a new session. -/
def make (type : SelectorType) (backend : Backend) : Visitor :=
  match type with
  | .leastConnections => .leastConnectionsCallbacks backend
  | .leastResponseTime => .leastResponseTimeCallbacks backend 0
  | _ => .none

/-- A notification at time `now`, in nanoseconds of the clock. -/
def notify (notification : Notification) (now : Int) (s : Selector) :
    Visitor → Visitor × Outcome Unit × Selector
  | .none => (.none, .returned (), s)
  | .leastConnectionsCallbacks backend =>
    (.leastConnectionsCallbacks backend,
      match notification with
      | .onConnect => s.increaseConnectionCount backend
      | .onDisconnect => s.decreaseConnectionCount backend
      | _ => (.returned (), s))
  | .leastResponseTimeCallbacks backend responseBegin =>
    match notification with
    | .onRequestSent => (.leastResponseTimeCallbacks backend now, .returned (), s)
    | .onResponseReceive =>
      (.leastResponseTimeCallbacks backend responseBegin,
        s.addResponseTime backend (now - responseBegin))
    | _ => (.leastResponseTimeCallbacks backend responseBegin, .returned (), s)

/-- The visitor is one that `MakeSession` gives a session with the backend. -/
def BelongsTo (type : SelectorType) (backend : Backend) (v : Visitor) : Prop :=
  match type with
  | .leastConnections => v = .leastConnectionsCallbacks backend
  | .leastResponseTime => ∃ responseBegin, v = .leastResponseTimeCallbacks backend responseBegin
  | _ => v = .none

theorem belongsTo_make (type : SelectorType) (backend : Backend) :
    (make type backend).BelongsTo type backend := by
  cases type with
  | leastResponseTime => exact ⟨0, rfl⟩
  | _ => rfl

theorem belongsTo_notify {type : SelectorType} {b : Backend} {v : Visitor}
    (h : v.BelongsTo type b) (n : Notification) (now : Int) (s : Selector) :
    (v.notify n now s).1.BelongsTo type b := by
  cases type with
  | leastResponseTime =>
      obtain ⟨responseBegin, rfl⟩ := h
      cases n with
      | onRequestSent => exact ⟨now, rfl⟩
      | _ => exact ⟨responseBegin, rfl⟩
  | _ =>
      obtain rfl : v = _ := h
      rfl

/-- A notification of the right selector returns. -/
theorem notify_returns {s : Selector} (hs : s.Inv) {b : Backend} {v : Visitor}
    (h : v.BelongsTo s.type b) (n : Notification) (now : Int) :
    (v.notify n now s).2.1 = .returned () := by
  cases s with
  | leastConnections s =>
      obtain rfl : v = .leastConnectionsCallbacks b := h
      cases n with
      | onConnect => exact HeapPool.updateEntry_fst hs b LeastConnectionsSelector.countUp
      | onDisconnect => exact HeapPool.updateEntry_fst hs b LeastConnectionsSelector.countDown
      | _ => rfl
  | leastResponseTime s =>
      obtain ⟨responseBegin, rfl⟩ := h
      cases n with
      | onResponseReceive =>
          exact HeapPool.updateEntry_fst hs b
            (LeastResponseTimeSelector.addSample (now - responseBegin))
      | _ => rfl
  | _ =>
      obtain rfl : v = .none := h
      rfl

end Visitor

variable [LawfulPairingHeap]

namespace Selector

/-- The three calls of the notifications change scheduling state only. -/
theorem sameBackends_increaseConnectionCount (s : Selector) (b : Backend) :
    SameBackends s (s.increaseConnectionCount b).2 := by
  cases s with
  | leastConnections s =>
      exact sameBackends_leastConnections s b LeastConnectionsSelector.keepsBackend_countUp
  | _ => exact .refl _

theorem sameBackends_decreaseConnectionCount (s : Selector) (b : Backend) :
    SameBackends s (s.decreaseConnectionCount b).2 := by
  cases s with
  | leastConnections s =>
      exact sameBackends_leastConnections s b LeastConnectionsSelector.keepsBackend_countDown
  | _ => exact .refl _

theorem sameBackends_addResponseTime (s : Selector) (b : Backend) (responseTime : Int) :
    SameBackends s (s.addResponseTime b responseTime).2 := by
  cases s with
  | leastResponseTime s =>
      exact sameBackends_leastResponseTime s b
        (LeastResponseTimeSelector.keepsBackend_addSample responseTime)
  | _ => exact .refl _

end Selector

/-- A notification changes scheduling state only. -/
theorem Visitor.sameBackends_notify (n : Notification) (now : Int) (s : Selector) (v : Visitor) :
    Selector.SameBackends s (v.notify n now s).2.2 := by
  cases v with
  | none => exact .refl s
  | leastConnectionsCallbacks backend =>
      cases n with
      | onConnect => exact Selector.sameBackends_increaseConnectionCount s backend
      | onDisconnect => exact Selector.sameBackends_decreaseConnectionCount s backend
      | _ => exact .refl s
  | leastResponseTimeCallbacks backend responseBegin =>
      cases n with
      | onResponseReceive =>
          exact Selector.sameBackends_addResponseTime s backend (now - responseBegin)
      | _ => exact .refl s

end LoadBalancer
