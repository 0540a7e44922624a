/-
  Least connections: the counters of the selector against the clients of the connector.

  A client holds a charge on the backend it is bound to: 1 while an attempt is pending
  (`SelectBackend`), 2 while its session runs (`OnConnect`), 1 after `Cancel`, and 0 once the
  session is destroyed. A client that was dropped without a session keeps a charge of 1 that
  nothing takes back. `Booking` says once what a step does to the counters and to the charge
  of its client; `books_run` then says that in every state of a run the counter a name leads
  to is the sum of the charges on the name (`Ledger`).
-/
import LoadBalancer.Connector.System
import LoadBalancer.Lib.Ledger

namespace LoadBalancer

open Transition Ledger

section

variable [Platform]

/-! ## Charges -/

/-- A charge of `n` on one backend, seen by the backends that meet `P`. -/
def chargeOn (b : Backend) (n : Nat) (P : Backend → Bool) : Nat := if P b then n else 0

/-- What a session is counted with. -/
def SessionState.charge : SessionState → Nat
  | .running _ => 2
  | .cancelled => 1
  | .destroyed => 0

namespace Phase

/-- What a client is counted with, on the backends that meet `P`. -/
def charge (P : Backend → Bool) : Phase → Nat
  | .connecting ep => chargeOn (.endpoint ep) 1 P
  | .resolving url => chargeOn (.url url) 1 P
  | .connectingResolved url => chargeOn (.url url) 1 P
  | .session b _ state => chargeOn b state.charge P
  | .dropped b _ => chargeOn b 1 P
  | _ => 0

theorem charge_of_attempting (P : Backend → Bool) {phase : Phase} {b : Backend}
    (h : phase.attempting = some b) : phase.charge P = chargeOn b 1 P := by
  cases phase with
  | connecting ep =>
      obtain rfl : Backend.endpoint ep = b := Option.some.inj h
      rfl
  | resolving url =>
      obtain rfl : Backend.url url = b := Option.some.inj h
      rfl
  | connectingResolved url =>
      obtain rfl : Backend.url url = b := Option.some.inj h
      rfl
  | _ => cases h

theorem charge_after_ready (P : Backend → Bool) (result : Outcome Unit) :
    (after result .ready).charge P = 0 := by
  cases result <;> rfl

end Phase

/-- The backends with a given name. -/
def Backend.named (name : String) (b : Backend) : Bool := decide (name = b.toString)

/-- What a step does to the counters and to the charge of its client. -/
inductive Booking (s : LeastConnectionsSelector) (client client' : Client) :
    LeastConnectionsSelector → Prop where
  | same (charge : ∀ P, client'.phase.charge P = client.phase.charge P) :
      Booking s client client' s
  | increase {b : Backend} {n : Nat} (old : ∀ P, client.phase.charge P = chargeOn b n P)
      (new : ∀ P, client'.phase.charge P = chargeOn b (n + 1) P) :
      Booking s client client' (s.increaseConnectionCount b).2
  | decrease {b : Backend} {n : Nat} (old : ∀ P, client.phase.charge P = chargeOn b (n + 1) P)
      (new : ∀ P, client'.phase.charge P = chargeOn b n P) :
      Booking s client client' (s.decreaseConnectionCount b).2
  | exclude {b : Backend} {n : Nat} (old : ∀ P, client.phase.charge P = chargeOn b n P)
      (new : ∀ P, client'.phase.charge P = 0) :
      Booking s client client' (s.excludeBackend b).2

namespace Client

/-- A session's notification moves the counter of its backend with the session's charge. -/
theorem booking_notify {s : LeastConnectionsSelector} (hs : s.Keyed) {client : Client}
    {b : Backend} {v : Visitor} (hv : v.BelongsTo .leastConnections b)
    {call : Notification × SessionState} (now : Int) {n : Nat}
    (hold : ∀ P, client.phase.charge P = chargeOn b n P)
    (hcall : call.2.charge = match call.1 with
      | .onConnect => n + 1
      | .onDisconnect => n - 1
      | _ => n) (hn : call.1 = .onDisconnect → 0 < n) :
    ∃ s', (notify (.leastConnections s) client b v call now).1 = .leastConnections s' ∧
      Booking s client (notify (.leastConnections s) client b v call now).2 s' := by
  have hnew : ∀ P, (notify (.leastConnections s) client b v call now).2.phase.charge P =
      chargeOn b call.2.charge P := by
    intro P
    rw [notify_eq (s := .leastConnections s) hs hv]
    rfl
  obtain rfl : v = .leastConnectionsCallbacks b := hv
  rcases call with ⟨notification, state⟩
  cases notification with
  | onConnect =>
      have hcharge : state.charge = n + 1 := hcall
      exact ⟨_, rfl, .increase hold fun P => by rw [hnew, hcharge]⟩
  | onDisconnect =>
      have hcharge : state.charge = n - 1 := hcall
      have hpos := hn rfl
      have hpred : n = state.charge + 1 := by omega
      exact ⟨_, rfl, .decrease (fun P => by rw [hold, hpred]) hnew⟩
  | _ =>
      have hcharge : state.charge = n := hcall
      exact ⟨_, rfl, .same fun P => by rw [hnew, hold, hcharge]⟩

/-- A selection increments the counter of the name of the backend it returns. -/
theorem selectBackend_leastConnections {s : LeastConnectionsSelector} (hs : s.Keyed)
    (endpoint : Endpoint) :
    (∃ b, (Selector.leastConnections s).selectBackend endpoint =
        (.returned b, .leastConnections (s.increaseConnectionCount b).2)) ∨
      (Selector.leastConnections s).selectBackend endpoint = (.undefined, .leastConnections s) := by
  have hselect : (Selector.leastConnections s).selectBackend endpoint =
      (s.selectBackend endpoint).map id .leastConnections := rfl
  rw [hselect]
  rcases LeastConnectionsSelector.selectBackend_cases hs endpoint with ⟨entry, -, h⟩ | ⟨-, h⟩
  · rw [h]
    exact Or.inl ⟨entry.b, rfl⟩
  · rw [h]
    exact Or.inr rfl

theorem booking_step {s : LeastConnectionsSelector} (hs : s.Keyed) {client client' : Client}
    (hclient : client.WellFormed .leastConnections) {e : ClientEvent} {t : Selector}
    (h : StepCase (.leastConnections s) client e t client') :
    ∃ s', t = .leastConnections s' ∧ Booking s client client' s' := by
  cases h with
  | @selected b ready selected =>
      have hold : ∀ P, client.phase.charge P = chargeOn b 0 P := by
        intro P
        rw [ready, chargeOn, ite_self]
        rfl
      rcases selectBackend_leastConnections hs client.endpoint with ⟨x, h⟩ | h
      · rw [h] at selected ⊢
        obtain rfl : x = b := by simpa using selected
        exact ⟨_, rfl, .increase hold fun P =>
          Phase.charge_of_attempting P (Phase.attempting_attempt x)⟩
      · rw [h] at selected
        cases selected
  | unselected ready unselected halted =>
      rcases selectBackend_leastConnections hs client.endpoint with ⟨x, h⟩ | h
      · exact absurd (congrArg Prod.fst h) (unselected x)
      · rw [h]
        refine ⟨_, rfl, .same fun P => ?_⟩
        rw [ready]
        rcases halted with rfl | ⟨e, -, rfl⟩
        · rfl
        · rfl
  | @refused e b attempting =>
      exact ⟨_, rfl, .exclude (fun P => Phase.charge_of_attempting P attempting)
        (fun P => Phase.charge_after_ready P _)⟩
  | @resolved url resolving =>
      exact ⟨_, rfl, .same fun P => by rw [resolving]; rfl⟩
  | @connected b attempting =>
      exact booking_notify hs (Visitor.belongsTo_make .leastConnections b) 0
        (fun P => Phase.charge_of_attempting P attempting) rfl (fun h => by cases h)
  | @dropped e b ec attempting =>
      exact ⟨_, rfl, .same fun P => by rw [Phase.charge_of_attempting P attempting]; rfl⟩
  | @handled b v op ec now running =>
      refine booking_notify hs (hclient b v _ running) now (n := 2) (fun P => by rw [running]; rfl)
        ?_ (fun _ => by omega)
      unfold HttpSession.handle
      split
      · rfl
      · cases op <;> rfl
  | @destroyed b v cancelled =>
      exact booking_notify hs (hclient b v _ cancelled) 0 (n := 1)
        (fun P => by rw [cancelled]; rfl) rfl (fun _ => by omega)

end Client

/-! ## The books -/

namespace Booking

variable [LawfulPairingHeap] {s s' : LeastConnectionsSelector} {client client' : Client}

/-- The counter that a name leads to moves with the charge of the client on the name. -/
theorem transfer (hs : s.Keyed) (h : Booking s client client' s') (name : String) :
    Transfer (s.counterOf name) (client.phase.charge (Backend.named name)) (s'.counterOf name)
      (client'.phase.charge (Backend.named name)) := by
  cases h with
  | same charge =>
      rw [charge]
      exact .refl _ _
  | @increase b n old new =>
      rw [old, new, LeastConnectionsSelector.counterOf_increaseConnectionCount hs]
      by_cases hname : name = b.toString
      · simp only [chargeOn, Backend.named, hname, decide_true, if_true]
        exact .deposit
      · simp only [chargeOn, Backend.named, hname, decide_false, if_false]
        exact .refl _ _
  | @decrease b n old new =>
      rw [old, new, LeastConnectionsSelector.counterOf_decreaseConnectionCount hs]
      by_cases hname : name = b.toString
      · simp only [chargeOn, Backend.named, hname, decide_true, if_true]
        exact .withdraw
      · simp only [chargeOn, Backend.named, hname, decide_false, if_false]
        exact .refl _ _
  | @exclude b n old new =>
      rw [old, new, LeastConnectionsSelector.counterOf_excludeBackend hs]
      by_cases hname : name = b.toString
      · rw [if_pos hname]
        exact .close
      · simp only [chargeOn, Backend.named, hname, decide_false, if_false]
        exact .refl _ _

theorem zeroStrays (hs : s.Keyed) (hstrays : s.ZeroStrays) (h : Booking s client client' s') :
    s'.ZeroStrays := by
  cases h with
  | same => exact hstrays
  | increase =>
      exact HeapPool.strays_updateEntry LeastConnectionsSelector.keepsBackend_countUp hs hstrays _
  | decrease =>
      exact HeapPool.strays_updateEntry LeastConnectionsSelector.keepsBackend_countDown hs hstrays _
  | exclude => exact HeapPool.strays_excludeBackend hs hstrays _

end Booking

namespace System

/-- The selector's counters are the sums of the clients' charges. -/
structure Books (sys : System) (s : LeastConnectionsSelector) : Prop where
  selector : sys.selector = .leastConnections s
  strays : s.ZeroStrays
  balanced : ∀ name, Balanced (s.counterOf name)
    (sys.clients.map fun client => client.phase.charge (Backend.named name))

theorem Books.keyed {sys : System} {s : LeastConnectionsSelector} (hsys : sys.Inv)
    (h : sys.Books s) : s.Keyed := by
  have hinv := hsys.selector
  rw [h.selector] at hinv
  exact hinv

variable [LawfulPairingHeap]

theorem books_initial {replicas : Nat} {config : Node} {sel : Selector}
    (h : Selector.configure .leastConnections replicas config = .ok sel) :
    ∃ s, (initial sel).Books s := by
  obtain ⟨s, hs, rfl⟩ := Except.map_eq_ok.mp h
  have hzero : ∀ b n, s.Counts b n → n = 0 := fun b n =>
    LeastConnectionsSelector.counts_configure hs
  have hkeyed : s.Keyed := LeastConnectionsSelector.keyed_configure hs
  refine ⟨s, rfl, ?_, fun name => .of_zero (fun n hn => ?_) (fun c hc => ?_)⟩
  · exact fun k w hw => Or.inr (hzero w.b _ ⟨k, w, hw, rfl, rfl⟩)
  · obtain ⟨b, -, hb⟩ := LeastConnectionsSelector.counts_of_counterOf hkeyed hn
    exact hzero b n hb
  · cases hc

theorem books_step {sys t : System} {e : Event} {s : LeastConnectionsSelector} (hsys : sys.Inv)
    (hbooks : sys.Books s) (h : sys.step e = some t) : ∃ s', t.Books s' := by
  have hs := hbooks.keyed hsys
  cases e with
  | accepts endpoint =>
      rw [step_accepts h]
      refine ⟨s, hbooks.selector, hbooks.strays, fun name => ?_⟩
      have hsum := (hbooks.balanced name).append_zero
      rwa [List.map_append]
  | client c e =>
      obtain ⟨client, sel, client', hclient, hcase, rfl⟩ := step_client h
      have hwf := hsys.clients client (List.mem_of_getElem? hclient)
      rw [hbooks.selector] at hcase hwf
      obtain ⟨s', rfl, hbooking⟩ := Client.booking_step hs hwf hcase
      refine ⟨s', rfl, hbooking.zeroStrays hs hbooks.strays, fun name => ?_⟩
      exact (hbooks.balanced name).transfer hclient (hbooking.transfer hs name)

theorem books_run {sys t : System} {es : List Event} {s : LeastConnectionsSelector}
    (hsys : sys.Inv) (hbooks : sys.Books s) (hrun : Run (Steps step) sys es t) :
    ∃ s', t.Books s' := by
  induction hrun with
  | nil => exact ⟨s, hbooks⟩
  | snoc hrun hstep ih =>
      obtain ⟨s', hs'⟩ := ih
      exact books_step (inv_run hsys hrun) hs' hstep

end System

/-! ## Counters and dropped clients -/

namespace Selector

/-- Some entry for the backend has the counter `n`. -/
def Counts (b : Backend) (n : Nat) : Selector → Prop
  | .leastConnections s => s.Counts b n
  | _ => False

/-- The counter of the entry that a name leads to. -/
def counterOf (name : String) : Selector → Option Nat
  | .leastConnections s => s.counterOf name
  | _ => none

end Selector

namespace Client

/-- The client was left without a session. -/
def Dropped (client : Client) : Prop :=
  ∃ b ec, client.phase = .dropped b ec

/-- A step whose attempt succeeds or is retried drops no client. -/
theorem not_dropped_stepCase {s t : Selector} {client client' : Client} {e : ClientEvent}
    (hretried : client.retried e) (h : StepCase s client e t client') : ¬ client'.Dropped := by
  cases h with
  | @selected b => cases b <;> simp [Dropped, Phase.attempt]
  | unselected ready unselected halted =>
      rcases halted with rfl | ⟨e, -, rfl⟩ <;> simp [Dropped]
  | refused => simp [Dropped]
  | resolved => simp [Dropped]
  | connected => simp [Dropped, runSession, notify]
  | dropped attempting notRetried => exact absurd hretried notRetried
  | handled => simp [Dropped, notify]
  | destroyed => simp [Dropped, notify]

end Client

namespace System

/-- Every connect attempt succeeds, or fails in a way that the connector retries. -/
def retried (sys : System) : Event → Prop
  | .client c e => ∀ client, sys.clients[c]? = some client → client.retried e
  | .accepts _ => True

theorem not_dropped_run {sys t : System} {es : List Event}
    (hsys : ∀ client ∈ sys.clients, ¬ client.Dropped)
    (hrun : Run (Under retried (Steps step)) sys es t) :
    ∀ client ∈ t.clients, ¬ client.Dropped := by
  induction hrun with
  | nil => exact hsys
  | @snoc u v es e hrun hstep ih =>
      obtain ⟨hretried, hstep⟩ := hstep
      refine forall_clients_step hstep ih (fun endpoint => ?_) ?_
      · simp [Client.Dropped, Client.new]
      · intro c ce client client' he hclient hcase
        subst he
        exact Client.not_dropped_stepCase (hretried client hclient) hcase

end System

end

end LoadBalancer
