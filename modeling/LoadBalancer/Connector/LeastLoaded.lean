/-
  Least connections: which backend a selection returns.

  The heap is ordered by counters in every state that is reached (`ordered_run`), so a
  selection returns a backend with a least counter. The counter weighs an established session
  twice and a pending attempt once, so a least counter is not a least number of clients:
  * `leastBound_of_leastCounted`: a selection returns a backend with the fewest clients where
    all backends with a least load have the fewest clients, and does not where none has; so
    where a single one has a least load, it depends on that one.
  * `leastLoaded_of_selectBackend` with `leastBound_of_leastLoaded` and
    `bound_le_of_leastLoaded`: it does where all held backends have as many established
    sessions, and in general it is off by a factor of two at most, but for closing sessions.
-/
import LoadBalancer.Connector.Counters

namespace LoadBalancer

open Transition MutableHeap Platform

section

variable [Platform]

/-! ## The order of the heap -/

section Ordered

variable [OrderedPairingHeap]

theorem Booking.ordered {s s' : LeastConnectionsSelector} {client client' : Client}
    (hs : Ordered s.backends) (h : Booking s client client' s') : Ordered s'.backends := by
  cases h with
  | same => exact hs
  | increase => exact HeapPool.ordered_updateEntry hs _ _
  | decrease => exact HeapPool.ordered_updateEntry hs _ _
  | exclude => exact HeapPool.ordered_excludeBackend hs _

namespace System

/-- The selector is a least-connections selector with its heap in order. -/
def OrderedCounters (sys : System) : Prop :=
  ∃ s, sys.selector = .leastConnections s ∧ Ordered s.backends

theorem ordered_initial {replicas : Nat} {config : Node} {sel : Selector}
    (h : Selector.configure .leastConnections replicas config = .ok sel) :
    (initial sel).OrderedCounters := by
  obtain ⟨s, hs, rfl⟩ := Except.map_eq_ok.mp h
  exact ⟨s, rfl, LeastConnectionsSelector.ordered_configure hs⟩

theorem ordered_step {sys t : System} {e : Event} (hsys : sys.Inv)
    (hordered : sys.OrderedCounters) (h : sys.step e = some t) : t.OrderedCounters := by
  obtain ⟨s, hs, hheap⟩ := hordered
  cases e with
  | accepts endpoint =>
      rw [step_accepts h]
      exact ⟨s, hs, hheap⟩
  | client c e =>
      obtain ⟨client, sel, client', hclient, hcase, rfl⟩ := step_client h
      have hwf := hsys.clients client (List.mem_of_getElem? hclient)
      have hkeyed := hsys.selector
      rw [hs] at hcase hwf hkeyed
      obtain ⟨s', rfl, hbooking⟩ := Client.booking_step hkeyed hwf hcase
      exact ⟨s', rfl, hbooking.ordered hheap⟩

theorem ordered_run {sys t : System} {es : List Event} (hsys : sys.Inv)
    (hordered : sys.OrderedCounters) (hrun : Run (Steps step) sys es t) :
    t.OrderedCounters := by
  induction hrun with
  | nil => exact hordered
  | snoc hrun hstep ih => exact ordered_step (inv_run hsys hrun) ih hstep

end System

end Ordered

/-! ## The selected backend -/

/-- A held backend with a least counter. -/
def Selector.LeastCounted (s : Selector) (b : Backend) : Prop :=
  ∃ n, s.Counts b n ∧ ∀ y m, s.Counts y m → n ≤ m

namespace System

/-- The clients bound to a backend: attempts pending on it and sessions running on it. -/
def bound (sys : System) (b : Backend) : Nat := sys.pending b + sys.running b

/-- No held backend has fewer clients. -/
def LeastBound (sys : System) (b : Backend) : Prop :=
  ∀ y, sys.selector.Holds y → sys.bound b ≤ sys.bound y

/-- No held backend has a smaller load. -/
def LeastLoaded (sys : System) (b : Backend) : Prop :=
  sys.selector.Holds b ∧ ∀ y, sys.selector.Holds y → sys.load b ≤ sys.load y

variable [OrderedPairingHeap]

theorem leastCounted_of_selectBackend {sys : System} (hsys : sys.Inv)
    (hordered : sys.OrderedCounters) {endpoint : Endpoint} {b : Backend}
    (hb : (sys.selector.selectBackend endpoint).1 = .returned b) :
    sys.selector.LeastCounted b := by
  obtain ⟨s, hs, hheap⟩ := hordered
  have hkeyed := hsys.selector
  rw [hs] at hb hkeyed ⊢
  change (s.selectBackend endpoint).1 = .returned b at hb
  rcases LeastConnectionsSelector.selectBackend_cases hkeyed endpoint with ⟨entry, htop, h⟩ | ⟨-, h⟩
  · rw [h] at hb
    obtain rfl : entry.b = b := by simpa using hb
    obtain ⟨k, -, hfind⟩ := HeapPool.topEntry_returned htop
    refine ⟨entry.counter, ⟨k, entry, hfind, rfl, rfl⟩, ?_⟩
    intro y m hcounts
    obtain ⟨k', w, hw, -, rfl⟩ := hcounts
    have hmax : connectionsCompare entry w = false := HeapPool.topEntry_max hheap htop hw
    simpa [connectionsCompare] using hmax
  · rw [h] at hb
    cases hb

theorem leastCounted_run [LawfulSort] {replicas : Nat} {config : Node} {s : Selector}
    {es : List Event} {t : System} {endpoint : Endpoint} {b : Backend}
    (h : Selector.configure .leastConnections replicas config = .ok s)
    (hrun : Run (Steps step) (initial s) es t)
    (hb : (t.selector.selectBackend endpoint).1 = .returned b) :
    t.selector.LeastCounted b := by
  have hinv : (initial s).Inv := inv_initial (Selector.configure_spec h).2.1
  exact leastCounted_of_selectBackend (inv_run hinv hrun)
    (ordered_run hinv (ordered_initial h) hrun) hb

/-- Over backends with distinct names, the least counters are the least loads. -/
theorem leastCounted_iff [LawfulSort] {replicas : Nat} {config : Node} {s : Selector}
    {missed : String} {bs : List Backend} {es : List Event} {t : System}
    (h : Selector.configure .leastConnections replicas config = .ok s)
    (hbs : configuredBackends missed config = .ok bs)
    (hnames : (bs.map Backend.toString).Nodup)
    (hrun : Run (Under retried (Steps step)) (initial s) es t) (b : Backend) :
    t.selector.LeastCounted b ↔ t.LeastLoaded b := by
  simp only [Selector.LeastCounted, counts_iff h hbs hnames hrun]
  constructor
  · intro hleast
    obtain ⟨n, ⟨hb, rfl⟩, hle⟩ := hleast
    exact ⟨hb, fun y hy => hle y _ ⟨hy, rfl⟩⟩
  · intro hleast
    obtain ⟨hb, hle⟩ := hleast
    refine ⟨t.load b, ⟨hb, rfl⟩, ?_⟩
    intro y m hload
    obtain ⟨hy, rfl⟩ := hload
    exact hle y hy

/-- Over backends with distinct names, a selection returns a backend with a least load. -/
theorem leastLoaded_of_selectBackend [LawfulSort] {replicas : Nat} {config : Node}
    {s : Selector} {missed : String} {bs : List Backend} {es : List Event} {t : System}
    {endpoint : Endpoint} {b : Backend}
    (h : Selector.configure .leastConnections replicas config = .ok s)
    (hbs : configuredBackends missed config = .ok bs)
    (hnames : (bs.map Backend.toString).Nodup)
    (hrun : Run (Under retried (Steps step)) (initial s) es t)
    (hb : (t.selector.selectBackend endpoint).1 = .returned b) : t.LeastLoaded b := by
  rw [← leastCounted_iff h hbs hnames hrun]
  exact leastCounted_run h hrun.of_under hb

omit [OrderedPairingHeap] in
/-- Where all held backends have as many established sessions, running or closing, a least
    load is a least number of clients. -/
theorem leastBound_of_leastLoaded {sys : System} {b : Backend} (hb : sys.LeastLoaded b)
    (hsame : ∀ y, sys.selector.Holds y →
      sys.running y + sys.closing y = sys.running b + sys.closing b) : sys.LeastBound b := by
  intro y hy
  have hload := hb.2 y hy
  have hestablished := hsame y hy
  unfold load at hload
  unfold bound
  omega

omit [OrderedPairingHeap] in
/-- A backend with a least load has at most twice the clients of any other, and the sessions
    that are closing there. -/
theorem bound_le_of_leastLoaded {sys : System} {b : Backend} (hb : sys.LeastLoaded b) :
    ∀ y, sys.selector.Holds y → sys.bound b ≤ 2 * sys.bound y + sys.closing y := by
  intro y hy
  have hload := hb.2 y hy
  unfold load at hload
  unfold bound
  omega

omit [OrderedPairingHeap] in
/-- Where one backend alone has a least load, it has the fewest clients exactly if every backend
    with a least load has. -/
theorem leastBound_iff_of_unique {sys : System} {b : Backend} (hb : sys.LeastLoaded b)
    (hunique : ∀ x, sys.LeastLoaded x → x = b) :
    sys.LeastBound b ↔ ∀ y, sys.LeastLoaded y → sys.LeastBound y := by
  constructor
  · intro hbound y hy
    rw [hunique y hy]
    exact hbound
  · exact fun hall => hall b hb

/-- A selection returns a backend with the fewest clients where every backend with a least
    counter has the fewest clients, and not where none has. Over backends with distinct names
    the counters are the loads, so that the phases of the clients decide: it does where every
    backend with a least load has the fewest clients, does not where none has, and where one
    backend alone has a least load it does exactly if that one has the fewest clients. -/
theorem leastBound_of_leastCounted [LawfulSort] {replicas : Nat} {config : Node} {s : Selector}
    {missed : String} {bs : List Backend} {es : List Event} {t : System} {endpoint : Endpoint}
    {b : Backend}
    (h : Selector.configure .leastConnections replicas config = .ok s)
    (hbs : configuredBackends missed config = .ok bs)
    (hrun : Run (Under retried (Steps step)) (initial s) es t)
    (hb : (t.selector.selectBackend endpoint).1 = .returned b) :
    ((∀ y, t.selector.LeastCounted y → t.LeastBound y) → t.LeastBound b) ∧
    ((∀ y, t.selector.LeastCounted y → ¬ t.LeastBound y) → ¬ t.LeastBound b) ∧
    ((bs.map Backend.toString).Nodup →
      (∀ y, t.selector.LeastCounted y ↔ t.LeastLoaded y) ∧
      ((∀ y, t.LeastLoaded y → t.LeastBound y) → t.LeastBound b) ∧
      ((∀ y, t.LeastLoaded y → ¬ t.LeastBound y) → ¬ t.LeastBound b) ∧
      ((∀ x y, t.LeastLoaded x → t.LeastLoaded y → x = y) →
        (t.LeastBound b ↔ ∀ y, t.LeastLoaded y → t.LeastBound y))) := by
  have hleast : t.selector.LeastCounted b := leastCounted_run h hrun.of_under hb
  refine ⟨fun hall => hall b hleast, fun hnone => hnone b hleast, fun hnames => ?_⟩
  have hcounters := leastCounted_iff h hbs hnames hrun
  have hloaded : t.LeastLoaded b := leastLoaded_of_selectBackend h hbs hnames hrun hb
  refine ⟨hcounters, fun hall => hall b hloaded, fun hnone => hnone b hloaded, fun hunique => ?_⟩
  exact leastBound_iff_of_unique hloaded fun x hx => hunique x b hx hloaded

end System

end

namespace System

section

open Reference Selector

/-- One client has its attempt pending on the first backend. -/
def onePending : List Event := [.accepts somebody, .client 0 .selects]

def afterOnePending : System :=
  (onePending.foldlM step (initial twoCounted)).getD (initial twoCounted)

theorem leastBound_onePending :
    (afterOnePending.selector.selectBackend somebody).1 = .returned port81 ∧
      afterOnePending.bound port80 = 1 ∧ afterOnePending.LeastBound port81 := by
  have h : configure .leastConnections 1 twoEntries = .ok twoCounted := by rfl
  have hbs : configuredBackends "" twoEntries = .ok [port80, port81] := by rfl
  have hnames : ([port80, port81].map Backend.toString).Nodup := by decide
  have hrun : Run (Steps step) (initial twoCounted) onePending afterOnePending :=
    .of_foldlM (by rfl)
  have hretried : ∀ e ∈ onePending, ∀ sys : System, sys.retried e := by
    simp [onePending, retried, Client.retried]
  have hselect : (afterOnePending.selector.selectBackend somebody).1 = .returned port81 := by rfl
  obtain ⟨-, -, hphases⟩ :=
    leastBound_of_leastCounted h hbs (hrun.under_of_forall hretried) hselect
  obtain ⟨-, hbound, -, -⟩ := hphases hnames
  refine ⟨hselect, by rfl, hbound fun y hy x hx => ?_⟩
  -- a backend with a least load has no client at all
  have hheld : afterOnePending.selector.Holds port81 := ⟨2, ⟨port81, 0⟩, by rfl, rfl⟩
  have hload : afterOnePending.load y ≤ afterOnePending.load port81 := hy.2 port81 hheld
  have hzero : afterOnePending.load port81 = 0 := by rfl
  rw [hzero, load] at hload
  rw [bound]
  omega

/-- Of five clients, the two on the first backend are connected before the fifth is accepted;
    every attempt succeeds. -/
def imbalanced : List Event :=
  [.accepts somebody, .accepts somebody, .accepts somebody, .accepts somebody,
    .client 0 .selects, .client 1 .selects, .client 2 .selects, .client 3 .selects,
    .client 0 (.connects .success), .client 3 (.connects .success),
    .accepts somebody, .client 4 .selects]

def afterImbalanced : System :=
  (imbalanced.foldlM step (initial twoCounted)).getD (initial twoCounted)

/-- The next client goes to the backend with three clients, and not to the one with two. -/
theorem not_leastBound_imbalanced :
    configure .leastConnections 1 twoEntries = .ok twoCounted ∧
      [port80, port81].Nodup ∧
      Run (Steps step) (initial twoCounted) imbalanced afterImbalanced ∧
      (afterImbalanced.selector.selectBackend somebody).1 = .returned port81 ∧
      afterImbalanced.bound port80 = 2 ∧ afterImbalanced.bound port81 = 3 ∧
      ¬ afterImbalanced.LeastBound port81 := by
  have hfirst : afterImbalanced.bound port80 = 2 := by rfl
  have hsecond : afterImbalanced.bound port81 = 3 := by rfl
  refine ⟨by rfl, by decide, .of_foldlM (by rfl), by rfl, hfirst, hsecond, fun hleast => ?_⟩
  have hheld : afterImbalanced.selector.Holds port80 := ⟨1, ⟨port80, 4⟩, by rfl, rfl⟩
  have hle := hleast port80 hheld
  omega

end

end System

end LoadBalancer
