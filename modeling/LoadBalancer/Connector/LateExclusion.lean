/-
  The exclusion of a backend that is no longer held.

  Two clients that were refused by one backend exclude it one after the other. For the second
  exclusion the round robin and the hash of addresses find nothing and change nothing. The
  others may be disturbed: weighted round robin goes back to its first entry, without the
  reset of progress that it makes where it finds the backend; the hash ring and the heaps know
  backends by text, and take another backend that the text leads to.

  `lateExclusion_alike`: where the exclusion is not `Undisturbed`, and the outcome does not
  depend on how a heap breaks ties, later selections differ; where it is, they are alike.
-/
import LoadBalancer.Connector.StateNotifier
import LoadBalancer.Selectors.HashRing
import LoadBalancer.Selectors.LeastAverage
import LoadBalancer.Selectors.LeastCounter

namespace LoadBalancer

open Transition MutableHeap Platform

section

variable [Platform]

/-- A use of a selector: a call of the interface, or one of the notifications. -/
inductive Use where
  | call (call : Call)
  | increaseConnectionCount (backend : Backend)
  | decreaseConnectionCount (backend : Backend)
  | addResponseTime (backend : Backend) (responseTime : Int)

namespace Selector

open BackendCHTraits (traits ringPositions)

def UseStep (s : Selector) : Use → Selector → Prop
  | .call call, t => CallStep s call t
  | .increaseConnectionCount b, t => (s.increaseConnectionCount b).2 = t
  | .decreaseConnectionCount b, t => (s.decreaseConnectionCount b).2 = t
  | .addResponseTime b responseTime, t => (s.addResponseTime b responseTime).2 = t

/-- After `ExcludeBackend(b)`, all selections return what they would have returned. -/
def Alike (s : Selector) (b : Backend) : Prop :=
  ∀ clients, (s.excludeBackend b).2.selectAll clients = s.selectAll clients

/-- The node of the heap has a lower average than any other. -/
def LowestAt (s : LeastResponseTimeSelector) (j : Handle) : Prop :=
  ∃ w, find s.backends j = some w ∧
    ∀ k v, find s.backends k = some v → k ≠ j → w.responseTimeEma < v.responseTimeEma

/-- `ExcludeBackend(b)` of a backend that is not held finds nothing that a later selection
    could return. -/
def Undisturbed (replicas : Nat) (b : Backend) : Selector → Prop
  | .roundRobin _ => True
  | .ipHash _ => True
  -- the cursor is at the first entry
  | .weightedRoundRobin s => s.counter = 0
  -- no arc of the ring that leads to a client belongs to a backend with a position at the
  -- hash of the text
  | .consistentHash s => ∀ client x,
      FirstOwner replicas (fun y => (Selector.consistentHash s).Holds y) client x →
        Platform.hash b.toString ∉ ringPositions replicas x
  -- nothing is stored under the text
  | .leastConnections s => s.handlePool b.toString = none
  -- what is stored under the text is not the lowest, and another node is
  | .leastResponseTime s => ∀ k, s.handlePool b.toString = some k → ∃ j, j ≠ k ∧ LowestAt s j

/-- Later selections do not depend on how a heap breaks ties. -/
def Determined : Selector → Prop
  | .leastConnections s => s.Pooled
  | .leastResponseTime s => s.Pooled ∧ ∃ j, LowestAt s j
  | _ => True

/-! ## Selections in a row -/

theorem selectAll_cons (s : Selector) (client : Endpoint) (clients : List Endpoint) :
    s.selectAll (client :: clients) =
      (s.selectBackend client).1 :: (s.selectBackend client).2.selectAll clients := rfl

/-- Selections that change nothing are made from one state. -/
theorem selectAll_eq_map {s : Selector} (hs : ∀ client, (s.selectBackend client).2 = s)
    (clients : List Endpoint) :
    s.selectAll clients = clients.map fun client => (s.selectBackend client).1 := by
  induction clients with
  | nil => rfl
  | cons client clients ih => rw [selectAll_cons, hs client, ih, List.map_cons]

theorem Alike.first {s : Selector} {b : Backend} (h : s.Alike b) (client : Endpoint) :
    ((s.excludeBackend b).2.selectBackend client).1 = (s.selectBackend client).1 :=
  (List.cons.inj (h [client])).1

theorem alike_of_first {s : Selector} {b : Backend}
    (hs : ∀ client, (s.selectBackend client).2 = s)
    (hafter : ∀ client, ((s.excludeBackend b).2.selectBackend client).2 = (s.excludeBackend b).2)
    (hfirst : ∀ client,
      ((s.excludeBackend b).2.selectBackend client).1 = (s.selectBackend client).1) :
    s.Alike b := by
  intro clients
  rw [selectAll_eq_map hs, selectAll_eq_map hafter]
  exact List.map_congr_left fun client _ => hfirst client

theorem alike_of_same {s : Selector} {b : Backend} (h : (s.excludeBackend b).2 = s) :
    s.Alike b := by
  intro clients
  rw [h]

theorem selectable_of_mem_selectAll [LawfulPairingHeap] {s : Selector} (hs : s.Inv)
    {clients : List Endpoint} {x : Backend} (h : .returned x ∈ s.selectAll clients) :
    s.Selectable x := by
  induction clients generalizing s with
  | nil => exact absurd h List.not_mem_nil
  | cons client clients ih =>
      rw [selectAll_cons, List.mem_cons] at h
      rcases h with h | h
      · exact selectable_of_selectBackend hs h.symm
      · have hsame := sameBackends_selectBackend hs client
        exact (hsame.selectable x).mp (ih (hsame.inv hs) h)

/-! ## Reachable selectors -/

/-- The heap of the selector, if it has one, is in order. -/
def HeapInOrder : Selector → Prop
  | .leastConnections s => Ordered s.backends
  | .leastResponseTime s => Ordered s.backends
  | _ => True

section Reachable

variable [OrderedPairingHeap]

theorem later_useStep {s t : Selector} {use : Use} (hs : s.Inv) (h : UseStep s use t) :
    Later s t := by
  cases use with
  | call call => exact later_callStep hs h
  | increaseConnectionCount b =>
      obtain rfl : _ = t := h
      exact (sameBackends_increaseConnectionCount s b).later hs
  | decreaseConnectionCount b =>
      obtain rfl : _ = t := h
      exact (sameBackends_decreaseConnectionCount s b).later hs
  | addResponseTime b r =>
      obtain rfl : _ = t := h
      exact (sameBackends_addResponseTime s b r).later hs

theorem heapInOrder_selectBackend {s : Selector} (hs : s.Inv) (hordered : s.HeapInOrder)
    (client : Endpoint) : (s.selectBackend client).2.HeapInOrder := by
  cases s with
  | leastConnections s =>
      have hstep : LeastConnectionsSelector.CallStep s
          (.select client (s.selectBackend client).1) (s.selectBackend client).2 := rfl
      exact LeastConnectionsSelector.ordered_callStep hs hordered hstep
  | leastResponseTime s =>
      have hstep : LeastResponseTimeSelector.CallStep s
          (.select client (s.selectBackend client).1) (s.selectBackend client).2 := rfl
      exact LeastResponseTimeSelector.ordered_callStep hordered hstep
  | _ => trivial

theorem heapInOrder_excludeBackend {s : Selector} (hordered : s.HeapInOrder) (b : Backend) :
    (s.excludeBackend b).2.HeapInOrder := by
  cases s with
  | leastConnections s => exact HeapPool.ordered_excludeBackend hordered b
  | leastResponseTime s => exact HeapPool.ordered_excludeBackend hordered b
  | _ => trivial

theorem heapInOrder_useStep {s t : Selector} {use : Use} (hs : s.Inv) (hordered : s.HeapInOrder)
    (h : UseStep s use t) : t.HeapInOrder := by
  cases use with
  | call call =>
      cases call with
      | select client result =>
          obtain rfl : _ = t := congrArg Prod.snd h
          exact heapInOrder_selectBackend hs hordered client
      | exclude b result =>
          obtain rfl : _ = t := congrArg Prod.snd h
          exact heapInOrder_excludeBackend hordered b
  | increaseConnectionCount b =>
      obtain rfl : _ = t := h
      cases s with
      | leastConnections s =>
          exact HeapPool.ordered_updateEntry hordered b LeastConnectionsSelector.countUp
      | _ => exact hordered
  | decreaseConnectionCount b =>
      obtain rfl : _ = t := h
      cases s with
      | leastConnections s =>
          exact HeapPool.ordered_updateEntry hordered b LeastConnectionsSelector.countDown
      | _ => exact hordered
  | addResponseTime b r =>
      obtain rfl : _ = t := h
      cases s with
      | leastResponseTime s =>
          exact HeapPool.ordered_updateEntry hordered b (LeastResponseTimeSelector.addSample r)
      | _ => exact hordered

theorem heapInOrder_configure {type : SelectorType} {replicas : Nat} {config : Node} {s : Selector}
    (h : configure type replicas config = .ok s) : s.HeapInOrder := by
  cases type with
  | leastConnections =>
      obtain ⟨s, hs, rfl⟩ := Except.map_eq_ok.mp h
      exact LeastConnectionsSelector.ordered_configure hs
  | leastResponseTime =>
      obtain ⟨s, hs, rfl⟩ := Except.map_eq_ok.mp h
      exact LeastResponseTimeSelector.ordered_configure hs
  | _ =>
      obtain ⟨s, -, rfl⟩ := Except.map_eq_ok.mp h
      trivial

/-- What holds of every reachable selector. -/
theorem reachable_run {s t : Selector} {uses : List Use} (hs : s.Inv) (hordered : s.HeapInOrder)
    (hrun : Run UseStep s uses t) : Later s t ∧ t.HeapInOrder :=
  hrun.invariant (I := fun u => Later s u ∧ u.HeapInOrder)
    (fun _ _ _ hu hstep => ⟨hu.1.trans (later_useStep hu.1.inv hstep),
      heapInOrder_useStep hu.1.inv hu.2 hstep⟩) ⟨.refl hs, hordered⟩

end Reachable

/-- A hash ring selector is changed by calls of the interface only. -/
theorem calls_of_uses {c : ConsistentHashSelector} {t : Selector} {uses : List Use}
    (hrun : Run UseStep (.consistentHash c) uses t) :
    ∃ calls d, Run CallStep (.consistentHash c) calls t ∧ t = .consistentHash d := by
  induction hrun with
  | nil => exact ⟨[], c, .nil _, rfl⟩
  | @snoc t u uses use hrun hstep ih =>
      obtain ⟨calls, d, hcalls, rfl⟩ := ih
      cases use with
      | call call =>
          have hrun' := Run.snoc hcalls hstep
          rcases consistentHash_callStep hstep with rfl | ⟨b, rfl⟩
          · exact ⟨_, d, hrun', rfl⟩
          · exact ⟨_, _, hrun', rfl⟩
      | _ =>
          obtain rfl : _ = u := hstep
          exact ⟨calls, d, hcalls, rfl⟩

/-! ## The round robins and the hash of addresses -/

theorem alike_roundRobin {s : RoundRobinSelector} {b : Backend} (hb : b ∉ s.backends) :
    Alike (.roundRobin s) b := by
  apply alike_of_same
  exact congrArg Selector.roundRobin (RoundRobinSelector.excludeBackend_of_not_mem hb)

theorem alike_ipHash {s : IpHashSelector} {b : Backend} (hb : b ∉ s.backends) :
    Alike (.ipHash s) b := by
  apply alike_of_same
  exact congrArg Selector.ipHash (IpHashSelector.excludeBackend_of_not_mem hb)

/-- The cursor goes back to the first entry, and progress stays. -/
theorem excludeBackend_notHeld {s : WeightedRoundRobinSelector} {b : Backend} (hb : b ∉ s.held) :
    (s.excludeBackend b).2 = { s with counter := 0 } := by
  have hfind : s.backends.findIdx? (fun e => e.backend == b) = none := by
    rw [List.findIdx?_eq_none_iff]
    intro e he
    simpa using fun heq : e.backend = b => hb (heq ▸ List.mem_map_of_mem he)
  unfold WeightedRoundRobinSelector.excludeBackend WeightedRoundRobinSelector.eraseFirst
  simp only [hfind]

theorem alike_weightedRoundRobin {s : WeightedRoundRobinSelector} {b : Backend} (hb : b ∉ s.held)
    (hcounter : s.counter = 0) : Alike (.weightedRoundRobin s) b := by
  apply alike_of_same
  refine congrArg Selector.weightedRoundRobin ((excludeBackend_notHeld hb).trans ?_)
  rw [← hcounter]

/-- From another cursor, the next selection is another one. -/
theorem counter_of_alike {s : WeightedRoundRobinSelector} (hs : s.counter < s.held.length)
    (hnd : s.held.Nodup) {b : Backend} (hb : b ∉ s.held) (h : Alike (.weightedRoundRobin s) b)
    (client : Endpoint) : s.counter = 0 := by
  have hpos : 0 < s.held.length := by omega
  have hfirst : Outcome.access s.held[0]? = .access s.held[s.counter]? := by
    have hbefore : (Selector.selectBackend client (.weightedRoundRobin s)).1 = _ :=
      s.selectBackend_fst client
    have hafter : ((Selector.excludeBackend b (.weightedRoundRobin s)).2.selectBackend client).1 =
        _ := (s.excludeBackend b).2.selectBackend_fst client
    rw [excludeBackend_notHeld hb] at hafter
    exact hafter.symm.trans ((h.first client).trans hbefore)
  rw [List.getElem?_eq_getElem hpos, List.getElem?_eq_getElem hs] at hfirst
  exact ((hnd.getElem_inj_iff).mp (Outcome.returned.inj hfirst)).symm

/-! ## The hash ring -/

/-- Where no client goes to the owner of the hash of the text, no client moves. -/
theorem alike_consistentHash {replicas : Nat} {c : ConsistentHashSelector}
    (hc : CanonicalRing replicas c.ring) {x b : Backend} (hx : c.ring.Holds x)
    (h : Undisturbed replicas b (.consistentHash c)) : Alike (.consistentHash c) b := by
  refine alike_of_first (fun _ => rfl) (fun _ => rfl) fun client => ?_
  obtain ⟨y, hy⟩ := hc.select_returns hx client
  have hfirst := hc.select_iff.mp hy
  have hkept : (c.ring.eraseNode traits b).Holds y :=
    hc.holds_eraseNode.mpr ⟨hfirst.listed, h client y hfirst⟩
  rw [hy]
  exact hc.select_eraseNode hy hkept

/-- A client of the owner of the hash of the text moves. -/
theorem undisturbed_consistentHash {replicas : Nat} {c : ConsistentHashSelector}
    (hc : CanonicalRing replicas c.ring) {b : Backend} (h : Alike (.consistentHash c) b) :
    Undisturbed replicas b (.consistentHash c) := by
  intro client x hfirst
  have hselect := hc.select_iff.mpr hfirst
  have hafter : ((Selector.consistentHash ⟨c.ring.eraseNode traits b⟩).selectBackend client).1 =
      .returned x := (h.first client).trans hselect
  have hheld := ((hc.eraseNode b).select_iff.mp hafter).listed
  exact (hc.holds_eraseNode.mp hheld).2

/-! ## Least connections -/

theorem alike_leastConnections {s : LeastConnectionsSelector} {b : Backend}
    (h : s.handlePool b.toString = none) : Alike (.leastConnections s) b := by
  apply alike_of_same
  have hsame : s.excludeBackend b = (.returned (), s) := HeapPool.excludeBackend_of_unknown h
  exact congrArg (fun p => Selector.leastConnections p.2) hsame

/-- What is stored under the text is selected some time, but not after it was taken. -/
theorem undisturbed_leastConnections [OrderedPairingHeap] {s : LeastConnectionsSelector}
    (hs : s.Named) (hordered : Ordered s.backends) {bs : List Backend}
    (hbs : ∀ y, s.Holds y → y ∈ bs) {b : Backend} (h : Alike (.leastConnections s) b)
    (client : Endpoint) : s.handlePool b.toString = none := by
  by_contra hsome
  obtain ⟨k, hk⟩ := Option.ne_none_iff_exists'.mp hsome
  obtain ⟨w, hw, hname⟩ := hs.keyed b.toString k hk
  have hcounts : s.Counts w.b w.counter := ⟨k, w, hw, rfl, rfl⟩
  obtain ⟨n, hn⟩ := LeastConnectionsSelector.exists_selected hs hordered hbs hcounts client
  rw [← h (List.replicate n client)] at hn
  have hinv : (Selector.excludeBackend b (.leastConnections s)).2.Inv :=
    HeapPool.keyed_excludeBackend hs.keyed b
  have hheld : (s.excludeBackend b).2.Holds w.b := selectable_of_mem_selectAll hinv hn
  obtain ⟨v, hv⟩ := HeapPool.holds_iff_stores.mp hheld
  exact ((HeapPool.stores_excludeBackend hs).mp hv).2 hname.symm

/-! ## Least response time -/

/-- The lowest node is the one that is selected. -/
theorem selectBackend_of_lowestAt [OrderedPairingHeap] {s : LeastResponseTimeSelector}
    (hordered : Ordered s.backends) {j : Handle} (hj : LowestAt s j) :
    ∃ w, find s.backends j = some w ∧
      ∀ client, s.selectBackend client = (.returned w.backend, s) := by
  obtain ⟨w, hw, hlow⟩ := hj
  refine ⟨w, hw, fun client => ?_⟩
  have hne : MutableHeap.isEmpty s.backends = false := (isEmpty_eq_false_iff _).mpr ⟨j, w, hw⟩
  obtain ⟨v, htop⟩ := HeapPool.topEntry_returns hne
  obtain ⟨k, -, hk⟩ := HeapPool.topEntry_returned htop
  have hleast := HeapPool.topEntry_max hordered htop hw
  have hkj : k = j := by
    by_contra hkj
    have hlt := hlow k v hk hkj
    have hle : ¬ v.responseTimeEma > w.responseTimeEma := of_decide_eq_false hleast
    exact hle hlt
  rw [hkj, hw] at hk
  unfold LeastResponseTimeSelector.selectBackend
  rw [htop, Option.some.inj hk]

theorem alike_leastResponseTime [OrderedPairingHeap] {replicas : Nat}
    {s : LeastResponseTimeSelector} (hs : s.Keyed) (hordered : Ordered s.backends) {b : Backend}
    (h : Undisturbed replicas b (.leastResponseTime s)) : Alike (.leastResponseTime s) b := by
  cases hb : s.handlePool b.toString with
  | none =>
      apply alike_of_same
      have hsame : s.excludeBackend b = (.returned (), s) :=
        HeapPool.excludeBackend_of_unknown hb
      exact congrArg (fun p => Selector.leastResponseTime p.2) hsame
  | some k =>
      obtain ⟨j, hne, hlow⟩ := h k hb
      have hafter : LowestAt (s.excludeBackend b).2 j := by
        obtain ⟨w, hw, hmin⟩ := hlow
        refine ⟨w, ?_, fun i v hv => hmin i v (HeapPool.find_of_excludeBackend hv)⟩
        rw [LeastResponseTimeSelector.excludeBackend, HeapPool.find_excludeBackend hs, hb,
          if_neg (fun heq => hne (Option.some.inj heq).symm), hw]
      obtain ⟨w, hw, hselect⟩ := selectBackend_of_lowestAt hordered hlow
      obtain ⟨v, hv, hselect'⟩ :=
        selectBackend_of_lowestAt (HeapPool.ordered_excludeBackend hordered b) hafter
      obtain rfl : v = w :=
        Option.some.inj ((HeapPool.find_of_excludeBackend hv).symm.trans hw)
      refine alike_of_first (fun client => ?_) (fun client => ?_) fun client => ?_
      · exact congrArg (fun p => Selector.leastResponseTime p.2) (hselect client)
      · exact congrArg (fun p => Selector.leastResponseTime p.2) (hselect' client)
      · exact (congrArg Prod.fst (hselect' client)).trans (congrArg Prod.fst (hselect client)).symm

/-- The lowest node is not stored under the text. -/
theorem undisturbed_leastResponseTime [OrderedPairingHeap] {replicas : Nat}
    {s : LeastResponseTimeSelector} (hs : s.Named) (hordered : Ordered s.backends) {j : Handle}
    (hj : LowestAt s j) {b : Backend} (h : Alike (.leastResponseTime s) b) (client : Endpoint) :
    Undisturbed replicas b (.leastResponseTime s) := by
  intro k hk
  refine ⟨j, ?_, hj⟩
  rintro rfl
  obtain ⟨w, hw, hselect⟩ := selectBackend_of_lowestAt hordered hj
  have hafter : (Selector.selectBackend client (.leastResponseTime (s.excludeBackend b).2)).1 =
      .returned w.backend := (h.first client).trans (congrArg Prod.fst (hselect client))
  have hinv : (Selector.excludeBackend b (.leastResponseTime s)).2.Inv :=
    HeapPool.keyed_excludeBackend hs.keyed b
  have hheld : (s.excludeBackend b).2.Holds w.backend :=
    selectable_of_selectBackend hinv hafter
  obtain ⟨v, hv⟩ := HeapPool.holds_iff_stores.mp hheld
  exact ((HeapPool.stores_excludeBackend hs).mp hv).2 ((hs.handle_iff hw _).mp hk).symm

/-! ## All selectors -/

/-- A reachable hash ring selector without collisions has a ring of its own labels. -/
theorem canonicalRing_uses {replicas : Nat} {config : Node} {missed : String} {bs : List Backend}
    {s : Selector} {c : ConsistentHashSelector} {uses : List Use} (hr : 1 ≤ replicas)
    (hsize : replicas < 2 ^ 64) (h : configure .consistentHash replicas config = .ok s)
    (hbs : configuredBackends missed config = .ok bs)
    (hpos : (bs.flatMap (ringPositions replicas)).Nodup)
    (hrun : Run UseStep s uses (.consistentHash c)) : CanonicalRing replicas c.ring := by
  obtain ⟨d, rfl, -⟩ := canonicalRing_configure hr hsize h hbs hpos
  obtain ⟨calls, -, hcalls, -⟩ := calls_of_uses hrun
  have hfree : CollisionFree replicas (.consistentHash c) :=
    ⟨config, missed, bs, _, calls, h, hbs, hpos, hcalls⟩
  obtain ⟨c', hc', hring⟩ := hfree.canonicalRing hr hsize
  cases hc'
  exact hring

/-- In every run of a selector configured with distinct backends, on a hash ring without
    collisions, the exclusion of a backend that is not held leaves all later selections as
    they were if it is undisturbed, and, where they do not depend on how a heap breaks ties,
    only then. -/
theorem lateExclusion_alike [OrderedPairingHeap] [LawfulSort] {type : SelectorType}
    {replicas : Nat} {config : Node} {missed : String} {bs : List Backend} {s t : Selector}
    {uses : List Use} {x b : Backend} (hr : 1 ≤ replicas) (hsize : replicas < 2 ^ 64)
    (h : configure type replicas config = .ok s)
    (hbs : configuredBackends missed config = .ok bs) (hnd : bs.Nodup)
    (hpos : type = .consistentHash → (bs.flatMap (ringPositions replicas)).Nodup)
    (hrun : Run UseStep s uses t) (hx : t.Holds x) (hb : ¬ t.Holds b) (client : Endpoint) :
    (t.Undisturbed replicas b → t.Alike b) ∧
      (t.Determined → (t.Alike b ↔ t.Undisturbed replicas b)) := by
  obtain ⟨htype, hs, bs', hbs', hholds, haddr⟩ := configure_spec h
  obtain rfl : bs = bs' := Except.ok.inj (hbs.symm.trans (hbs' missed))
  obtain ⟨hlater, hordered⟩ := reachable_run hs (heapInOrder_configure h) hrun
  have htype : t.type = type := hlater.type.trans htype
  suffices hboth : (t.Undisturbed replicas b → t.Alike b) ∧
      (t.Determined → t.Alike b → t.Undisturbed replicas b) from
    ⟨hboth.1, fun hdetermined => ⟨hboth.2 hdetermined, hboth.1⟩⟩
  cases t with
  | roundRobin t => exact ⟨fun _ => alike_roundRobin hb, fun _ _ => trivial⟩
  | ipHash t => exact ⟨fun _ => alike_ipHash hb, fun _ _ => trivial⟩
  | weightedRoundRobin t =>
      subst htype
      have hheld : t.held.Nodup := hlater.addressable (haddr.mpr hnd)
      have hlt : t.counter < t.held.length := by
        rw [WeightedRoundRobinSelector.held, List.length_map]
        refine hlater.inv.resolve_right fun hnil => ?_
        have hmem : x ∈ t.backends.map WeightWrapper.backend := hx
        simp [hnil] at hmem
      exact ⟨alike_weightedRoundRobin hb,
        fun _ halike => counter_of_alike hlt hheld hb halike client⟩
  | consistentHash c =>
      subst htype
      have hring := canonicalRing_uses hr hsize h hbs (hpos rfl) hrun
      exact ⟨alike_consistentHash hring hx, fun _ => undisturbed_consistentHash hring⟩
  | leastConnections t =>
      refine ⟨alike_leastConnections, fun hpooled halike => ?_⟩
      have hnamed : t.Named := ⟨hlater.inv, hpooled⟩
      exact undisturbed_leastConnections hnamed hordered
        (fun y hy => (hholds y).mp (hlater.holds y hy)) halike client
  | leastResponseTime t =>
      refine ⟨alike_leastResponseTime hlater.inv hordered, fun hdetermined halike => ?_⟩
      obtain ⟨hpooled, j, hj⟩ := hdetermined
      have hnamed : t.Named := ⟨hlater.inv, hpooled⟩
      exact undisturbed_leastResponseTime hnamed hordered hj halike client

end Selector

end

namespace Selector

section

open Reference

/-- Three entries of weight one. -/
def threeWeighted : Selector :=
  .weightedRoundRobin ⟨[⟨port80, 1, 0⟩, ⟨port81, 1, 0⟩, ⟨port82, 1, 0⟩], 0⟩

/-- Port 82 is excluded, and port 80 was selected since. -/
def betweenExclusions : Selector := .weightedRoundRobin ⟨[⟨port80, 1, 0⟩, ⟨port81, 1, 0⟩], 1⟩

def firstExclusion : List Use :=
  [.call (.exclude port82 (.returned ())), .call (.select somebody (.returned port80))]

theorem run_betweenExclusions : Run UseStep threeWeighted firstExclusion betweenExclusions := by
  have hexclude : UseStep threeWeighted (.call (.exclude port82 (.returned ())))
      (.weightedRoundRobin ⟨[⟨port80, 1, 0⟩, ⟨port81, 1, 0⟩], 0⟩) := by rfl
  have hselect : UseStep (.weightedRoundRobin ⟨[⟨port80, 1, 0⟩, ⟨port81, 1, 0⟩], 0⟩)
      (.call (.select somebody (.returned port80))) betweenExclusions := by rfl
  exact .cons hexclude (.one hselect)

theorem lateExclusion_twoWeighted : twoWeighted.Alike port82 := by
  have h : configure .weightedRoundRobin 1 twoEntries = .ok twoWeighted := by rfl
  have hbs : configuredBackends "" twoEntries = .ok [port80, port81] := by rfl
  have hheld : twoWeighted.Holds port80 := List.mem_cons_self
  have hnot : port82 ∉ [port80, port81] := by decide
  exact (lateExclusion_alike (by decide) (by decide) h hbs (by decide) (fun h => by cases h)
    (.nil _) hheld hnot somebody).1 rfl

/-- The second client that port 82 refused excludes it again, and port 80 is selected twice in
    a row. -/
theorem not_alike_betweenExclusions :
    configure .weightedRoundRobin 1 threeEntries = .ok threeWeighted ∧
      Run UseStep threeWeighted firstExclusion betweenExclusions ∧
      (betweenExclusions.selectBackend somebody).1 = .returned port81 ∧
      ((betweenExclusions.excludeBackend port82).2.selectBackend somebody).1 = .returned port80 ∧
      ¬ betweenExclusions.Alike port82 := by
  have hbefore : (betweenExclusions.selectBackend somebody).1 = .returned port81 := by rfl
  have hafter : ((betweenExclusions.excludeBackend port82).2.selectBackend somebody).1 =
      .returned port80 := by rfl
  refine ⟨by rfl, run_betweenExclusions, hbefore, hafter, fun halike => ?_⟩
  have heq : port80 = port81 :=
    Outcome.returned.inj (hafter.symm.trans ((halike.first somebody).trans hbefore))
  exact absurd heq (by decide)

end

end Selector

end LoadBalancer
