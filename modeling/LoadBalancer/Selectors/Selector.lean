/-
  `ISelector`: the six selectors behind one interface, and `DetectSelector`.

  `Holds s b` says that `b` is stored, which is what the selector's own emptiness test
  `isEmpty` looks at; `Selectable s b` says that a selection can reach `b`. The two differ for
  the hash ring, which tests its list of nodes and selects from its positions. `Inv` holds in
  every state that `Configure` and later calls produce. `Addressable` says that the key an
  exclusion uses leads to the backend it names, for every selectable backend; it is what
  repeated names, repeated endpoints and colliding ring positions can break.
-/
import LoadBalancer.Selectors.RoundRobin
import LoadBalancer.Selectors.WeightedRoundRobin
import LoadBalancer.Selectors.IpHash
import LoadBalancer.Selectors.ConsistentHash
import LoadBalancer.Selectors.LeastConnections
import LoadBalancer.Selectors.LeastResponseTime

namespace LoadBalancer

variable [Platform]

inductive Selector where
  | roundRobin (s : RoundRobinSelector)
  | weightedRoundRobin (s : WeightedRoundRobinSelector)
  | ipHash (s : IpHashSelector)
  | consistentHash (s : ConsistentHashSelector)
  | leastConnections (s : LeastConnectionsSelector)
  | leastResponseTime (s : LeastResponseTimeSelector)

namespace Selector

def type : Selector → SelectorType
  | .roundRobin _ => .roundRobin
  | .weightedRoundRobin _ => .weightedRoundRobin
  | .ipHash _ => .ipHash
  | .consistentHash _ => .consistentHash
  | .leastConnections _ => .leastConnections
  | .leastResponseTime _ => .leastResponseTime

def selectBackend (client : Endpoint) : Selector → Outcome Backend × Selector
  | .roundRobin s => (s.selectBackend client).map id .roundRobin
  | .weightedRoundRobin s => (s.selectBackend client).map id .weightedRoundRobin
  | .ipHash s => (s.selectBackend client).map id .ipHash
  | .consistentHash s => (s.selectBackend client).map id .consistentHash
  | .leastConnections s => (s.selectBackend client).map id .leastConnections
  | .leastResponseTime s => (s.selectBackend client).map id .leastResponseTime

def excludeBackend (backend : Backend) : Selector → Outcome Unit × Selector
  | .roundRobin s => (s.excludeBackend backend).map id .roundRobin
  | .weightedRoundRobin s => (s.excludeBackend backend).map id .weightedRoundRobin
  | .ipHash s => (s.excludeBackend backend).map id .ipHash
  | .consistentHash s => (s.excludeBackend backend).map id .consistentHash
  | .leastConnections s => (s.excludeBackend backend).map id .leastConnections
  | .leastResponseTime s => (s.excludeBackend backend).map id .leastResponseTime

/-- `Configure` of a new selector; `replicas` is read by the hash ring only. -/
def configure (type : SelectorType) (replicas : Nat) (config : Node) :
    Except Exception Selector :=
  match type with
  | .roundRobin => .roundRobin <$> RoundRobinSelector.configure config
  | .weightedRoundRobin => .weightedRoundRobin <$> WeightedRoundRobinSelector.configure config
  | .ipHash => .ipHash <$> IpHashSelector.configure config
  | .consistentHash => .consistentHash <$> ConsistentHashSelector.configure replicas config
  | .leastConnections => .leastConnections <$> LeastConnectionsSelector.configure config
  | .leastResponseTime => .leastResponseTime <$> LeastResponseTimeSelector.configure config

/-- `selector_switch` -/
def selectorSwitch : List (String × SelectorType) :=
  [("round_robin", .roundRobin),
   ("weighted_round_robin", .weightedRoundRobin),
   ("consistent_hash", .consistentHash),
   ("ip_hash", .ipHash),
   ("least_connections", .leastConnections),
   ("least_response_time", .leastResponseTime)]

def detectSelector (node : Node) : Except Exception Selector := do
  let balancing ← node.get "load_balancing"
  if !balancing.isDefined then
    throw (.runtimeError "Load balancing node missed in configs")
  else
    let algorithm ← balancing.get "algorithm"
    if !algorithm.isDefined then
      throw (.runtimeError "Missed algorithm field!")
    else
      let name ← algorithm.asString
      match selectorSwitch.lookup name with
      | none => throw (.runtimeError ("Unknown balancing algorithm: " ++ name))
      | some .consistentHash => do
        let replicas ← (← balancing.get "replicas").asSize
        if replicas = 0 then throw (.runtimeError "Missed replicas field!")
        else configure .consistentHash replicas balancing
      | some type => configure type 1 balancing

/-- The selector's own emptiness test. -/
def isEmpty : Selector → Bool
  | .roundRobin s => s.backends.isEmpty
  | .weightedRoundRobin s => s.backends.isEmpty
  | .ipHash s => s.backends.isEmpty
  | .consistentHash s => s.ring.isEmpty
  | .leastConnections s => MutableHeap.isEmpty s.backends
  | .leastResponseTime s => MutableHeap.isEmpty s.backends

/-- The selectors that test for emptiness only where the excluded name is found. -/
def heapBased : Selector → Bool
  | .leastConnections _ | .leastResponseTime _ => true
  | _ => false

def Holds (b : Backend) : Selector → Prop
  | .roundRobin s => b ∈ s.backends
  | .weightedRoundRobin s => b ∈ s.held
  | .ipHash s => b ∈ s.backends
  | .consistentHash s => s.ring.Holds b
  | .leastConnections s => HeapPool.Holds s b
  | .leastResponseTime s => HeapPool.Holds s b

def Selectable (b : Backend) : Selector → Prop
  | .consistentHash s => s.ring.OnRing b
  | s => s.Holds b

def Inv : Selector → Prop
  | .weightedRoundRobin s => s.Inv
  | .consistentHash s => s.ring.Inv
  | .leastConnections s => HeapPool.Keyed s
  | .leastResponseTime s => HeapPool.Keyed s
  | _ => True

def Addressable : Selector → Prop
  | .weightedRoundRobin s => s.held.Nodup
  | .consistentHash s => s.ring.OwnsPrimary BackendCHTraits.traits
  | .leastConnections s => HeapPool.Pooled s
  | .leastResponseTime s => HeapPool.Pooled s
  | _ => True

/-- The endpoints for which `Addressable` holds of the configured selector. -/
def Distinguishable (replicas : Nat) (bs : List Backend) : SelectorType → Prop
  | .weightedRoundRobin => bs.Nodup
  | .consistentHash => Router.KeepsPrimary BackendCHTraits.traits replicas bs
  | .leastConnections | .leastResponseTime => (bs.map Backend.toString).Nodup
  | .roundRobin | .ipHash => True

theorem Selectable.holds {s : Selector} {b : Backend} (h : s.Selectable b) : s.Holds b := by
  cases s with
  | consistentHash s => exact Router.OnRing.holds h
  | _ => exact h

section Emptiness

variable [LawfulPairingHeap]

/-- A selector's own emptiness test is exact. -/
theorem isEmpty_eq_false {s : Selector} : s.isEmpty = false ↔ ∃ b, s.Holds b := by
  cases s with
  | roundRobin s => exact List.isEmpty_eq_false_iff_exists_mem
  | weightedRoundRobin s =>
      have hmap : s.held.isEmpty = s.backends.isEmpty := List.isEmpty_map
      show s.backends.isEmpty = false ↔ ∃ b, b ∈ s.held
      rw [← hmap, List.isEmpty_eq_false_iff_exists_mem]
  | ipHash s => exact List.isEmpty_eq_false_iff_exists_mem
  | consistentHash s => exact Router.isEmpty_eq_false
  | leastConnections s => exact HeapPool.isEmpty_eq_false s
  | leastResponseTime s => exact HeapPool.isEmpty_eq_false s

theorem isEmpty_eq_true {s : Selector} : s.isEmpty = true ↔ ∀ b, ¬ s.Holds b := by
  rw [← Bool.not_eq_false, isEmpty_eq_false, not_exists]

end Emptiness

/-! ## Configuration -/

/-- What `Configure` produces: the endpoints of the configuration, each of them stored, and
    addressable exactly when the endpoints are distinguishable. -/
theorem configure_spec [LawfulPairingHeap] [LawfulSort] {type : SelectorType} {replicas : Nat}
    {config : Node} {s : Selector} (h : configure type replicas config = .ok s) :
    s.type = type ∧ s.Inv ∧ ∃ bs, (∀ missed, configuredBackends missed config = .ok bs) ∧
      (∀ b, s.Holds b ↔ b ∈ bs) ∧ (s.Addressable ↔ Distinguishable replicas bs type) := by
  cases type with
  | roundRobin =>
      obtain ⟨s, hs, rfl⟩ := Except.map_eq_ok.mp h
      obtain ⟨bs, hbs, rfl⟩ := RoundRobinSelector.configure_eq_ok hs
      exact ⟨rfl, trivial, bs, hbs, fun b => Iff.rfl, Iff.rfl⟩
  | weightedRoundRobin =>
      obtain ⟨s, hs, rfl⟩ := Except.map_eq_ok.mp h
      obtain ⟨bs, hbs, hperm⟩ := WeightedRoundRobinSelector.held_configure hs
      exact ⟨rfl, WeightedRoundRobinSelector.inv_configure hs, bs,
        configuredBackends_missed hbs, fun b => hperm.mem_iff, hperm.nodup_iff⟩
  | ipHash =>
      obtain ⟨s, hs, rfl⟩ := Except.map_eq_ok.mp h
      obtain ⟨bs, hbs, rfl⟩ := IpHashSelector.configure_eq_ok hs
      exact ⟨rfl, trivial, bs, hbs, fun b => Iff.rfl, Iff.rfl⟩
  | consistentHash =>
      obtain ⟨s, hs, rfl⟩ := Except.map_eq_ok.mp h
      obtain ⟨bs, hbs, hring⟩ := ConsistentHashSelector.configure_eq_ok hs
      refine ⟨rfl, Router.inv_emplaceAll (Router.inv_new _) hring, bs,
        configuredBackends_missed hbs, fun b => ?_, Router.ownsPrimary_emplaceAll_new hring⟩
      have hnew : ¬ (Router.new replicas : Router Backend).Holds b := by
        intro hex
        obtain ⟨it, h⟩ := hex
        exact List.not_mem_nil h
      exact (Router.holds_emplaceAll hring).trans (or_iff_left hnew)
  | leastConnections =>
      obtain ⟨s, hs, rfl⟩ := Except.map_eq_ok.mp h
      obtain ⟨bs, hbs, rfl⟩ := LeastConnectionsSelector.configure_eq_ok hs
      exact ⟨rfl, LeastConnectionsSelector.keyed_configure hs, bs, hbs,
        fun b => HeapPool.holds_insertAll_new fun _ => rfl,
        HeapPool.pooled_insertAll_new fun _ => rfl⟩
  | leastResponseTime =>
      obtain ⟨s, hs, rfl⟩ := Except.map_eq_ok.mp h
      obtain ⟨bs, hbs, rfl⟩ := LeastResponseTimeSelector.configure_eq_ok hs
      exact ⟨rfl, HeapPool.keyed_insertAll HeapPool.keyed_new bs, bs, hbs,
        fun b => HeapPool.holds_insertAll_new fun _ => rfl,
        HeapPool.pooled_insertAll_new fun _ => rfl⟩

/-! ## Selection -/

/-- Two selectors that differ in scheduling state only. -/
structure SameBackends (s t : Selector) : Prop where
  type : t.type = s.type
  holds : ∀ b, t.Holds b ↔ s.Holds b
  selectable : ∀ b, t.Selectable b ↔ s.Selectable b
  inv : s.Inv → t.Inv
  addressable : s.Addressable → t.Addressable

theorem SameBackends.refl (s : Selector) : SameBackends s s :=
  ⟨rfl, fun _ => Iff.rfl, fun _ => Iff.rfl, id, id⟩

section Lawful

variable [LawfulPairingHeap]

theorem sameBackends_leastConnections (s : LeastConnectionsSelector) (b : Backend)
    {f : CounterWrapper → Option (CounterWrapper × HeapUpdate)}
    (hf : HeapPool.KeepsBackend f) :
    SameBackends (.leastConnections s) (.leastConnections (s.updateEntry b f).2) where
  type := rfl
  holds _ := HeapPool.holds_updateEntry hf
  selectable _ := HeapPool.holds_updateEntry hf
  inv h := HeapPool.keyed_updateEntry hf h b
  addressable h := HeapPool.pooled_updateEntry hf h b

theorem sameBackends_leastResponseTime (s : LeastResponseTimeSelector) (b : Backend)
    {f : AverageTimeWrapper → Option (AverageTimeWrapper × HeapUpdate)}
    (hf : HeapPool.KeepsBackend f) :
    SameBackends (.leastResponseTime s) (.leastResponseTime (s.updateEntry b f).2) where
  type := rfl
  holds _ := HeapPool.holds_updateEntry hf
  selectable _ := HeapPool.holds_updateEntry hf
  inv h := HeapPool.keyed_updateEntry hf h b
  addressable h := HeapPool.pooled_updateEntry hf h b

/-- A selection changes scheduling state only. -/
theorem sameBackends_selectBackend {s : Selector} (hs : s.Inv) (client : Endpoint) :
    SameBackends s (s.selectBackend client).2 := by
  cases s with
  | roundRobin s =>
      have hmem : ∀ b, b ∈ (s.selectBackend client).2.backends ↔ b ∈ s.backends := by simp
      exact ⟨rfl, hmem, hmem, id, id⟩
  | weightedRoundRobin s =>
      have hheld : (s.selectBackend client).2.held = s.held := s.held_selectBackend client
      have hmem : ∀ b, b ∈ (s.selectBackend client).2.held ↔ b ∈ s.held := by simp [hheld]
      refine ⟨rfl, hmem, hmem, fun h => WeightedRoundRobinSelector.inv_selectBackend h client, ?_⟩
      show s.held.Nodup → (s.selectBackend client).2.held.Nodup
      rw [hheld]
      exact id
  | ipHash s =>
      have hsame : (s.selectBackend client).2 = s := s.selectBackend_snd client
      show SameBackends _ (.ipHash (s.selectBackend client).2)
      rw [hsame]
      exact .refl _
  | consistentHash s => exact .refl _
  | leastConnections s =>
      show SameBackends _ (.leastConnections (s.selectBackend client).2)
      rcases LeastConnectionsSelector.selectBackend_cases hs client with ⟨entry, -, h⟩ | ⟨-, h⟩
      · rw [h]
        exact sameBackends_leastConnections s _ LeastConnectionsSelector.keepsBackend_countUp
      · rw [h]
        exact .refl _
  | leastResponseTime s =>
      show SameBackends _ (.leastResponseTime (s.selectBackend client).2)
      rcases LeastResponseTimeSelector.selectBackend_cases s client with ⟨entry, -, h⟩ | ⟨-, h⟩
      all_goals
        rw [h]
        exact .refl _

omit [LawfulPairingHeap] in
theorem selectable_of_selectBackend {s : Selector} (hs : s.Inv) {client : Endpoint}
    {b : Backend} (h : (s.selectBackend client).1 = .returned b) : s.Selectable b := by
  cases s with
  | roundRobin s => exact RoundRobinSelector.mem_of_selectBackend client h
  | weightedRoundRobin s =>
      exact WeightedRoundRobinSelector.mem_of_selectBackend client h
  | ipHash s => exact IpHashSelector.mem_of_selectBackend client h
  | consistentHash s => exact Router.onRing_of_selectNode hs h
  | leastConnections s =>
      change (LeastConnectionsSelector.selectBackend s client).1 = .returned b at h
      rcases LeastConnectionsSelector.selectBackend_cases hs client with ⟨w, hw, heq⟩ | ⟨-, heq⟩
      · rw [heq] at h
        cases h
        obtain ⟨k, -, hfind⟩ := HeapPool.topEntry_returned hw
        exact ⟨k, w, hfind, rfl⟩
      · rw [heq] at h
        cases h
  | leastResponseTime s =>
      change (LeastResponseTimeSelector.selectBackend s client).1 = .returned b at h
      rcases LeastResponseTimeSelector.selectBackend_cases s client with ⟨w, hw, heq⟩ | ⟨-, heq⟩
      · rw [heq] at h
        cases h
        obtain ⟨k, -, hfind⟩ := HeapPool.topEntry_returned hw
        exact ⟨k, w, hfind, rfl⟩
      · rw [heq] at h
        cases h

/-- Where something can be selected, a selection returns. -/
theorem selectBackend_returns {s : Selector} (hs : s.Inv) {b : Backend} (hb : s.Selectable b)
    (client : Endpoint) : ∃ x, (s.selectBackend client).1 = .returned x := by
  cases s with
  | roundRobin s =>
      exact RoundRobinSelector.selectBackend_returns (List.ne_nil_of_mem hb) client
  | weightedRoundRobin s =>
      refine WeightedRoundRobinSelector.selectBackend_returns hs ?_ client
      intro hnil
      have hmem : b ∈ s.held := hb
      simp [WeightedRoundRobinSelector.held, hnil] at hmem
  | ipHash s =>
      exact IpHashSelector.selectBackend_returns (List.ne_nil_of_mem hb) client
  | consistentHash s => exact Router.selectNode_returns hs hb _
  | leastConnections s =>
      obtain ⟨w, hw⟩ := HeapPool.topEntry_returns ((HeapPool.isEmpty_eq_false s).mpr ⟨b, hb⟩)
      rcases LeastConnectionsSelector.selectBackend_cases hs client with ⟨w', -, h⟩ | ⟨h, -⟩
      · exact ⟨w'.b, congrArg Prod.fst h⟩
      · rw [hw] at h
        cases h
  | leastResponseTime s =>
      obtain ⟨w, hw⟩ := HeapPool.topEntry_returns ((HeapPool.isEmpty_eq_false s).mpr ⟨b, hb⟩)
      rcases LeastResponseTimeSelector.selectBackend_cases s client with ⟨w', -, h⟩ | ⟨h, -⟩
      · exact ⟨w'.backend, congrArg Prod.fst h⟩
      · rw [hw] at h
        cases h

/-- A selection throws only where nothing is stored. -/
theorem not_holds_of_selectBackend_thrown {s : Selector} (hs : s.Inv) {client : Endpoint}
    {e : Exception} (h : (s.selectBackend client).1 = .thrown e) (b : Backend) : ¬ s.Holds b := by
  cases s with
  | consistentHash s =>
      have hempty : s.ring.isEmpty = true := Router.isEmpty_of_selectNode_thrown h
      exact (isEmpty_eq_true (s := .consistentHash s)).mp hempty b
  | _ =>
      intro hb
      obtain ⟨x, hx⟩ := selectBackend_returns hs hb client
      rw [h] at hx
      cases hx

/-! ## Exclusion -/

/-- What an exclusion may do to the backends of a selector. -/
structure Excluded (b : Backend) (s t : Selector) : Prop where
  type : t.type = s.type
  inv : t.Inv
  holds : ∀ x, t.Holds x → s.Holds x
  selectable : ∀ x, t.Selectable x → s.Selectable x
  addressable : s.Addressable → t.Addressable
  /-- Where keys lead to the backends they name, the excluded backend is gone. -/
  gone : s.Addressable → ¬ t.Selectable b
  /-- One backend at most stops being selectable: the named one, or another in its place. -/
  stays : s.Selectable b → t.Selectable b ∨ ∀ x, s.Selectable x → x ≠ b → t.Selectable x

theorem excluded_leastConnections {s : LeastConnectionsSelector} (hs : HeapPool.Keyed s)
    (b : Backend) :
    Excluded b (.leastConnections s) (.leastConnections (HeapPool.excludeBackend s b).2) where
  type := rfl
  inv := HeapPool.keyed_excludeBackend hs b
  holds _ := HeapPool.holds_of_holds_excludeBackend hs
  selectable _ := HeapPool.holds_of_holds_excludeBackend hs
  addressable h := HeapPool.pooled_excludeBackend hs h b
  gone h := HeapPool.not_holds_excludeBackend hs h b
  stays h := HeapPool.holds_or_holds_excludeBackend hs h

theorem excluded_leastResponseTime {s : LeastResponseTimeSelector} (hs : HeapPool.Keyed s)
    (b : Backend) :
    Excluded b (.leastResponseTime s) (.leastResponseTime (HeapPool.excludeBackend s b).2) where
  type := rfl
  inv := HeapPool.keyed_excludeBackend hs b
  holds _ := HeapPool.holds_of_holds_excludeBackend hs
  selectable _ := HeapPool.holds_of_holds_excludeBackend hs
  addressable h := HeapPool.pooled_excludeBackend hs h b
  gone h := HeapPool.not_holds_excludeBackend hs h b
  stays h := HeapPool.holds_or_holds_excludeBackend hs h

theorem excluded_excludeBackend {s : Selector} (hs : s.Inv) (b : Backend) :
    Excluded b s (s.excludeBackend b).2 := by
  cases s with
  | roundRobin s =>
      have hmem : ∀ x, x ∈ (s.excludeBackend b).2.backends ↔ x ∈ s.backends ∧ x ≠ b :=
        fun x => RoundRobinSelector.mem_excludeBackend
      exact ⟨rfl, trivial, fun x h => ((hmem x).mp h).1, fun x h => ((hmem x).mp h).1, id,
        fun _ h => ((hmem b).mp h).2 rfl, fun _ => Or.inr fun x h hne => (hmem x).mpr ⟨h, hne⟩⟩
  | weightedRoundRobin s =>
      obtain ⟨hheld, hinv, -⟩ := WeightedRoundRobinSelector.excludeBackend_spec hs b
      have hsub : ∀ x, x ∈ (s.excludeBackend b).2.held → x ∈ s.held := by
        intro x hx
        rw [hheld] at hx
        exact List.mem_of_mem_erase hx
      refine ⟨rfl, hinv, hsub, hsub, ?_, ?_, ?_⟩
      · intro hnd
        show (s.excludeBackend b).2.held.Nodup
        rw [hheld]
        exact List.Nodup.erase b hnd
      · intro hnd
        show b ∉ (s.excludeBackend b).2.held
        rw [hheld]
        exact List.Nodup.not_mem_erase hnd
      · intro _
        right
        intro x hx hne
        show x ∈ (s.excludeBackend b).2.held
        rw [hheld]
        exact (List.mem_erase_of_ne hne).mpr hx
  | ipHash s =>
      have hmem : ∀ x, x ∈ (s.excludeBackend b).2.backends ↔ x ∈ s.backends ∧ x ≠ b :=
        fun x => IpHashSelector.mem_excludeBackend
      exact ⟨rfl, trivial, fun x h => ((hmem x).mp h).1, fun x h => ((hmem x).mp h).1, id,
        fun _ h => ((hmem b).mp h).2 rfl, fun _ => Or.inr fun x h hne => (hmem x).mpr ⟨h, hne⟩⟩
  | consistentHash s =>
      exact ⟨rfl, Router.inv_eraseNode hs b, fun x h => Router.holds_of_holds_eraseNode h,
        fun x h => Router.onRing_of_onRing_eraseNode h, fun h => h.eraseNode b,
        fun h => h.not_onRing b, fun h => Router.onRing_or_onRing_eraseNode hs h⟩
  | leastConnections s => exact excluded_leastConnections hs b
  | leastResponseTime s => exact excluded_leastResponseTime hs b

omit [LawfulPairingHeap] in
/-- An exclusion reports emptiness exactly, but for a heap that was empty before. -/
theorem excludeBackend_fst {s : Selector} (hs : s.Inv) (b : Backend)
    (hne : s.heapBased = true → s.isEmpty = false) :
    (s.excludeBackend b).1 = throwIfEmpty (s.excludeBackend b).2.isEmpty := by
  cases s with
  | roundRobin s => rfl
  | weightedRoundRobin s => exact (WeightedRoundRobinSelector.excludeBackend_spec hs b).2.2
  | ipHash s => rfl
  | consistentHash s => rfl
  | leastConnections s => exact HeapPool.excludeBackend_fst hs b (hne rfl)
  | leastResponseTime s => exact HeapPool.excludeBackend_fst hs b (hne rfl)

/-- On an empty heap an exclusion returns normally and changes nothing. -/
theorem excludeBackend_of_isEmpty {s : Selector} (hs : s.Inv) (b : Backend)
    (hheap : s.heapBased = true) (hempty : s.isEmpty = true) :
    s.excludeBackend b = (.returned (), s) := by
  cases s with
  | leastConnections s =>
      show ((HeapPool.excludeBackend s b).map id _) = _
      rw [HeapPool.excludeBackend_of_isEmpty hs b hempty]
      rfl
  | leastResponseTime s =>
      show ((HeapPool.excludeBackend s b).map id _) = _
      rw [HeapPool.excludeBackend_of_isEmpty hs b hempty]
      rfl
  | _ => cases hheap

end Lawful

end Selector

end LoadBalancer
