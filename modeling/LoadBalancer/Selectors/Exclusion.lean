/-
  Runs of selector calls: when an exclusion is final, and when it reports exhaustion.

  A run is any sequence of `SelectBackend` and `ExcludeBackend` calls, each recorded with how
  it ended. `Later s t` collects what every call keeps and what it can only shrink; both
  results about runs, and those about the whole connector, go through it.

  Exclusion is final exactly for distinguishable endpoints (`exclusion_final_iff`). The
  direction that needs an argument is that endpoints which are not distinguishable yield a
  run that violates it: exclude a backend that stays selectable, then, one by one, every other
  backend that still is. Each exclusion takes one backend away at most, so something excluded
  is still selectable at the end, and a selection returns it.
-/
import LoadBalancer.Lib.Transition
import LoadBalancer.Reference
import LoadBalancer.Selectors.Selector
import Mathlib.Data.List.Duplicate

namespace LoadBalancer

open Transition

section

variable [Platform]

/-- A call of the interface and how it ended. -/
inductive Call where
  | select (client : Endpoint) (result : Outcome Backend)
  | exclude (backend : Backend) (result : Outcome Unit)

/-- The backend that a call excludes. -/
def Call.excluded? : Call → Option Backend
  | .select _ _ => none
  | .exclude b _ => some b

namespace Selector

def CallStep (s : Selector) : Call → Selector → Prop
  | .select client result, t => s.selectBackend client = (result, t)
  | .exclude backend result, t => s.excludeBackend backend = (result, t)

/-- The results of selections made one after the other. -/
def selectAll (s : Selector) : List Endpoint → List (Outcome Backend)
  | [] => []
  | client :: clients =>
    (s.selectBackend client).1 :: selectAll (s.selectBackend client).2 clients

/-- No selection returns a backend after an exclusion of it returned normally. -/
def ExclusionFinal (calls : List Call) : Prop :=
  calls.Pairwise fun earlier later => ∀ b client,
    earlier = .exclude b (.returned ()) → later ≠ .select client (.returned b)

/-- `t` comes after `s` in a run. -/
structure Later (s t : Selector) : Prop where
  type : t.type = s.type
  inv : t.Inv
  holds : ∀ x, t.Holds x → s.Holds x
  selectable : ∀ x, t.Selectable x → s.Selectable x
  addressable : s.Addressable → t.Addressable

theorem Later.refl {s : Selector} (hs : s.Inv) : Later s s :=
  ⟨rfl, hs, fun _ => id, fun _ => id, id⟩

theorem Later.trans {s t u : Selector} (hst : Later s t) (htu : Later t u) : Later s u where
  type := htu.type.trans hst.type
  inv := htu.inv
  holds x h := hst.holds x (htu.holds x h)
  selectable x h := hst.selectable x (htu.selectable x h)
  addressable h := htu.addressable (hst.addressable h)

theorem SameBackends.later {s t : Selector} (h : SameBackends s t) (hs : s.Inv) : Later s t :=
  ⟨h.type, h.inv hs, fun x => (h.holds x).mp, fun x => (h.selectable x).mp, h.addressable⟩

theorem Excluded.later {b : Backend} {s t : Selector} (h : Excluded b s t) : Later s t :=
  ⟨h.type, h.inv, h.holds, h.selectable, h.addressable⟩

variable [LawfulPairingHeap]

theorem later_callStep {s t : Selector} {call : Call} (hs : s.Inv) (h : CallStep s call t) :
    Later s t := by
  cases call with
  | select client result =>
      have hsame := sameBackends_selectBackend hs client
      rw [show s.selectBackend client = (result, t) from h] at hsame
      exact hsame.later hs
  | exclude b result =>
      have hexcluded := excluded_excludeBackend hs b
      rw [show s.excludeBackend b = (result, t) from h] at hexcluded
      exact hexcluded.later

theorem later_run {s t : Selector} {calls : List Call} (hs : s.Inv)
    (hrun : Run CallStep s calls t) : Later s t :=
  hrun.invariant (fun _ _ _ h hstep => h.trans (later_callStep h.inv hstep)) (.refl hs)

/-! ## Exclusion is final -/

/-- With addressable backends, an excluded one is never selected again. -/
theorem final_of_addressable {s t : Selector} {calls : List Call} (hs : s.Inv)
    (haddr : s.Addressable) (hrun : Run CallStep s calls t) :
    ExclusionFinal calls ∧
      ∀ b, .exclude b (.returned ()) ∈ calls → ¬ t.Selectable b := by
  induction hrun with
  | nil => exact ⟨.nil, fun b h => absurd h List.not_mem_nil⟩
  | @snoc t u calls call hrun hstep ih =>
      obtain ⟨hfinal, hgone⟩ := ih
      have ht : Later s t := later_run hs hrun
      have hu : Later t u := later_callStep ht.inv hstep
      constructor
      · refine List.pairwise_append.mpr ⟨hfinal, List.pairwise_singleton _ _, ?_⟩
        intro earlier hmem later hlater b client hearlier heq
        obtain rfl := List.mem_singleton.mp hlater
        subst hearlier heq
        have hselect : (t.selectBackend client).1 = .returned b := congrArg Prod.fst hstep
        exact hgone b hmem (selectable_of_selectBackend ht.inv hselect)
      · intro b hmem hb
        rcases List.mem_append.mp hmem with hmem | hmem
        · exact hgone b hmem (hu.selectable b hb)
        · obtain rfl := List.mem_singleton.mp hmem
          have hexcluded := excluded_excludeBackend ht.inv b
          rw [show t.excludeBackend b = (.returned (), u) from hstep] at hexcluded
          exact hexcluded.gone (ht.addressable haddr) hb

/-- Without addressable backends, some selectable backend survives its own exclusion. -/
theorem exists_stuck {s : Selector} (hs : s.Inv) (haddr : ¬ s.Addressable) :
    ∃ b, s.Selectable b ∧ (s.excludeBackend b).2.Selectable b := by
  cases s with
  | roundRobin s => exact absurd trivial haddr
  | ipHash s => exact absurd trivial haddr
  | weightedRoundRobin s =>
      obtain ⟨b, hb⟩ := List.exists_duplicate_iff_not_nodup.mpr haddr
      refine ⟨b, hb.mem, ?_⟩
      show b ∈ (s.excludeBackend b).2.held
      rw [(WeightedRoundRobinSelector.excludeBackend_spec hs b).1, ← List.count_pos_iff,
        List.count_erase_self]
      have hcount : 2 ≤ s.held.count b := List.duplicate_iff_two_le_count.mp hb
      omega
  | consistentHash s =>
      have h : ∃ e ∈ s.ring.ring.entries, ∃ b, (e.2, b) ∈ s.ring.physicalNodes ∧
          s.ring.ring.find (BackendCHTraits.traits.getHash b) ≠ some e.2 := by
        by_contra hnone
        push Not at hnone
        exact haddr hnone
      obtain ⟨e, he, b, hb, hfind⟩ := h
      exact ⟨b, ⟨e, he, hb⟩, Router.onRing_eraseNode.mpr ⟨e, he, hb, hfind⟩⟩
  | leastConnections s =>
      obtain ⟨b, hb, hstays⟩ := HeapPool.exists_stuck hs haddr
      exact ⟨b, hb, hstays⟩
  | leastResponseTime s =>
      obtain ⟨b, hb, hstays⟩ := HeapPool.exists_stuck hs haddr
      exact ⟨b, hb, hstays⟩

/-- An exclusion that leaves something selectable returns normally. -/
theorem excludeBackend_returns {s : Selector} (hs : s.Inv) {b x : Backend}
    (hx : (s.excludeBackend b).2.Selectable x) :
    (s.excludeBackend b).1 = .returned () := by
  have hexcluded := excluded_excludeBackend hs b
  have hbefore : s.isEmpty = false :=
    isEmpty_eq_false.mpr ⟨x, (hexcluded.selectable x hx).holds⟩
  have hafter : (s.excludeBackend b).2.isEmpty = false := isEmpty_eq_false.mpr ⟨x, hx.holds⟩
  rw [excludeBackend_fst hs b fun _ => hbefore, hafter]
  rfl

/-- A run in which something excluded is still selectable extends to one in which, of `bs`,
    only excluded backends are, and something is. -/
theorem exclude_all {s₀ s : Selector} {calls : List Call} (hs₀ : s₀.Inv)
    (hrun : Run CallStep s₀ calls s) {x : Backend} (hx : s.Selectable x)
    (hmem : .exclude x (.returned ()) ∈ calls) (bs : List Backend) :
    ∃ calls' t y, Run CallStep s₀ calls' t ∧ t.Selectable y ∧ Later s t ∧
      (∀ call ∈ calls, call ∈ calls') ∧
      ∀ b ∈ bs, t.Selectable b → .exclude b (.returned ()) ∈ calls' := by
  induction bs generalizing s calls x with
  | nil =>
      exact ⟨calls, s, x, hrun, hx, .refl (later_run hs₀ hrun).inv, fun _ h => h,
        fun b hb => absurd hb List.not_mem_nil⟩
  | cons b bs ih =>
      have hs : s.Inv := (later_run hs₀ hrun).inv
      by_cases hb : s.Selectable b ∧ .exclude b (.returned ()) ∉ calls
      · -- exclude `b`: either it stays, or `x`, which is not `b`, does
        have hne : x ≠ b := fun h => hb.2 (h ▸ hmem)
        have hexcluded := excluded_excludeBackend hs b
        obtain ⟨y, hy, hyb⟩ : ∃ y, (s.excludeBackend b).2.Selectable y ∧ (y = b ∨ y = x) := by
          rcases hexcluded.stays hb.1 with h | h
          · exact ⟨b, h, Or.inl rfl⟩
          · exact ⟨x, h x hx hne, Or.inr rfl⟩
        have hreturns := excludeBackend_returns hs hy
        have hstep : CallStep s (.exclude b (.returned ())) (s.excludeBackend b).2 :=
          Prod.ext hreturns rfl
        have hymem : Call.exclude y (.returned ()) ∈ calls ++ [.exclude b (.returned ())] := by
          rcases hyb with rfl | rfl
          · exact List.mem_append_right _ List.mem_cons_self
          · exact List.mem_append_left _ hmem
        obtain ⟨calls', t, z, hrun', hz, hlater, hsub, hall⟩ := ih (.snoc hrun hstep) hy hymem
        refine ⟨calls', t, z, hrun', hz, hexcluded.later.trans hlater,
          fun c hc => hsub c (List.mem_append_left _ hc), ?_⟩
        intro c hc hsel
        rcases List.mem_cons.mp hc with rfl | hc
        · exact hsub _ (List.mem_append_right _ List.mem_cons_self)
        · exact hall c hc hsel
      · obtain ⟨calls', t, z, hrun', hz, hlater, hsub, hall⟩ := ih hrun hx hmem
        refine ⟨calls', t, z, hrun', hz, hlater, hsub, ?_⟩
        intro c hc hsel
        rcases List.mem_cons.mp hc with rfl | hc
        · by_contra hnot
          exact hb ⟨hlater.selectable c hsel, fun h => hnot (hsub _ h)⟩
        · exact hall c hc hsel

theorem exists_not_final {s : Selector} (hs : s.Inv) (haddr : ¬ s.Addressable)
    {bs : List Backend} (hbs : ∀ b, s.Holds b → b ∈ bs) (client : Endpoint) :
    ∃ calls t, Run CallStep s calls t ∧ ¬ ExclusionFinal calls := by
  obtain ⟨b, -, hb⟩ := exists_stuck hs haddr
  have hstep : CallStep s (.exclude b (.returned ())) (s.excludeBackend b).2 :=
    Prod.ext (excludeBackend_returns hs hb) rfl
  have hrun := Run.one (R := CallStep) hstep
  obtain ⟨calls, t, y, hrun, hy, hlater, -, hall⟩ := exclude_all hs hrun hb List.mem_cons_self bs
  obtain ⟨z, hz⟩ := selectBackend_returns hlater.inv hy client
  have hzsel := selectable_of_selectBackend hlater.inv hz
  have hzmem : z ∈ bs := hbs z ((later_callStep hs hstep).holds z (hlater.holds z hzsel.holds))
  have hlast : CallStep t (.select client (.returned z)) (t.selectBackend client).2 :=
    Prod.ext hz rfl
  refine ⟨_, _, .snoc hrun hlast, fun hfinal => ?_⟩
  have hpair := (List.pairwise_append.mp hfinal).2.2 _ (hall z hzmem hzsel) _ List.mem_cons_self
  exact hpair z client rfl rfl

/-- Exclusion is final for a configured selector exactly when its endpoints are
    distinguishable. -/
theorem exclusion_final_iff [LawfulSort] {type : SelectorType} {replicas : Nat}
    {config : Node} {s : Selector} {missed : String} {bs : List Backend}
    (h : configure type replicas config = .ok s)
    (hbs : configuredBackends missed config = .ok bs) (client : Endpoint) :
    (∀ calls t, Run CallStep s calls t → ExclusionFinal calls) ↔
      Distinguishable replicas bs type := by
  obtain ⟨-, hs, bs', hbs', hholds, haddr⟩ := configure_spec h
  obtain rfl : bs = bs' := Except.ok.inj (hbs.symm.trans (hbs' missed))
  rw [← haddr]
  constructor
  · intro hfinal
    by_contra hnot
    obtain ⟨calls, t, hrun, hviolated⟩ :=
      exists_not_final hs hnot (fun b => (hholds b).mp) client
    exact hviolated (hfinal calls t hrun)
  · intro ha calls t hrun
    exact (final_of_addressable hs ha hrun).1

end Selector

end

namespace Selector

section

open Reference

/-- Three ports of the local host, and a client. -/
def port80 : Backend := .endpoint ⟨localhost, Backend.narrowPort 80⟩
def port81 : Backend := .endpoint ⟨localhost, Backend.narrowPort 81⟩
def port82 : Backend := .endpoint ⟨localhost, Backend.narrowPort 82⟩
def somebody : Endpoint := ⟨localhost, Backend.narrowPort 5000⟩

def twoEntries : Node := balancing [ipEntry "127.0.0.1" "80", ipEntry "127.0.0.1" "81"]
def threeEntries : Node :=
  balancing [ipEntry "127.0.0.1" "80", ipEntry "127.0.0.1" "81", ipEntry "127.0.0.1" "82"]
def oneEntry : Node := balancing [ipEntry "127.0.0.1" "80"]
def repeatedEntry : Node := balancing [ipEntry "127.0.0.1" "80", ipEntry "127.0.0.1" "80"]

/-- A weighted round robin over two endpoints. -/
def twoWeighted : Selector := .weightedRoundRobin ⟨[⟨port80, 1, 0⟩, ⟨port81, 1, 0⟩], 0⟩

theorem exclusion_final_twoEntries :
    configure .weightedRoundRobin 1 twoEntries = .ok twoWeighted ∧
      ∀ calls t, Run CallStep twoWeighted calls t → ExclusionFinal calls := by
  have h : configure .weightedRoundRobin 1 twoEntries = .ok twoWeighted := by rfl
  have hbs : configuredBackends "" twoEntries = .ok [port80, port81] := by rfl
  refine ⟨h, (exclusion_final_iff h hbs somebody).mpr ?_⟩
  show [port80, port81].Nodup
  decide

/-- A weighted round robin over one endpoint listed twice. -/
def repeatedWeighted : Selector := .weightedRoundRobin ⟨[⟨port80, 1, 0⟩, ⟨port80, 1, 0⟩], 0⟩

/-- The endpoint listed twice is selected after it was excluded. -/
theorem exclusion_not_final_repeatedEntry :
    configure .weightedRoundRobin 1 repeatedEntry = .ok repeatedWeighted ∧
      ∃ calls t, Run CallStep repeatedWeighted calls t ∧
        calls = [.exclude port80 (.returned ()), .select somebody (.returned port80)] ∧
        ¬ ExclusionFinal calls := by
  have hexclude : CallStep repeatedWeighted (.exclude port80 (.returned ()))
      (.weightedRoundRobin ⟨[⟨port80, 1, 0⟩], 0⟩) := by rfl
  have hselect : CallStep (.weightedRoundRobin ⟨[⟨port80, 1, 0⟩], 0⟩)
      (.select somebody (.returned port80)) (.weightedRoundRobin ⟨[⟨port80, 1, 0⟩], 0⟩) := by rfl
  refine ⟨by rfl, _, _, .cons hexclude (.one hselect), rfl, fun hfinal => ?_⟩
  have hpair := (List.pairwise_cons.mp hfinal).1 _ List.mem_cons_self
  exact hpair port80 somebody rfl rfl

end

end Selector

/-! ## An exclusion reports exhaustion -/

section

variable [Platform] [LawfulPairingHeap]

namespace Selector

/-- `ExcludeBackend(b)` returns normally if something is held after it, and throws if
    nothing is. -/
def ReportsExhaustion (s : Selector) (b : Backend) : Prop :=
  ((s.excludeBackend b).1 = .returned () ↔ ∃ x, (s.excludeBackend b).2.Holds x) ∧
    ((¬ ∃ x, (s.excludeBackend b).2.Holds x) → ∃ e, (s.excludeBackend b).1 = .thrown e)

theorem reportsExhaustion_of_fst {s : Selector} {b : Backend}
    (h : (s.excludeBackend b).1 = throwIfEmpty (s.excludeBackend b).2.isEmpty) :
    ReportsExhaustion s b := by
  unfold ReportsExhaustion
  rw [← isEmpty_eq_false, h]
  refine ⟨throwIfEmpty_eq_returned, fun hempty => ⟨allBackendsExcluded, ?_⟩⟩
  exact throwIfEmpty_eq_thrown.mpr ⟨by simpa using hempty, rfl⟩

/-- In every run, an exclusion reports exhaustion exactly unless the selector is one of the
    two heaps and was empty before. -/
theorem reportsExhaustion_iff [LawfulSort] {type : SelectorType} {replicas : Nat}
    {config : Node} {s t : Selector} {calls : List Call}
    (h : configure type replicas config = .ok s) (hrun : Run CallStep s calls t)
    (b : Backend) :
    ReportsExhaustion t b ↔ (t.heapBased = true → ∃ x, t.Holds x) := by
  have ht : t.Inv := (later_run (configure_spec h).2.1 hrun).inv
  constructor
  · intro hreports hheap
    by_contra hnone
    have hempty : t.isEmpty = true := isEmpty_eq_true.mpr (not_exists.mp hnone)
    have hsame := excludeBackend_of_isEmpty ht b hheap hempty
    obtain ⟨hiff, -⟩ := hreports
    rw [hsame] at hiff
    exact hnone (hiff.mp rfl)
  · intro hheld
    refine reportsExhaustion_of_fst (excludeBackend_fst ht b fun hheap => ?_)
    exact isEmpty_eq_false.mpr (hheld hheap)

end Selector

end

namespace Selector

section

open Reference

/-- A least-connections selector over one endpoint, and the same after its exclusion. -/
def oneCounted : Selector := .leastConnections (LeastConnectionsSelector.insertBackend .new port80)
def noneCounted : Selector := (oneCounted.excludeBackend port80).2

theorem run_noneCounted :
    Run CallStep oneCounted [.exclude port80 (.thrown allBackendsExcluded)] noneCounted := by
  have hexclude : CallStep oneCounted (.exclude port80 (.thrown allBackendsExcluded))
      noneCounted := by rfl
  exact .one hexclude

theorem reportsExhaustion_oneEntry :
    ReportsExhaustion oneCounted port80 ↔
      (oneCounted.heapBased = true → ∃ x, oneCounted.Holds x) := by
  have h : configure .leastConnections 1 oneEntry = .ok oneCounted := by rfl
  exact reportsExhaustion_iff h (.nil oneCounted) port80

/-- The only backend is excluded, which throws, and excluded again, which returns. -/
theorem not_reportsExhaustion_noneCounted :
    configure .leastConnections 1 oneEntry = .ok oneCounted ∧
      Run CallStep oneCounted [.exclude port80 (.thrown allBackendsExcluded)] noneCounted ∧
      ¬ ReportsExhaustion noneCounted port80 := by
  refine ⟨by rfl, run_noneCounted, fun h => ?_⟩
  have hreturned : (noneCounted.excludeBackend port80).1 = .returned () := by rfl
  obtain ⟨x, hx⟩ := h.1.mp hreturned
  have hempty : (noneCounted.excludeBackend port80).2.isEmpty = true := by rfl
  exact isEmpty_eq_true.mp hempty x hx

end

end Selector

end LoadBalancer
