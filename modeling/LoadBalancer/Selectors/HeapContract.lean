/-
  How the two heap selectors tell their heap that a value changed.

  `increase` is documented for a value that became greater and `decrease` for one that became
  lower, in the order of the heap's comparator. Both comparators are inverted: a lower counter
  or average is greater for the heap. Least connections calls `decrease` always, which is
  right for an increment of the counter and wrong for a decrement; least response time calls
  the member for the other direction, which is right where the average did not change.

  `contract_iff`: the calls of a run honour the contract exactly if no decrement finds a
  positive counter, or every sample of a held backend is zero, and then both selectors return
  a minimum over any heap that needs the contract.
-/
import LoadBalancer.Lib.SiftHeap
import LoadBalancer.Selectors.LeastAverage
import LoadBalancer.Selectors.LeastCounter
import Mathlib.Tactic.NormNum

namespace LoadBalancer

open Transition MutableHeap Platform

section

variable [Platform]

/-! ## The write of an update -/

/-- A write through a handle, and the member the heap is then told with. -/
structure HeapWrite (W : Type) where
  handle : Handle
  old : W
  new : W
  told : HeapUpdate

namespace HeapWrite

variable {W : Type} {lt : W → W → Bool}

def apply (w : HeapWrite W) (q : PairingHeap W lt) : PairingHeap W lt :=
  match w.told with
  | .increase => increase (set q w.handle w.new) w.handle
  | .decrease => decrease (set q w.handle w.new) w.handle

/-- `increase` is called for a value that did not become lower, `decrease` for one that did
    not become higher. -/
def Honours (lt : W → W → Bool) (w : HeapWrite W) : Prop :=
  match w.told with
  | .increase => lt w.new w.old = false
  | .decrease => lt w.old w.new = false

theorem ordered_apply [ContractHeap (PairingHeap W lt) lt] {w : HeapWrite W}
    {q : PairingHeap W lt} (hq : Ordered q) (hfind : find q w.handle = some w.old)
    (hw : w.Honours lt) : Ordered (w.apply q) := by
  unfold Honours at hw
  unfold apply
  split
  · next h =>
    rw [h] at hw
    exact ContractHeap.ordered_increase q w.handle w.old w.new hq hfind hw
  · next h =>
    rw [h] at hw
    exact ContractHeap.ordered_decrease q w.handle w.old w.new hq hfind hw

end HeapWrite

namespace HeapPool

variable {W : Type} {lt : W → W → Bool}

/-- The write that an update makes, if it makes one. -/
def updateWrite (p : HeapPool W lt) (b : Backend) (f : W → Option (W × HeapUpdate)) :
    Option (HeapWrite W) := do
  let handle ← p.handlePool b.toString
  let old ← find p.backends handle
  let (new, told) ← f old
  return ⟨handle, old, new, told⟩

theorem updateWrite_eq_some {p : HeapPool W lt} {b : Backend} {f : W → Option (W × HeapUpdate)}
    {w : HeapWrite W} (h : p.updateWrite b f = some w) :
    p.handlePool b.toString = some w.handle ∧ find p.backends w.handle = some w.old ∧
      f w.old = some (w.new, w.told) := by
  obtain ⟨handle, hhandle, h⟩ := Option.bind_eq_some_iff.mp h
  obtain ⟨old, hold, h⟩ := Option.bind_eq_some_iff.mp h
  obtain ⟨new, hnew, h⟩ := Option.bind_eq_some_iff.mp h
  obtain rfl := Option.some.inj h
  exact ⟨hhandle, hold, hnew⟩

/-- An update is its write. -/
theorem backends_updateEntry (p : HeapPool W lt) (b : Backend)
    (f : W → Option (W × HeapUpdate)) : (p.updateEntry b f).2.backends =
      (p.updateWrite b f).elim p.backends fun w => w.apply p.backends := by
  unfold updateEntry updateWrite
  cases hhandle : p.handlePool b.toString with
  | none => rfl
  | some handle =>
      cases hold : find p.backends handle with
      | none => simp [hold]
      | some old =>
          cases hnew : f old with
          | none => simp [hold, hnew]
          | some new =>
              obtain ⟨value, told⟩ := new
              cases told with
              | increase => simp [hold, hnew, HeapWrite.apply]
              | decrease => simp [hold, hnew, HeapWrite.apply]

theorem honours_updateWrite {p : HeapPool W lt} {b : Backend} {f : W → Option (W × HeapUpdate)} :
    (∀ w, p.updateWrite b f = some w → w.Honours lt) ↔
      ∀ handle old new told, p.lookup b.toString = some old → f old = some (new, told) →
        (HeapWrite.mk handle old new told).Honours lt := by
  constructor
  · intro h handle old new told hlookup hnew
    obtain ⟨k, hk, hold⟩ := Option.bind_eq_some_iff.mp hlookup
    exact h ⟨k, old, new, told⟩ (by simp [updateWrite, hk, hold, hnew])
  · intro h w hw
    obtain ⟨hk, hold, hnew⟩ := updateWrite_eq_some hw
    exact h w.handle w.old w.new w.told (Option.bind_eq_some_iff.mpr ⟨_, hk, hold⟩) hnew

theorem ordered_updateWrite [ContractHeap (PairingHeap W lt) lt] {p : HeapPool W lt}
    (hp : Ordered p.backends) {b : Backend} {f : W → Option (W × HeapUpdate)}
    (hw : ∀ w, p.updateWrite b f = some w → w.Honours lt) :
    Ordered (p.updateEntry b f).2.backends := by
  rw [backends_updateEntry]
  cases h : p.updateWrite b f with
  | none => exact hp
  | some w => exact HeapWrite.ordered_apply hp (updateWrite_eq_some h).2.1 (hw w h)

end HeapPool

/-! ## Least connections -/

namespace LeastConnectionsSelector

/-- The write that a call makes, if it makes one. -/
def callWrite (s : LeastConnectionsSelector) : Call → Option (HeapWrite CounterWrapper)
  | .select _ _ =>
    match s.topEntry with
    | .returned entry => s.updateWrite entry.b countUp
    | _ => none
  | .increase b => s.updateWrite b countUp
  | .decrease b => s.updateWrite b countDown
  | .exclude _ _ => none

def Honours (s : LeastConnectionsSelector) (call : Call) : Prop :=
  ∀ w, s.callWrite call = some w → w.Honours connectionsCompare

/-- The call is no decrement that finds a positive counter. -/
def Undiminished (s : LeastConnectionsSelector) : Call → Prop
  | .decrease b => ∀ n, s.counterOf b.toString = some n → n = 0
  | _ => True

/-- A selection from a non-empty selector returns a backend with a least counter. -/
def SelectsLeast (s : LeastConnectionsSelector) : Prop :=
  (∃ x, s.Holds x) → ∀ client, ∃ b n, (s.selectBackend client).1 = .returned b ∧
    s.Counts b n ∧ ∀ y m, s.Counts y m → n ≤ m

theorem honours_countUp (s : LeastConnectionsSelector) (b : Backend) :
    ∀ w, s.updateWrite b countUp = some w → w.Honours connectionsCompare := by
  rw [HeapPool.honours_updateWrite]
  intro handle old new told _ hnew
  obtain ⟨rfl, rfl⟩ := Prod.mk.inj (Option.some.inj hnew)
  show decide (old.counter > old.counter + 1) = false
  simp

/-- A decrement raises the value in the heap's order where it changes it. -/
theorem honours_countDown (s : LeastConnectionsSelector) (b : Backend) :
    (∀ w, s.updateWrite b countDown = some w → w.Honours connectionsCompare) ↔
      ∀ n, s.counterOf b.toString = some n → n = 0 := by
  rw [HeapPool.honours_updateWrite]
  unfold counterOf countDown
  constructor
  · intro h n hn
    obtain ⟨old, hold, rfl⟩ := Option.map_eq_some_iff.mp hn
    by_contra hpos
    have hlower := h 0 old _ _ hold (if_pos (Nat.pos_of_ne_zero hpos))
    have hcompare : decide (old.counter > old.counter - 1) = false := hlower
    rw [decide_eq_false_iff_not] at hcompare
    omega
  · intro h handle old new told hold hnew
    have hzero : old.counter = 0 := h old.counter (Option.map_eq_some_iff.mpr ⟨old, hold, rfl⟩)
    rw [if_neg (by omega)] at hnew
    cases hnew

theorem honours_iff (s : LeastConnectionsSelector) (call : Call) :
    s.Honours call ↔ s.Undiminished call := by
  cases call with
  | select client result =>
      refine iff_of_true (fun w h => ?_) trivial
      unfold callWrite at h
      cases htop : s.topEntry with
      | returned entry =>
          rw [htop] at h
          exact honours_countUp s entry.b w h
      | thrown e => simp [htop] at h
      | undefined => simp [htop] at h
  | increase b => exact iff_of_true (honours_countUp s b) trivial
  | decrease b => exact honours_countDown s b
  | exclude b result => exact iff_of_true (fun w h => by cases h) trivial

theorem keyed_callStep [LawfulPairingHeap] {s t : LeastConnectionsSelector} {call : Call}
    (hs : s.Keyed) (hstep : CallStep s call t) : t.Keyed :=
  callStep_rule hs hs (HeapPool.keyed_updateEntry keepsBackend_countUp hs)
    (HeapPool.keyed_updateEntry keepsBackend_countDown hs) (HeapPool.keyed_excludeBackend hs) hstep

section Contract

variable [ContractPairingHeap]

instance contractConnections :
    ContractHeap (PairingHeap CounterWrapper connectionsCompare) connectionsCompare :=
  ContractPairingHeap.contract connectionsCompare_strictWeak

theorem ordered_of_honours {s t : LeastConnectionsSelector} {call : Call} (hs : s.Keyed)
    (hordered : Ordered s.backends) (hcall : s.Honours call) (hstep : CallStep s call t) :
    Ordered t.backends := by
  cases call with
  | select client result =>
      obtain rfl : _ = t := congrArg Prod.snd hstep
      rcases selectBackend_cases hs client with ⟨entry, -, h⟩ | ⟨-, h⟩
      · rw [h]
        exact HeapPool.ordered_updateWrite hordered (honours_countUp s entry.b)
      · rw [h]
        exact hordered
  | increase b =>
      obtain rfl : _ = t := hstep
      exact HeapPool.ordered_updateWrite hordered hcall
  | decrease b =>
      obtain rfl : _ = t := hstep
      exact HeapPool.ordered_updateWrite hordered hcall
  | exclude b result =>
      obtain rfl : _ = t := congrArg Prod.snd hstep
      exact HeapPool.ordered_excludeBackend hordered b

/-- In every run of a configured selector, the calls honour the contract of the heap exactly
    if none is a decrement that finds a positive counter, and then a selection returns a
    backend with a least counter. -/
theorem contract_run {config : Node} {s t : LeastConnectionsSelector} {calls : List Call}
    (h : configure config = .ok s) :
    (Run (Under Honours CallStep) s calls t ↔ Run (Under Undiminished CallStep) s calls t) ∧
      (Run (Under Undiminished CallStep) s calls t → t.SelectsLeast) := by
  have hsame : Run (Under Honours CallStep) s calls t ↔
      Run (Under Undiminished CallStep) s calls t :=
    Run.under_congr (I := fun _ => True) (fun u call _ => honours_iff u call)
      (fun _ _ _ _ _ _ => trivial) trivial
  refine ⟨hsame, fun hrun hne client => ?_⟩
  have hkept : t.Keyed ∧ Ordered t.backends :=
    (hsame.mpr hrun).invariant (I := fun u => u.Keyed ∧ Ordered u.backends)
      (fun _ _ _ hu hstep => ⟨keyed_callStep hu.1 hstep.2,
        ordered_of_honours hu.1 hu.2 hstep.1 hstep.2⟩)
      ⟨keyed_configure h, ordered_configure h⟩
  obtain ⟨entry, htop⟩ := HeapPool.topEntry_returns ((HeapPool.isEmpty_eq_false t).mpr hne)
  refine ⟨entry.b, entry.counter, ?_,
    counts_iff_stores.mpr ⟨entry, HeapPool.topEntry_stores htop, rfl⟩,
    fun y m => counter_le_of_topEntry hkept.2 htop⟩
  rw [selectBackend_of_topEntry hkept.1 htop]

end Contract

end LeastConnectionsSelector

/-! ## Least response time -/

namespace LeastResponseTimeSelector

/-- The write that a call makes, if it makes one. -/
def callWrite (s : LeastResponseTimeSelector) : Call → Option (HeapWrite AverageTimeWrapper)
  | .addResponseTime b responseTime => s.updateWrite b (addSample responseTime)
  | _ => none

def Honours (s : LeastResponseTimeSelector) (call : Call) : Prop :=
  ∀ w, s.callWrite call = some w → w.Honours responseTimeEmaCompare

/-- The call adds no sample other than zero to a held backend. -/
def Unmoved (s : LeastResponseTimeSelector) : Call → Prop
  | .addResponseTime b responseTime => s.lookup b.toString = none ∨ responseTime = 0
  | _ => True

/-- A selection from a non-empty selector returns a backend with a least average. -/
def SelectsLeast (s : LeastResponseTimeSelector) : Prop :=
  (∃ x, s.Holds x) → ∀ client, ∃ b e, (s.selectBackend client).1 = .returned b ∧
    s.Averages b e ∧ ∀ y d, s.Averages y d → e ≤ d

/-- Every entry has the average it was made with. -/
def Idle (s : LeastResponseTimeSelector) : Prop :=
  ∀ k w, find s.backends k = some w → w.responseTimeEma = 0.0 ∧ w.alpha = 0.9

/-- The heap is told the wrong direction wherever the average changes. -/
theorem honours_addSample (s : LeastResponseTimeSelector) (b : Backend) (r : Int) :
    (∀ w, s.updateWrite b (addSample r) = some w → w.Honours responseTimeEmaCompare) ↔
      ∀ old, s.lookup b.toString = some old →
        newEma old.alpha old.responseTimeEma r = old.responseTimeEma := by
  rw [HeapPool.honours_updateWrite]
  constructor
  · intro h old hold
    by_cases hlower : old.responseTimeEma > newEma old.alpha old.responseTimeEma r
    · -- `decrease` is called for a lower average, which is higher in the heap's order
      have hcall := h 0 old _ _ hold rfl
      rw [if_pos hlower] at hcall
      exact absurd hlower (of_decide_eq_false hcall)
    · -- `increase` is called for a greater average, which is lower in the heap's order
      have hcall := h 0 old _ _ hold rfl
      rw [if_neg hlower] at hcall
      exact le_antisymm (not_lt.mp (of_decide_eq_false hcall)) (not_lt.mp hlower)
  · intro h handle old new told hold hnew
    obtain ⟨rfl, rfl⟩ := Prod.mk.inj (Option.some.inj hnew)
    have hsame := h old hold
    rw [hsame, if_neg (lt_irrefl _)]
    exact decide_eq_false (lt_irrefl old.responseTimeEma)

/-- The first sample of an average moves it, unless it is zero. -/
theorem newEma_zero [LawfulDouble] (r : Int) : newEma 0.9 0.0 r = (0.0 : Double) ↔ r = 0 := by
  rw [newEma, LawfulDouble.mul_zero, LawfulDouble.zero_add, LawfulDouble.mul_eq_zero]

theorem honours_iff [LawfulDouble] {s : LeastResponseTimeSelector} (hs : s.Idle) (call : Call) :
    s.Honours call ↔ s.Unmoved call := by
  cases call with
  | select client result => exact iff_of_true (fun w h => by cases h) trivial
  | exclude b result => exact iff_of_true (fun w h => by cases h) trivial
  | addResponseTime b r =>
      refine (honours_addSample s b r).trans ?_
      show _ ↔ s.lookup b.toString = none ∨ r = 0
      cases hold : s.lookup b.toString with
      | none => exact iff_of_true (fun old h => by cases h) (Or.inl rfl)
      | some old =>
          obtain ⟨k, -, hk⟩ := Option.bind_eq_some_iff.mp hold
          obtain ⟨hzero, halpha⟩ := hs k old hk
          have hmoved : newEma old.alpha old.responseTimeEma r = old.responseTimeEma ↔ r = 0 := by
            rw [hzero, halpha, newEma_zero]
          rw [or_iff_right (by simp), ← hmoved]
          exact ⟨fun h => h old rfl, fun h old' hold' => Option.some.inj hold' ▸ h⟩

theorem idle_configure [LawfulPairingHeap] {config : Node} {s : LeastResponseTimeSelector}
    (h : configure config = .ok s) : s.Idle := by
  obtain ⟨bs, -, rfl⟩ := configure_eq_ok h
  refine HeapPool.forall_insertAll (fun _ => ⟨rfl, rfl⟩) (fun k w hw => ?_) bs
  rw [HeapPool.find_new] at hw
  cases hw

theorem idle_callStep [LawfulPairingHeap] [LawfulDouble] {s t : LeastResponseTimeSelector}
    {call : Call} (hs : s.Idle) (hcall : s.Unmoved call) (hstep : CallStep s call t) : t.Idle := by
  cases call with
  | select client result =>
      obtain rfl : _ = t := congrArg Prod.snd hstep
      rw [selectBackend_snd]
      exact hs
  | addResponseTime b r =>
      obtain rfl : _ = t := hstep
      intro k v hv
      rw [addResponseTime, HeapPool.find_updateEntry, Option.map_eq_some_iff] at hv
      obtain ⟨w, hw, rfl⟩ := hv
      obtain ⟨hzero, halpha⟩ := hs k w hw
      split
      · next hk =>
        have hlookup : s.lookup b.toString = some w := Option.bind_eq_some_iff.mpr ⟨k, hk, hw⟩
        obtain rfl : r = 0 := hcall.resolve_left (by simp [hlookup])
        rw [ema_addSample halpha, alpha_addSample, hzero]
        exact ⟨(newEma_zero 0).mpr rfl, halpha⟩
      · exact ⟨hzero, halpha⟩
  | exclude b result =>
      obtain rfl : _ = t := congrArg Prod.snd hstep
      exact fun k w hw => hs k w (HeapPool.find_of_excludeBackend hw)

section Contract

variable [ContractPairingHeap]

instance contractAverages :
    ContractHeap (PairingHeap AverageTimeWrapper responseTimeEmaCompare) responseTimeEmaCompare :=
  ContractPairingHeap.contract responseTimeEmaCompare_strictWeak

theorem ordered_of_honours {s t : LeastResponseTimeSelector} {call : Call}
    (hordered : Ordered s.backends) (hcall : s.Honours call) (hstep : CallStep s call t) :
    Ordered t.backends := by
  cases call with
  | select client result =>
      obtain rfl : _ = t := congrArg Prod.snd hstep
      rw [selectBackend_snd]
      exact hordered
  | addResponseTime b r =>
      obtain rfl : _ = t := hstep
      exact HeapPool.ordered_updateWrite hordered hcall
  | exclude b result =>
      obtain rfl : _ = t := congrArg Prod.snd hstep
      exact HeapPool.ordered_excludeBackend hordered b

/-- In every run of a configured selector, the calls honour the contract of the heap exactly
    if every sample of a held backend is zero, and then a selection returns a backend with a
    least average. -/
theorem contract_run [LawfulDouble] {config : Node} {s t : LeastResponseTimeSelector}
    {calls : List Call} (h : configure config = .ok s) :
    (Run (Under Honours CallStep) s calls t ↔ Run (Under Unmoved CallStep) s calls t) ∧
      (Run (Under Unmoved CallStep) s calls t → t.SelectsLeast) := by
  have hsame : Run (Under Honours CallStep) s calls t ↔ Run (Under Unmoved CallStep) s calls t :=
    Run.under_congr (I := Idle) (fun u call hu => honours_iff hu call)
      (fun _ _ _ hu hcall hstep => idle_callStep hu hcall hstep) (idle_configure h)
  refine ⟨hsame, fun hrun hne client => ?_⟩
  have hordered : Ordered t.backends :=
    (hsame.mpr hrun).invariant (I := fun u : LeastResponseTimeSelector => Ordered u.backends)
      (fun _ _ _ hu hstep => ordered_of_honours hu hstep.1 hstep.2) (ordered_configure h)
  exact picks_least hordered hne client

end Contract

end LeastResponseTimeSelector

/-! ## Both selectors -/

/-- In every run of the two selectors, the calls honour the contract of the heap exactly if no
    decrement finds a positive counter, or every sample of a held backend is zero; and in
    these runs a selection returns a minimum over any heap that needs the contract. -/
theorem contract_iff [ContractPairingHeap] [LawfulDouble] {config : Node}
    {s t : LeastConnectionsSelector} {calls : List LeastConnectionsSelector.Call}
    {u v : LeastResponseTimeSelector} {timings : List LeastResponseTimeSelector.Call}
    (h : LeastConnectionsSelector.configure config = .ok s)
    (h' : LeastResponseTimeSelector.configure config = .ok u) :
    ((Run (Under LeastConnectionsSelector.Honours LeastConnectionsSelector.CallStep) s calls t ↔
        Run (Under LeastConnectionsSelector.Undiminished LeastConnectionsSelector.CallStep)
          s calls t) ∧
      (Run (Under LeastConnectionsSelector.Undiminished LeastConnectionsSelector.CallStep)
        s calls t → t.SelectsLeast)) ∧
    ((Run (Under LeastResponseTimeSelector.Honours LeastResponseTimeSelector.CallStep)
          u timings v ↔
        Run (Under LeastResponseTimeSelector.Unmoved LeastResponseTimeSelector.CallStep)
          u timings v) ∧
      (Run (Under LeastResponseTimeSelector.Unmoved LeastResponseTimeSelector.CallStep)
        u timings v → v.SelectsLeast)) :=
  ⟨LeastConnectionsSelector.contract_run h, LeastResponseTimeSelector.contract_run h'⟩

end

/-! ## A heap that needs the contract -/

namespace SiftReference

/-- The reference platform with a queue that needs to be told the right direction. -/
scoped instance platform : Platform :=
  { Reference.platform with
    PairingHeap := SiftHeap
    heapOps := fun _ _ => inferInstance }

scoped instance : LawfulPairingHeap where
  lawful α lt := inferInstanceAs (MutableHeap.LawfulHeap (SiftHeap α lt))

scoped instance : ContractPairingHeap where
  contract hlt := SiftHeap.contractHeap hlt

scoped instance : ExactDouble where
  value := Reference.exactDouble.value
  value_lt := Reference.exactDouble.value_lt
  value_add := Reference.exactDouble.value_add
  value_sub := Reference.exactDouble.value_sub
  value_mul := Reference.exactDouble.value_mul
  value_intCast := Reference.exactDouble.value_intCast
  value_ofScientific := Reference.exactDouble.value_ofScientific

scoped instance : LawfulDouble := ExactDouble.lawful

def port80 : Backend := .endpoint ⟨Reference.localhost, Backend.narrowPort 80⟩
def port81 : Backend := .endpoint ⟨Reference.localhost, Backend.narrowPort 81⟩
def somebody : Endpoint := ⟨Reference.localhost, Backend.narrowPort 5000⟩

def counting : LeastConnectionsSelector :=
  LeastConnectionsSelector.insertBackend
    (LeastConnectionsSelector.insertBackend HeapPool.new port80) port81

def bothSelected : LeastConnectionsSelector :=
  ((counting.selectBackend somebody).2.selectBackend somebody).2

/-- Port 80 is released. -/
def released : LeastConnectionsSelector := (bothSelected.decreaseConnectionCount port80).2

def timing : LeastResponseTimeSelector :=
  LeastResponseTimeSelector.insertBackend
    (LeastResponseTimeSelector.insertBackend HeapPool.new port80) port81

/-- Port 80 took ten milliseconds. -/
def timed : LeastResponseTimeSelector := (timing.addResponseTime port80 10).2

theorem run_bothSelected : Run (Under LeastConnectionsSelector.Undiminished
    LeastConnectionsSelector.CallStep) counting
    [.select somebody (.returned port80), .select somebody (.returned port81)] bothSelected := by
  have hfirst : LeastConnectionsSelector.CallStep counting (.select somebody (.returned port80))
      (counting.selectBackend somebody).2 := by rfl
  have hsecond : LeastConnectionsSelector.CallStep (counting.selectBackend somebody).2
      (.select somebody (.returned port81)) bothSelected := by rfl
  exact .cons ⟨trivial, hfirst⟩ (.one ⟨trivial, hsecond⟩)

theorem contract_bothSelected :
    LeastConnectionsSelector.configure Selector.twoEntries = .ok counting ∧
      LeastResponseTimeSelector.configure Selector.twoEntries = .ok timing ∧
      bothSelected.SelectsLeast ∧ timing.SelectsLeast := by
  have h : LeastConnectionsSelector.configure Selector.twoEntries = .ok counting := by rfl
  have h' : LeastResponseTimeSelector.configure Selector.twoEntries = .ok timing := by rfl
  obtain ⟨⟨-, hcounting⟩, -, htiming⟩ := contract_iff h h'
  exact ⟨h, h', hcounting run_bothSelected, htiming (.nil _)⟩

/-- The released backend has the only least counter, and the other one is selected. -/
theorem not_selectsLeast_released : ¬ released.SelectsLeast := by
  have h : LeastConnectionsSelector.configure Selector.twoEntries = .ok counting := by rfl
  have hbs : configuredBackends "" Selector.twoEntries = .ok [port80, port81] := by rfl
  have hrun := run_bothSelected.of_under.append
    (.one (show LeastConnectionsSelector.CallStep bothSelected (.decrease port80) released from rfl))
  have hcounts := LeastConnectionsSelector.counts_run
    (LeastConnectionsSelector.named_configure h hbs (by decide))
    (fun _ _ => LeastConnectionsSelector.counts_configure h) hrun
  have hheld : released.Holds port80 := ⟨1, ⟨port80, 0⟩, by rfl, rfl⟩
  intro hleast
  obtain ⟨b, n, hb, hn, hle⟩ := hleast ⟨port80, hheld⟩ somebody
  have hselect : (released.selectBackend somebody).1 = .returned port81 := by rfl
  obtain rfl := Outcome.returned.inj (hselect.symm.trans hb)
  have hone : n = 1 := ((hcounts port81 n).mp hn).2
  have hzero : n ≤ 0 := hle port80 0 ((hcounts port80 0).mpr ⟨hheld, by rfl⟩)
  omega

/-- The average after the sample is nine, which is more than the other backend's. -/
theorem less_newEma : (0.0 : Double) < LeastResponseTimeSelector.newEma 0.9 0.0 10 := by
  rw [← ExactDouble.value_lt, LeastResponseTimeSelector.value_newEma, ExactDouble.value_zero]
  norm_num [LeastResponseTimeSelector.blend]

/-- The entry of the slow backend. -/
def slowEntry : AverageTimeWrapper where
  backend := port80
  responseTimeEma := LeastResponseTimeSelector.newEma 0.9 0.0 10

theorem backends_timed : timed.backends = MutableHeap.set timing.backends 1 slowEntry := by
  have hsample : LeastResponseTimeSelector.addSample 10 ⟨port80, 0.0, 0.9⟩ =
      some (slowEntry, .increase) :=
    congrArg (fun told => some (_, told)) (if_neg (not_lt_of_gt less_newEma))
  have hwrite : HeapPool.updateWrite timing port80 (LeastResponseTimeSelector.addSample 10) =
      some ⟨1, ⟨port80, 0.0, 0.9⟩, slowEntry, .increase⟩ := by
    have hhandle : timing.handlePool port80.toString = some 1 := by rfl
    have hfind : find timing.backends 1 = some ⟨port80, 0.0, 0.9⟩ := by rfl
    simp [HeapPool.updateWrite, hhandle, hfind, hsample]
  -- the root is written, and it is not above itself
  have habove : SiftHeap.aboveRoot (MutableHeap.set timing.backends 1 slowEntry) 1 = false :=
    LeastResponseTimeSelector.responseTimeEmaCompare_strictWeak.irrefl slowEntry
  unfold timed LeastResponseTimeSelector.addResponseTime
  rw [HeapPool.backends_updateEntry, hwrite]
  exact congrArg
    (fun test => SiftHeap.settleIf test (MutableHeap.set timing.backends 1 slowEntry) 1) habove

/-- The slow backend has not the least average, and it is selected. -/
theorem not_selectsLeast_timed : ¬ timed.SelectsLeast := by
  have h : LeastResponseTimeSelector.configure Selector.twoEntries = .ok timing := by rfl
  have hbs : configuredBackends "" Selector.twoEntries = .ok [port80, port81] := by rfl
  have hrun : Run LeastResponseTimeSelector.CallStep timing [.addResponseTime port80 10] timed :=
    .one rfl
  obtain ⟨hsound, hnew⟩ := LeastResponseTimeSelector.sound_configure h hbs (by decide)
  have haverage := fun b e => @LeastResponseTimeSelector.averages_run _ _ _ _ _ hsound hnew hrun b e
  have hheld : timed.Holds port81 := ⟨2, ⟨port81, 0.0, 0.9⟩, by rw [backends_timed]; rfl, rfl⟩
  intro hleast
  obtain ⟨b, e, hb, he, hle⟩ := hleast ⟨port81, hheld⟩ somebody
  have hselect : (timed.selectBackend somebody).1 = .returned port80 := by
    unfold LeastResponseTimeSelector.selectBackend HeapPool.topEntry
    rw [backends_timed]
    rfl
  obtain rfl := Outcome.returned.inj (hselect.symm.trans hb)
  obtain ⟨d, hd⟩ := LeastResponseTimeSelector.holds_iff_averages.mp hheld
  have hslow : e = LeastResponseTimeSelector.newEma 0.9 0.0 10 := haverage port80 e he
  have hquick : d = (0.0 : Double) := haverage port81 d hd
  have hed := hle port81 d hd
  rw [hslow, hquick] at hed
  exact absurd less_newEma (not_lt.mpr hed)

theorem no_contract_released :
    LeastConnectionsSelector.configure Selector.twoEntries = .ok counting ∧
      LeastResponseTimeSelector.configure Selector.twoEntries = .ok timing ∧
      ¬ bothSelected.Honours (.decrease port80) ∧ ¬ released.SelectsLeast ∧
      ¬ timing.Honours (.addResponseTime port80 10) ∧ ¬ timed.SelectsLeast := by
  refine ⟨by rfl, by rfl, ?_, not_selectsLeast_released, ?_, not_selectsLeast_timed⟩
  · rw [LeastConnectionsSelector.honours_iff]
    intro hundiminished
    exact absurd (hundiminished 1 (by rfl)) (by decide)
  · intro hhonours
    have hsame := (LeastResponseTimeSelector.honours_addSample timing port80 10).mp hhonours
      ⟨port80, 0.0, 0.9⟩ (by rfl)
    exact less_newEma.ne hsame.symm

end SiftReference

end LoadBalancer
