/-
  Least response time: what its averages say and what it selects.

  A run is any sequence of calls, with whatever backends they name. The average of a held
  backend is the fold of its own samples, and a selection returns a backend with a least
  average, however the arithmetic rounds. Where it does not round, the average lies between
  zero and the largest sample if none is negative (`picks_smallest`). The names of the
  configured backends are distinct.
-/
import LoadBalancer.Selectors.Exclusion
import LoadBalancer.Selectors.HeapEntries
import Mathlib.Algebra.Order.Ring.Rat
import Mathlib.Tactic.Linarith
import Mathlib.Tactic.Ring

namespace LoadBalancer

open Transition MutableHeap Platform

namespace LeastResponseTimeSelector

/-! ## Averages -/

/-- The rational average after a further sample. -/
def blend (e : ℚ) (responseTime : Int) : ℚ := e / 10 + 9 * responseTime / 10

def average (rs : List Int) : ℚ := rs.foldl blend 0

theorem blend_bounds {e : ℚ} {r : Int} {m : ℚ} (he : 0 ≤ e) (hem : e ≤ m) (hr : 0 ≤ r)
    (hrm : (r : ℚ) ≤ m) : 0 ≤ blend e r ∧ blend e r ≤ m := by
  have hr : (0 : ℚ) ≤ r := by exact_mod_cast hr
  unfold blend
  constructor
  · linarith
  · linarith

theorem foldl_blend_bounds {rs : List Int} (hrs : ∀ r ∈ rs, 0 ≤ r) {e : ℚ} {m : Int}
    (he : 0 ≤ e) (hem : e ≤ m) :
    0 ≤ rs.foldl blend e ∧ rs.foldl blend e ≤ (rs.foldl max m : Int) := by
  induction rs generalizing e m with
  | nil => exact ⟨he, hem⟩
  | cons r rs ih =>
      have hem' : e ≤ (max m r : Int) := hem.trans (by exact_mod_cast le_max_left m r)
      have hrm : (r : ℚ) ≤ (max m r : Int) := by exact_mod_cast le_max_right m r
      obtain ⟨hlow, hhigh⟩ := blend_bounds he hem' (hrs r List.mem_cons_self) hrm
      exact ih (fun x hx => hrs x (List.mem_cons_of_mem _ hx)) hlow hhigh

/-- Where no sample is negative, the average is between zero and the largest sample. -/
theorem average_bounds {rs : List Int} (hrs : ∀ r ∈ rs, 0 ≤ r) :
    0 ≤ average rs ∧ average rs ≤ (rs.foldl max 0 : Int) :=
  foldl_blend_bounds hrs le_rfl (by simp)

end LeastResponseTimeSelector

section

variable [Platform]

namespace LeastResponseTimeSelector

/-- The average that the code computes from the samples. -/
def ema (rs : List Int) : Double := rs.foldl (newEma 0.9) 0.0

section Exact

variable [ExactDouble]

open ExactDouble (value)

theorem value_newEma (e : Double) (r : Int) : value (newEma 0.9 e r) = blend (value e) r := by
  rw [newEma, ExactDouble.value_add, ExactDouble.value_mul, ExactDouble.value_mul,
    ExactDouble.value_sub, ExactDouble.value_intCast, ExactDouble.value_intCast,
    ExactDouble.value_alpha, blend, Int.cast_one]
  ring

/-- Where nothing is rounded, the code computes the rational average. -/
theorem value_ema (rs : List Int) : value (ema rs) = average rs := by
  have hfold : ∀ e : Double, value (rs.foldl (newEma 0.9) e) = rs.foldl blend (value e) := by
    induction rs with
    | nil => exact fun _ => rfl
    | cons r rs ih =>
        intro e
        rw [List.foldl_cons, List.foldl_cons, ih, value_newEma]
  rw [ema, hfold, ExactDouble.value_zero, average]

end Exact

/-! ## Calls -/

/-- A call and, where it has one, its result. -/
inductive Call where
  | select (client : Endpoint) (result : Outcome Backend)
  | addResponseTime (backend : Backend) (responseTime : Int)
  | exclude (backend : Backend) (result : Outcome Unit)

def CallStep (s : LeastResponseTimeSelector) : Call → LeastResponseTimeSelector → Prop
  | .select client result, t => s.selectBackend client = (result, t)
  | .addResponseTime b responseTime, t => (s.addResponseTime b responseTime).2 = t
  | .exclude b result, t => s.excludeBackend b = (result, t)

/-- The sample that a call adds for a backend: arguments are known by name. -/
def Call.sample? (b : Backend) : Call → Option Int
  | .addResponseTime a responseTime =>
    if a.toString = b.toString then some responseTime else none
  | _ => none

/-- The samples of a backend, in order. -/
def samples (b : Backend) (calls : List Call) : List Int := calls.filterMap (Call.sample? b)

theorem samples_snoc (b : Backend) (calls : List Call) (call : Call) :
    samples b (calls ++ [call]) = samples b calls ++ (call.sample? b).toList := by
  unfold samples
  rw [List.filterMap_append]
  cases hcall : call.sample? b with
  | none => simp [hcall]
  | some r => simp [hcall]

/-- Some entry for the backend has the average `e`. -/
def Averages (s : LeastResponseTimeSelector) (b : Backend) (e : Double) : Prop :=
  ∃ w, s.Stores b w ∧ w.responseTimeEma = e

/-- Every entry weighs a sample with nine tenths. -/
def Weighted (s : LeastResponseTimeSelector) : Prop :=
  ∀ b w, s.Stores b w → w.alpha = 0.9

/-! ## What one call does to the averages -/

theorem ema_addSample {w : AverageTimeWrapper} (hw : w.alpha = 0.9) (r : Int) :
    (((addSample r w).map Prod.fst).getD w).responseTimeEma = newEma 0.9 w.responseTimeEma r := by
  show newEma w.alpha w.responseTimeEma r = newEma 0.9 w.responseTimeEma r
  rw [hw]

theorem alpha_addSample (w : AverageTimeWrapper) (r : Int) :
    (((addSample r w).map Prod.fst).getD w).alpha = w.alpha := rfl

theorem selectBackend_snd (s : LeastResponseTimeSelector) (client : Endpoint) :
    (s.selectBackend client).2 = s := by
  rcases selectBackend_cases s client with ⟨entry, -, h⟩ | ⟨-, h⟩
  · rw [h]
  · rw [h]

/-- What a sample and an exclusion keep of a selector, every call keeps. -/
theorem callStep_rule {I : LeastResponseTimeSelector → Prop} {s t : LeastResponseTimeSelector}
    {call : Call} (hs : I s) (hadd : ∀ b r, I (s.addResponseTime b r).2)
    (hexclude : ∀ b, I (s.excludeBackend b).2) (hstep : CallStep s call t) : I t := by
  cases call with
  | select client result =>
      obtain rfl : _ = t := congrArg Prod.snd hstep
      rw [selectBackend_snd]
      exact hs
  | addResponseTime b r =>
      obtain rfl : _ = t := hstep
      exact hadd b r
  | exclude b result =>
      obtain rfl : _ = t := congrArg Prod.snd hstep
      exact hexclude b

theorem holds_iff_averages {s : LeastResponseTimeSelector} {b : Backend} :
    s.Holds b ↔ ∃ e, s.Averages b e := by
  rw [HeapPool.holds_iff_stores]
  constructor
  · rintro ⟨w, hw⟩
    exact ⟨w.responseTimeEma, w, hw, rfl⟩
  · rintro ⟨e, w, hw, -⟩
    exact ⟨w, hw⟩

/-- The selector is sound: names lead to entries, and every entry weighs samples alike. -/
structure Sound (s : LeastResponseTimeSelector) : Prop where
  named : s.Named
  weighted : s.Weighted

section Lawful

variable [LawfulPairingHeap]

theorem stores_callStep {s t : LeastResponseTimeSelector} {call : Call} (hs : s.Sound)
    (hstep : CallStep s call t) {b : Backend} {v : AverageTimeWrapper} (hv : t.Stores b v) :
    ∃ w, s.Stores b w ∧ v.alpha = w.alpha ∧
      v.responseTimeEma =
        (call.sample? b).elim w.responseTimeEma (newEma 0.9 w.responseTimeEma) := by
  cases call with
  | select client result =>
      obtain rfl : _ = t := congrArg Prod.snd hstep
      rw [selectBackend_snd] at hv
      exact ⟨v, hv, rfl, rfl⟩
  | addResponseTime a r =>
      obtain rfl : _ = t := hstep
      obtain ⟨w, hw, rfl⟩ :=
        (HeapPool.stores_updateEntry hs.named (keepsBackend_addSample r)).mp hv
      refine ⟨w, hw, ?_⟩
      by_cases hname : a.toString = b.toString
      · rw [if_pos hname, Call.sample?, if_pos hname]
        exact ⟨alpha_addSample w r, ema_addSample (hs.weighted b w hw) r⟩
      · rw [if_neg hname, Call.sample?, if_neg hname]
        exact ⟨rfl, rfl⟩
  | exclude a result =>
      obtain rfl : _ = t := congrArg Prod.snd hstep
      exact ⟨v, ((HeapPool.stores_excludeBackend hs.named).mp hv).1, rfl, rfl⟩

theorem sound_callStep {s t : LeastResponseTimeSelector} {call : Call} (hs : s.Sound)
    (hstep : CallStep s call t) : t.Sound where
  named := callStep_rule hs.named
    (fun a r => HeapPool.named_updateEntry hs.named (keepsBackend_addSample r) a)
    (HeapPool.named_excludeBackend hs.named) hstep
  weighted b v hv := by
    obtain ⟨w, hw, halpha, -⟩ := stores_callStep hs hstep hv
    rw [halpha]
    exact hs.weighted b w hw

/-- The state after the configuration: no name repeats, and every average is zero. -/
theorem sound_configure {config : Node} {s : LeastResponseTimeSelector} {missed : String}
    {bs : List Backend} (h : configure config = .ok s)
    (hbs : configuredBackends missed config = .ok bs)
    (hnames : (bs.map Backend.toString).Nodup) :
    s.Sound ∧ ∀ b e, s.Averages b e → e = 0.0 := by
  obtain ⟨bs', hbs', rfl⟩ := configure_eq_ok h
  obtain rfl := Except.ok.inj (hbs.symm.trans (hbs' missed))
  refine ⟨⟨HeapPool.named_insertAll_new (fun _ => rfl) hnames, fun b w hw => ?_⟩, ?_⟩
  · exact HeapPool.forall_stores_insertAll_new (P := fun w : AverageTimeWrapper => w.alpha = 0.9)
      (fun _ => rfl) hw
  · rintro b e ⟨w, hw, rfl⟩
    exact HeapPool.forall_stores_insertAll_new
      (P := fun w : AverageTimeWrapper => w.responseTimeEma = 0.0) (fun _ => rfl) hw

/-! ## Runs -/

theorem sound_run {s t : LeastResponseTimeSelector} {calls : List Call} (hs : s.Sound)
    (hrun : Run CallStep s calls t) : t.Sound :=
  hrun.invariant (fun _ _ _ h hstep => sound_callStep h hstep) hs

theorem averages_run {s t : LeastResponseTimeSelector} {calls : List Call} (hs : s.Sound)
    (hzero : ∀ b e, s.Averages b e → e = 0.0) (hrun : Run CallStep s calls t) {b : Backend}
    {e : Double} (he : t.Averages b e) : e = ema (samples b calls) := by
  induction hrun generalizing e with
  | nil => exact hzero b e he
  | @snoc t u calls call hrun hstep ih =>
      obtain ⟨v, hv, rfl⟩ := he
      obtain ⟨w, hw, -, hema⟩ := stores_callStep (sound_run hs hrun) hstep hv
      rw [hema, ih ⟨w, hw, rfl⟩, samples_snoc, ema, ema, List.foldl_append]
      cases call.sample? b with
      | none => rfl
      | some r => rfl

end Lawful

/-! ## The selected backend -/

theorem responseTimeEmaCompare_strictWeak : StrictWeak responseTimeEmaCompare :=
  strictWeak_of_key AverageTimeWrapper.responseTimeEma

instance orderedAverages [OrderedPairingHeap] :
    OrderedHeap (PairingHeap AverageTimeWrapper responseTimeEmaCompare) responseTimeEmaCompare :=
  OrderedPairingHeap.ordered responseTimeEmaCompare_strictWeak

theorem ordered_configure
    [ContractHeap (PairingHeap AverageTimeWrapper responseTimeEmaCompare) responseTimeEmaCompare]
    {config : Node} {s : LeastResponseTimeSelector} (h : configure config = .ok s) :
    Ordered s.backends := by
  obtain ⟨bs, -, rfl⟩ := configure_eq_ok h
  exact HeapPool.ordered_insertAll_new _ bs

theorem picks_least [LawfulPairingHeap]
    [ContractHeap (PairingHeap AverageTimeWrapper responseTimeEmaCompare) responseTimeEmaCompare]
    {s : LeastResponseTimeSelector} (hordered : Ordered s.backends) (hne : ∃ x, s.Holds x)
    (client : Endpoint) : ∃ b e, (s.selectBackend client).1 = .returned b ∧
      s.Averages b e ∧ ∀ y d, s.Averages y d → e ≤ d := by
  obtain ⟨entry, htop⟩ := HeapPool.topEntry_returns ((HeapPool.isEmpty_eq_false s).mpr hne)
  refine ⟨entry.backend, entry.responseTimeEma, ?_, ⟨entry, HeapPool.topEntry_stores htop, rfl⟩, ?_⟩
  · unfold selectBackend
    rw [htop]
  · rintro y d ⟨w, ⟨k, hw, -⟩, rfl⟩
    have hmax := HeapPool.topEntry_max hordered htop hw
    simpa [responseTimeEmaCompare] using hmax

section Ordered

variable [OrderedPairingHeap]

theorem ordered_callStep {s t : LeastResponseTimeSelector} {call : Call}
    (hs : Ordered s.backends) (hstep : CallStep s call t) : Ordered t.backends :=
  callStep_rule (I := fun u => Ordered u.backends) hs
    (fun a r => HeapPool.ordered_updateEntry hs a (addSample r))
    (HeapPool.ordered_excludeBackend hs) hstep

open ExactDouble (value)

omit [OrderedPairingHeap] in
/-- Whatever the arithmetic, each held backend has one average, computed from its own samples. -/
theorem averages_iff [LawfulPairingHeap] {config : Node} {s t : LeastResponseTimeSelector}
    {missed : String} {bs : List Backend} {calls : List Call} (h : configure config = .ok s)
    (hbs : configuredBackends missed config = .ok bs)
    (hnames : (bs.map Backend.toString).Nodup) (hrun : Run CallStep s calls t) (b : Backend)
    (e : Double) : t.Averages b e ↔ t.Holds b ∧ e = ema (samples b calls) := by
  obtain ⟨hs, hzero⟩ := sound_configure h hbs hnames
  constructor
  · intro he
    exact ⟨holds_iff_averages.mpr ⟨e, he⟩, averages_run hs hzero hrun he⟩
  · rintro ⟨hb, rfl⟩
    obtain ⟨e, he⟩ := holds_iff_averages.mp hb
    exact averages_run hs hzero hrun he ▸ he

/-- In every run of a selector configured with distinct names, and with an arithmetic that does
    not round, each held backend has one average, the fold of its own samples, between zero and
    the largest of them where none is negative; and a selection from a non-empty selector
    returns a backend with a least average. -/
theorem picks_smallest [ExactDouble] {config : Node} {s t : LeastResponseTimeSelector}
    {missed : String} {bs : List Backend} {calls : List Call} (h : configure config = .ok s)
    (hbs : configuredBackends missed config = .ok bs)
    (hnames : (bs.map Backend.toString).Nodup) (hrun : Run CallStep s calls t) :
    (∀ b e, t.Averages b e ↔ t.Holds b ∧ value e = average (samples b calls)) ∧
    (∀ b e, t.Averages b e → (∀ r ∈ samples b calls, 0 ≤ r) →
      0 ≤ value e ∧ value e ≤ ((samples b calls).foldl max 0 : Int)) ∧
    ((∃ x, t.Holds x) → ∀ client, ∃ b e, (t.selectBackend client).1 = .returned b ∧
      t.Averages b e ∧ ∀ y d, t.Averages y d → e ≤ d) := by
  have hiff := averages_iff h hbs hnames hrun
  have hvalue : ∀ b e, e = ema (samples b calls) ↔ value e = average (samples b calls) := by
    intro b e
    rw [← value_ema, ExactDouble.value_inj]
  have hordered : Ordered t.backends :=
    hrun.invariant (I := fun u : LeastResponseTimeSelector => Ordered u.backends)
      (fun _ _ _ hu hstep => ordered_callStep hu hstep) (ordered_configure h)
  refine ⟨fun b e => ?_, fun b e he hrs => ?_, picks_least hordered⟩
  · rw [hiff, hvalue]
  · rw [(hvalue b e).mp ((hiff b e).mp he).2]
    exact average_bounds hrs

end Ordered

end LeastResponseTimeSelector

end

namespace LeastResponseTimeSelector

section

open Reference Selector

def twoNew : LeastResponseTimeSelector := insertBackend (insertBackend HeapPool.new port80) port81

/-- Two samples of one backend, one of the other, and one of an unknown backend. -/
def fourSamples : List Call :=
  [.addResponseTime port80 10, .addResponseTime port81 2, .addResponseTime port80 0,
    .addResponseTime port82 7]

def afterFourSamples : LeastResponseTimeSelector :=
  ((((twoNew.addResponseTime port80 10).2.addResponseTime port81 2).2.addResponseTime
    port80 0).2.addResponseTime port82 7).2

theorem picks_smallest_fourSamples :
    configure twoEntries = .ok twoNew ∧ Run CallStep twoNew fourSamples afterFourSamples ∧
      ∀ b e, afterFourSamples.Averages b e ↔ afterFourSamples.Holds b ∧
        ExactDouble.value e = average (samples b fourSamples) := by
  have h : configure twoEntries = .ok twoNew := by rfl
  have hbs : configuredBackends "" twoEntries = .ok [port80, port81] := by rfl
  have hrun : Run CallStep twoNew fourSamples afterFourSamples :=
    .cons rfl (.cons rfl (.cons rfl (.one rfl)))
  exact ⟨h, hrun, (picks_smallest h hbs (by decide) hrun).1⟩

end

end LeastResponseTimeSelector

end LoadBalancer
