/-
  Least connections, as an object of its own: what its counters say and what it selects.

  A run is any sequence of calls, with whatever backends they name. Each counter is the fold
  of the calls that named or selected its backend, no call touches another one, and a
  selection returns a backend with a least counter and increments exactly that one
  (`picks_minimum`). The names of the configured backends are distinct.
-/
import LoadBalancer.Selectors.Exclusion
import LoadBalancer.Selectors.HeapEntries
import Mathlib.Algebra.GroupWithZero.Nat
import Mathlib.Algebra.Order.BigOperators.Group.List
import Mathlib.Algebra.Order.Group.Nat

namespace LoadBalancer

open Transition MutableHeap Platform

section

variable [Platform]

namespace LeastConnectionsSelector

/-- A call and, where it has one, its result. -/
inductive Call where
  | select (client : Endpoint) (result : Outcome Backend)
  | increase (backend : Backend)
  | decrease (backend : Backend)
  | exclude (backend : Backend) (result : Outcome Unit)

def CallStep (s : LeastConnectionsSelector) : Call → LeastConnectionsSelector → Prop
  | .select client result, t => s.selectBackend client = (result, t)
  | .increase b, t => (s.increaseConnectionCount b).2 = t
  | .decrease b, t => (s.decreaseConnectionCount b).2 = t
  | .exclude b result, t => s.excludeBackend b = (result, t)

/-- The call selects the backend, or has it as its argument: arguments are known by name. -/
def Call.Concerns (b : Backend) : Call → Prop
  | .select _ result => result = .returned b
  | .increase a => a.toString = b.toString
  | .decrease a => a.toString = b.toString
  | .exclude a _ => a.toString = b.toString

/-- The counter of a backend after a call. -/
def Call.tally (b : Backend) (n : Nat) : Call → Nat
  | .select _ (.returned x) => if x = b then n + 1 else n
  | .select _ _ => n
  | .increase a => if a.toString = b.toString then n + 1 else n
  | .decrease a => if a.toString = b.toString then n - 1 else n
  | .exclude _ _ => n

theorem Call.tally_of_not_concerns {b : Backend} {call : Call} (h : ¬ call.Concerns b) (n : Nat) :
    call.tally b n = n := by
  cases call with
  | select client result =>
      cases result with
      | returned x => exact if_neg fun heq => h (congrArg Outcome.returned heq)
      | thrown e => rfl
      | undefined => rfl
  | increase a => exact if_neg h
  | decrease a => exact if_neg h
  | exclude a result => rfl

theorem counts_iff_stores {s : LeastConnectionsSelector} {b : Backend} {n : Nat} :
    s.Counts b n ↔ ∃ w, s.Stores b w ∧ w.counter = n := by
  constructor
  · rintro ⟨k, w, hw, hb, hn⟩
    exact ⟨w, ⟨k, hw, hb⟩, hn⟩
  · rintro ⟨w, ⟨k, hw, hb⟩, hn⟩
    exact ⟨k, w, hw, hb, hn⟩

theorem holds_iff_counts {s : LeastConnectionsSelector} {b : Backend} :
    s.Holds b ↔ ∃ n, s.Counts b n := by
  simp only [HeapPool.holds_iff_stores, counts_iff_stores]
  constructor
  · rintro ⟨w, hw⟩
    exact ⟨w.counter, w, hw, rfl⟩
  · rintro ⟨n, w, hw, -⟩
    exact ⟨w, hw⟩

/-- What an increment, a decrement and an exclusion keep of a selector, every call keeps: a
    selection is an increment, or finds nothing. -/
theorem callStep_rule {I : LeastConnectionsSelector → Prop} {s t : LeastConnectionsSelector}
    {call : Call} (hkeyed : s.Keyed) (hs : I s) (hincrease : ∀ b, I (s.increaseConnectionCount b).2)
    (hdecrease : ∀ b, I (s.decreaseConnectionCount b).2) (hexclude : ∀ b, I (s.excludeBackend b).2)
    (hstep : CallStep s call t) : I t := by
  cases call with
  | select client result =>
      obtain rfl : _ = t := congrArg Prod.snd hstep
      rcases selectBackend_cases hkeyed client with ⟨entry, -, h⟩ | ⟨-, h⟩
      · rw [h]
        exact hincrease entry.b
      · rw [h]
        exact hs
  | increase b =>
      obtain rfl : _ = t := hstep
      exact hincrease b
  | decrease b =>
      obtain rfl : _ = t := hstep
      exact hdecrease b
  | exclude b result =>
      obtain rfl : _ = t := congrArg Prod.snd hstep
      exact hexclude b

section Lawful

variable [LawfulPairingHeap]

theorem named_configure {config : Node} {s : LeastConnectionsSelector} {missed : String}
    {bs : List Backend} (h : configure config = .ok s)
    (hbs : configuredBackends missed config = .ok bs)
    (hnames : (bs.map Backend.toString).Nodup) : s.Named := by
  obtain ⟨bs', hbs', rfl⟩ := configure_eq_ok h
  obtain rfl := Except.ok.inj (hbs.symm.trans (hbs' missed))
  exact HeapPool.named_insertAll_new (fun _ => rfl) hnames

/-! ## What one call does to the counters -/

theorem counts_updateEntry {s : LeastConnectionsSelector} (hs : s.Named)
    {f : CounterWrapper → Option (CounterWrapper × HeapUpdate)} (hf : HeapPool.KeepsBackend f)
    {g : Nat → Nat} (hg : ∀ w, (((f w).map Prod.fst).getD w).counter = g w.counter)
    (a b : Backend) (n : Nat) : Counts (s.updateEntry a f).2 b n ↔
      ∃ m, s.Counts b m ∧ n = if a.toString = b.toString then g m else m := by
  rw [counts_iff_stores]
  simp only [counts_iff_stores, HeapPool.stores_updateEntry hs hf]
  constructor
  · rintro ⟨v, ⟨w, hw, rfl⟩, rfl⟩
    refine ⟨w.counter, ⟨w, hw, rfl⟩, ?_⟩
    split
    · exact hg w
    · rfl
  · rintro ⟨m, ⟨w, hw, rfl⟩, rfl⟩
    refine ⟨_, ⟨w, hw, rfl⟩, ?_⟩
    split
    · exact hg w
    · rfl

theorem named_callStep {s t : LeastConnectionsSelector} {call : Call} (hs : s.Named)
    (hstep : CallStep s call t) : t.Named :=
  callStep_rule hs.keyed hs (HeapPool.named_updateEntry hs keepsBackend_countUp)
    (HeapPool.named_updateEntry hs keepsBackend_countDown) (HeapPool.named_excludeBackend hs) hstep

/-- A call tallies, for each backend that is held after it, the counter it had before. -/
theorem counts_callStep {s t : LeastConnectionsSelector} {call : Call} (hs : s.Named)
    (hstep : CallStep s call t) (b : Backend) (n : Nat) :
    t.Counts b n ↔ t.Holds b ∧ ∃ m, s.Counts b m ∧ n = call.tally b m := by
  -- a call other than an exclusion rewrites the counter of each held backend
  have hrewritten : ∀ {u : LeastConnectionsSelector} {c : Call},
      (∀ n, u.Counts b n ↔ ∃ m, s.Counts b m ∧ n = c.tally b m) →
      (u.Counts b n ↔ u.Holds b ∧ ∃ m, s.Counts b m ∧ n = c.tally b m) := by
    intro u c hu
    rw [hu n, holds_iff_counts]
    exact ⟨fun h => ⟨⟨n, (hu n).mpr h⟩, h⟩, fun h => h.2⟩
  cases call with
  | select client result =>
      rcases selectBackend_cases hs.keyed client with ⟨entry, htop, h⟩ | ⟨-, h⟩
      · obtain ⟨rfl, rfl⟩ := Prod.mk.inj (h.symm.trans hstep)
        have hheld : s.Holds entry.b :=
          HeapPool.holds_iff_stores.mpr ⟨entry, HeapPool.topEntry_stores htop⟩
        refine hrewritten fun n => ?_
        rw [increaseConnectionCount,
          counts_updateEntry hs keepsBackend_countUp counter_countUp]
        refine exists_congr fun m => and_congr_right fun hm => ?_
        have hname : entry.b.toString = b.toString ↔ entry.b = b :=
          ⟨hs.eq_of_toString hheld (holds_iff_counts.mpr ⟨m, hm⟩), fun heq => heq ▸ rfl⟩
        simp only [hname, Call.tally]
      · obtain ⟨rfl, rfl⟩ := Prod.mk.inj (h.symm.trans hstep)
        exact hrewritten fun n => by simp [Call.tally]
  | increase a =>
      obtain rfl : _ = t := hstep
      exact hrewritten fun n =>
        counts_updateEntry hs keepsBackend_countUp counter_countUp a b n
  | decrease a =>
      obtain rfl : _ = t := hstep
      exact hrewritten fun n =>
        counts_updateEntry hs keepsBackend_countDown counter_countDown a b n
  | exclude a result =>
      obtain rfl : _ = t := congrArg Prod.snd hstep
      simp only [holds_iff_counts, counts_iff_stores, excludeBackend,
        HeapPool.stores_excludeBackend hs, Call.tally]
      constructor
      · rintro ⟨w, ⟨hw, hne⟩, rfl⟩
        exact ⟨⟨w.counter, w, ⟨hw, hne⟩, rfl⟩, w.counter, ⟨w, hw, rfl⟩, rfl⟩
      · rintro ⟨⟨_, v, ⟨hv, hne⟩, -⟩, m, ⟨w, hw, rfl⟩, rfl⟩
        exact ⟨w, ⟨hw, hne⟩, rfl⟩

/-- A backend is no longer held only where it is excluded by its name. -/
theorem holds_callStep {s t : LeastConnectionsSelector} {call : Call} (hs : s.Named)
    (hstep : CallStep s call t) (b : Backend) : t.Holds b ↔
      s.Holds b ∧ ∀ a result, call = .exclude a result → a.toString ≠ b.toString := by
  cases call with
  | select client result =>
      rw [and_iff_left fun a r h => by cases h]
      obtain rfl : _ = t := congrArg Prod.snd hstep
      rcases selectBackend_cases hs.keyed client with ⟨entry, -, h⟩ | ⟨-, h⟩
      · rw [h]
        exact HeapPool.holds_updateEntry keepsBackend_countUp
      · rw [h]
  | increase a =>
      rw [and_iff_left fun a r h => by cases h]
      obtain rfl : _ = t := hstep
      exact HeapPool.holds_updateEntry keepsBackend_countUp
  | decrease a =>
      rw [and_iff_left fun a r h => by cases h]
      obtain rfl : _ = t := hstep
      exact HeapPool.holds_updateEntry keepsBackend_countDown
  | exclude a result =>
      obtain rfl : _ = t := congrArg Prod.snd hstep
      simp only [HeapPool.holds_iff_stores, excludeBackend, HeapPool.stores_excludeBackend hs,
        exists_and_right]
      refine and_congr_right fun _ => ⟨?_, fun h => h a result rfl⟩
      rintro hne a' result' heq
      cases heq
      exact hne

theorem holds_callStep_iff {s t : LeastConnectionsSelector} {call : Call} (hs : s.Named)
    (hstep : CallStep s call t) {b : Backend} (hcall : ¬ call.Concerns b) :
    t.Holds b ↔ s.Holds b := by
  rw [holds_callStep hs hstep, and_iff_left]
  rintro a result rfl
  exact hcall

/-- A call leaves the counters of the backends it does not concern. -/
theorem counts_frame {s t : LeastConnectionsSelector} {call : Call} (hs : s.Named)
    (hstep : CallStep s call t) {b : Backend} (hcall : ¬ call.Concerns b) (n : Nat) :
    t.Counts b n ↔ s.Counts b n := by
  rw [counts_callStep hs hstep, holds_callStep_iff hs hstep hcall]
  simp only [Call.tally_of_not_concerns hcall, holds_iff_counts]
  constructor
  · rintro ⟨-, m, hm, rfl⟩
    exact hm
  · intro hn
    exact ⟨⟨n, hn⟩, n, hn, rfl⟩

/-! ## Runs -/

theorem named_run {s t : LeastConnectionsSelector} {calls : List Call} (hs : s.Named)
    (hrun : Run CallStep s calls t) : t.Named :=
  hrun.invariant (fun _ _ _ h hstep => named_callStep h hstep) hs

theorem counts_run {s t : LeastConnectionsSelector} {calls : List Call} (hs : s.Named)
    (hzero : ∀ b n, s.Counts b n → n = 0) (hrun : Run CallStep s calls t) (b : Backend) (n : Nat) :
    t.Counts b n ↔ t.Holds b ∧ n = calls.foldl (Call.tally b) 0 := by
  induction hrun generalizing n with
  | nil =>
      rw [holds_iff_counts]
      constructor
      · intro hn
        exact ⟨⟨n, hn⟩, hzero b n hn⟩
      · rintro ⟨⟨m, hm⟩, rfl⟩
        exact (hzero b m hm) ▸ hm
  | @snoc t u calls call hrun hstep ih =>
      have ht := named_run hs hrun
      rw [counts_callStep ht hstep, List.foldl_append]
      refine and_congr_right fun hu => ?_
      have hheld := ((holds_callStep ht hstep b).mp hu).1
      simp only [ih, hheld, true_and, exists_eq_left]
      rfl

end Lawful

/-! ## The selected backend -/

/-- The entry on top of an ordered heap has a least counter. -/
theorem counter_le_of_topEntry
    [ContractHeap (PairingHeap CounterWrapper connectionsCompare) connectionsCompare]
    {s : LeastConnectionsSelector} (hordered : Ordered s.backends) {entry : CounterWrapper}
    (htop : s.topEntry = .returned entry) {y : Backend} {m : Nat} (hm : s.Counts y m) :
    entry.counter ≤ m := by
  obtain ⟨k, w, hw, -, rfl⟩ := hm
  have hmax := HeapPool.topEntry_max hordered htop hw
  simpa [connectionsCompare] using hmax

section Ordered

variable [OrderedPairingHeap]

theorem ordered_callStep {s t : LeastConnectionsSelector} {call : Call}
    (hkeyed : s.Keyed) (hs : Ordered s.backends) (hstep : CallStep s call t) :
    Ordered t.backends :=
  callStep_rule (I := fun u => Ordered u.backends) hkeyed hs
    (fun a => HeapPool.ordered_updateEntry hs a countUp)
    (fun a => HeapPool.ordered_updateEntry hs a countDown) (HeapPool.ordered_excludeBackend hs) hstep

theorem ordered_run {s t : LeastConnectionsSelector} {calls : List Call}
    (hs : s.Named) (hordered : Ordered s.backends) (hrun : Run CallStep s calls t) :
    Ordered t.backends := by
  have hboth : t.Named ∧ Ordered t.backends :=
    hrun.invariant (I := fun u => u.Named ∧ Ordered u.backends)
      (fun _ _ _ h hstep =>
        ⟨named_callStep h.1 hstep, ordered_callStep h.1.keyed h.2 hstep⟩) ⟨hs, hordered⟩
  exact hboth.2

theorem picks_least {s : LeastConnectionsSelector} (hs : s.Named)
    (hordered : Ordered s.backends) (hne : ∃ x, s.Holds x) (client : Endpoint) :
    ∃ b n, (s.selectBackend client).1 = .returned b ∧ s.Counts b n ∧
      (∀ y m, s.Counts y m → n ≤ m) ∧ (s.selectBackend client).2.Counts b (n + 1) ∧
      ∀ y m, y ≠ b → ((s.selectBackend client).2.Counts y m ↔ s.Counts y m) := by
  obtain ⟨entry, htop⟩ := HeapPool.topEntry_returns ((HeapPool.isEmpty_eq_false s).mpr hne)
  have hselect := selectBackend_of_topEntry hs.keyed htop client
  have hentry : s.Counts entry.b entry.counter :=
    counts_iff_stores.mpr ⟨entry, HeapPool.topEntry_stores htop, rfl⟩
  have hstep : CallStep s (.select client (.returned entry.b)) (s.selectBackend client).2 :=
    Prod.ext (by rw [hselect]) rfl
  refine ⟨entry.b, entry.counter, congrArg Prod.fst hstep, hentry,
    fun y m => counter_le_of_topEntry hordered htop, ?_, ?_⟩
  · rw [counts_callStep hs hstep, holds_callStep hs hstep]
    have hheld : s.Holds entry.b := holds_iff_counts.mpr ⟨_, hentry⟩
    exact ⟨⟨hheld, fun a r h => by cases h⟩, entry.counter, hentry, (if_pos rfl).symm⟩
  · intro y m hy
    exact counts_frame hs hstep (fun h => hy (Outcome.returned.inj h).symm) m

/-- In every run of a selector configured with distinct names, each held backend has one
    counter, the fold of the calls that named or selected it; a call leaves the counters of
    the backends it does not concern; and a selection from a non-empty selector returns a
    backend with a least counter and increments exactly that one. -/
theorem picks_minimum {config : Node} {s t : LeastConnectionsSelector}
    {missed : String} {bs : List Backend} {calls : List Call} (h : configure config = .ok s)
    (hbs : configuredBackends missed config = .ok bs)
    (hnames : (bs.map Backend.toString).Nodup) (hrun : Run CallStep s calls t) :
    (∀ b n, t.Counts b n ↔ t.Holds b ∧ n = calls.foldl (Call.tally b) 0) ∧
    (∀ call u, CallStep t call u → ∀ b, ¬ call.Concerns b → ∀ n, u.Counts b n ↔ t.Counts b n) ∧
    ((∃ x, t.Holds x) → ∀ client, ∃ b n, (t.selectBackend client).1 = .returned b ∧
      t.Counts b n ∧ (∀ y m, t.Counts y m → n ≤ m) ∧ (t.selectBackend client).2.Counts b (n + 1) ∧
      ∀ y m, y ≠ b → ((t.selectBackend client).2.Counts y m ↔ t.Counts y m)) := by
  have hs : s.Named := named_configure h hbs hnames
  have ht : t.Named := named_run hs hrun
  have hordered : Ordered t.backends := ordered_run hs (ordered_configure h) hrun
  exact ⟨counts_run hs (fun _ _ => counts_configure h) hrun,
    fun call u hstep b hcall n => counts_frame ht hstep hcall n,
    fun hne client => picks_least ht hordered hne client⟩

/-! ## No held backend is passed over for ever -/

/-- How many selections of backends with a counter up to `c` are left. -/
def room (bs : List Backend) (c : Nat) (s : LeastConnectionsSelector) : Nat :=
  (bs.map fun y => c + 1 - (s.counterOf y.toString).getD 0).sum

theorem room_increase_lt {s : LeastConnectionsSelector} (hs : s.Keyed) {bs : List Backend}
    {b : Backend} (hb : b ∈ bs) {n c : Nat} (hn : s.counterOf b.toString = some n) (hle : n ≤ c) :
    room bs c (s.increaseConnectionCount b).2 < room bs c s := by
  apply List.sum_lt_sum
  · intro y _
    rw [counterOf_increaseConnectionCount hs]
    split
    · cases s.counterOf y.toString with
      | none => exact le_rfl
      | some m =>
          simp only [Option.map_some, Option.getD_some]
          omega
    · exact le_rfl
  · refine ⟨b, hb, ?_⟩
    rw [counterOf_increaseConnectionCount hs, if_pos rfl, hn]
    simp only [Option.map_some, Option.getD_some]
    omega

/-- Each selection of another backend takes room, so the backend is selected some time. -/
theorem exists_selected {s : LeastConnectionsSelector} (hs : s.Named)
    (hordered : Ordered s.backends) {bs : List Backend} (hbs : ∀ y, s.Holds y → y ∈ bs)
    {x : Backend} {c : Nat} (hx : s.Counts x c) (client : Endpoint) :
    ∃ k, .returned x ∈ Selector.selectAll (.leastConnections s) (List.replicate k client) := by
  induction hroom : room bs c s using Nat.strong_induction_on generalizing s with
  | _ n ih =>
      have hheld : s.Holds x := holds_iff_counts.mpr ⟨c, hx⟩
      obtain ⟨entry, htop⟩ :=
        HeapPool.topEntry_returns ((HeapPool.isEmpty_eq_false s).mpr ⟨x, hheld⟩)
      have hselect := selectBackend_of_topEntry hs.keyed htop client
      have hstep : CallStep s (.select client (.returned entry.b)) (s.selectBackend client).2 :=
        Prod.ext (by rw [hselect]) rfl
      have hfirst : (Selector.selectBackend client (.leastConnections s)).1 = .returned entry.b :=
        congrArg Prod.fst hstep
      by_cases hentry : entry.b = x
      · refine ⟨1, ?_⟩
        rw [List.replicate_one, Selector.selectAll, hfirst, hentry]
        exact List.mem_cons_self
      · have hcounts : s.Counts entry.b entry.counter :=
          counts_iff_stores.mpr ⟨entry, HeapPool.topEntry_stores htop, rfl⟩
        have hlt : room bs c (s.selectBackend client).2 < n := by
          rw [hselect, ← hroom]
          exact room_increase_lt hs.keyed (hbs _ (holds_iff_counts.mpr ⟨_, hcounts⟩))
            (counterOf_of_pooled hs.pooled hcounts) (counter_le_of_topEntry hordered htop hx)
        have hkept : (s.selectBackend client).2.Counts x c :=
          (counts_frame hs hstep (fun h => hentry (Outcome.returned.inj h)) c).mpr hx
        obtain ⟨k, hk⟩ := ih _ hlt (named_callStep hs hstep)
          (ordered_callStep hs.keyed hordered hstep)
          (fun y hy => hbs y ((holds_callStep hs hstep y).mp hy).1) hkept rfl
        refine ⟨k + 1, ?_⟩
        rw [List.replicate_succ, Selector.selectAll]
        exact List.mem_cons_of_mem _ hk

end Ordered

end LeastConnectionsSelector

end

namespace LeastConnectionsSelector

section

open Reference Selector

def twoNew : LeastConnectionsSelector := insertBackend (insertBackend HeapPool.new port80) port81

/-- A selection, an increment of the other backend, and a decrement of an unknown one. -/
def threeCalls : List Call :=
  [.select somebody (.returned port80), .increase port81, .decrease port82]

def afterThreeCalls : LeastConnectionsSelector :=
  (((twoNew.selectBackend somebody).2.increaseConnectionCount port81).2.decreaseConnectionCount
    port82).2

theorem picks_minimum_threeCalls :
    configure twoEntries = .ok twoNew ∧ Run CallStep twoNew threeCalls afterThreeCalls ∧
      ∀ b n, afterThreeCalls.Counts b n ↔
        afterThreeCalls.Holds b ∧ n = threeCalls.foldl (Call.tally b) 0 := by
  have h : configure twoEntries = .ok twoNew := by rfl
  have hbs : configuredBackends "" twoEntries = .ok [port80, port81] := by rfl
  have hselect : CallStep twoNew (.select somebody (.returned port80))
      (twoNew.selectBackend somebody).2 := by rfl
  have hrun : Run CallStep twoNew threeCalls afterThreeCalls :=
    .cons hselect (.cons rfl (.one rfl))
  exact ⟨h, hrun, (picks_minimum h hbs (by decide) hrun).1⟩

end

end LeastConnectionsSelector

end LoadBalancer
