/-
  The map of handles and the heap of the two heap selectors: when they are in bijection.

  `Bijective` says that each element is the target of one handle, stored under the element's
  name, and that no handle dangles. A configuration that repeats a name pushes two elements
  and stores one handle, so it fails from the start; a configuration that does not keeps it in
  every run (`bijective_run`), and then the entry on top is the one whose counter a selection
  increments, and an exclusion removes its backend.
-/
import LoadBalancer.Selectors.LeastAverage
import LoadBalancer.Selectors.LeastCounter

namespace LoadBalancer

open Transition MutableHeap Platform

section

variable [Platform]

namespace HeapPool

variable {W : Type} [HeapEntry W] {lt : W → W → Bool}

/-- Each element is the target of exactly one handle, which its name leads to, and every
    handle refers to an element. -/
structure Bijective (p : HeapPool W lt) : Prop where
  named : ∀ k w, find p.backends k = some w → p.handlePool (backend w).toString = some k
  one : ∀ name other k, p.handlePool name = some k → p.handlePool other = some k → name = other
  live : ∀ name k, p.handlePool name = some k → ∃ w, find p.backends k = some w

/-- Every held backend can be excluded. -/
def Excludable (p : HeapPool W lt) : Prop :=
  ∀ b, p.Holds b → ¬ (p.excludeBackend b).2.Holds b

theorem bijective_iff_named {p : HeapPool W lt} : p.Bijective ↔ p.Named := by
  constructor
  · intro h
    refine ⟨fun name k hk => ?_, h.named⟩
    obtain ⟨w, hw⟩ := h.live name k hk
    exact ⟨w, hw, h.one _ _ k (h.named k w hw) hk⟩
  · intro h
    refine ⟨h.pooled, fun name other k => name_unique h.keyed, fun name k hk => ?_⟩
    obtain ⟨w, hw, -⟩ := h.keyed name k hk
    exact ⟨w, hw⟩

variable [LawfulPairingHeap]

theorem Named.excludable {p : HeapPool W lt} (hp : p.Named) : p.Excludable :=
  fun b _ => not_holds_excludeBackend hp.keyed hp.pooled b

end HeapPool

namespace LeastConnectionsSelector

/-- A selection increments the counter of the entry on top, and of no other. -/
def CountsTop (s : LeastConnectionsSelector) : Prop :=
  ∀ client k entry, isEmpty s.backends = false → top s.backends = some k →
    find s.backends k = some entry →
    (s.selectBackend client).1 = .returned entry.b ∧
      ∀ j, find (s.selectBackend client).2.backends j =
        if j = k then some { entry with counter := entry.counter + 1 } else find s.backends j

variable [LawfulPairingHeap]

theorem countsTop_of_named {s : LeastConnectionsSelector} (hs : s.Named) : s.CountsTop := by
  intro client k entry hne htop hk
  have hentry : s.topEntry = .returned entry := by
    unfold HeapPool.topEntry
    rw [hne, htop]
    simp [hk]
  have hpool : s.handlePool entry.b.toString = some k := hs.pooled k entry hk
  rw [selectBackend_of_topEntry hs.keyed hentry client]
  refine ⟨rfl, fun j => ?_⟩
  show find (s.updateEntry entry.b countUp).2.backends j = _
  rw [HeapPool.find_updateEntry, hpool]
  by_cases hj : j = k
  · rw [hj, hk]
    simp [countUp]
  · rw [if_neg hj]
    have hne : ¬ some k = some j := fun h => hj (Option.some.inj h).symm
    simp [hne]

theorem pooled_configure {config : Node} {s : LeastConnectionsSelector} {missed : String}
    {bs : List Backend} (h : configure config = .ok s)
    (hbs : configuredBackends missed config = .ok bs) :
    s.Pooled ↔ (bs.map Backend.toString).Nodup := by
  obtain ⟨bs', hbs', rfl⟩ := configure_eq_ok h
  obtain rfl := Except.ok.inj (hbs.symm.trans (hbs' missed))
  exact HeapPool.pooled_insertAll_new fun _ => rfl

end LeastConnectionsSelector

namespace LeastResponseTimeSelector

variable [LawfulPairingHeap]

theorem pooled_configure {config : Node} {s : LeastResponseTimeSelector} {missed : String}
    {bs : List Backend} (h : configure config = .ok s)
    (hbs : configuredBackends missed config = .ok bs) :
    s.Pooled ↔ (bs.map Backend.toString).Nodup := by
  obtain ⟨bs', hbs', rfl⟩ := configure_eq_ok h
  obtain rfl := Except.ok.inj (hbs.symm.trans (hbs' missed))
  exact HeapPool.pooled_insertAll_new fun _ => rfl

end LeastResponseTimeSelector

/-- In every run of the two heap selectors, the handles and the elements are in bijection, a
    selection counts the entry it read, and every held backend can be excluded, exactly if no
    two configured endpoints have one name. -/
theorem handleMap_iff [LawfulPairingHeap] {config : Node} {missed : String} {bs : List Backend}
    (hbs : configuredBackends missed config = .ok bs) :
    (∀ s, LeastConnectionsSelector.configure config = .ok s →
      ((∀ calls t, Run LeastConnectionsSelector.CallStep s calls t →
        t.Bijective ∧ t.CountsTop ∧ t.Excludable) ↔ (bs.map Backend.toString).Nodup)) ∧
    ∀ s, LeastResponseTimeSelector.configure config = .ok s →
      ((∀ calls t, Run LeastResponseTimeSelector.CallStep s calls t →
        t.Bijective ∧ t.Excludable) ↔ (bs.map Backend.toString).Nodup) := by
  refine ⟨fun s h => ⟨fun hall => ?_, fun hnames calls t hrun => ?_⟩,
    fun s h => ⟨fun hall => ?_, fun hnames calls t hrun => ?_⟩⟩
  · rw [← LeastConnectionsSelector.pooled_configure h hbs]
    exact (hall [] s (.nil s)).1.named
  · have hs := LeastConnectionsSelector.named_configure h hbs hnames
    have ht := LeastConnectionsSelector.named_run hs hrun
    exact ⟨HeapPool.bijective_iff_named.mpr ht, LeastConnectionsSelector.countsTop_of_named ht,
      ht.excludable⟩
  · rw [← LeastResponseTimeSelector.pooled_configure h hbs]
    exact (hall [] s (.nil s)).1.named
  · have hs := (LeastResponseTimeSelector.sound_configure h hbs hnames).1
    have ht := (LeastResponseTimeSelector.sound_run hs hrun).named
    exact ⟨HeapPool.bijective_iff_named.mpr ht, ht.excludable⟩

end

section

open Reference

/-- Least connections over two endpoints, and over one listed twice. -/
def distinctPool : LeastConnectionsSelector :=
  (LeastConnectionsSelector.insertBackend .new Selector.port80).insertBackend Selector.port81
def repeatedPool : LeastConnectionsSelector :=
  (LeastConnectionsSelector.insertBackend .new Selector.port80).insertBackend Selector.port80

theorem handleMap_distinctPool :
    LeastConnectionsSelector.configure Selector.twoEntries = .ok distinctPool ∧
      ∀ calls t, Run LeastConnectionsSelector.CallStep distinctPool calls t →
        t.Bijective ∧ t.CountsTop ∧ t.Excludable := by
  have h : LeastConnectionsSelector.configure Selector.twoEntries = .ok distinctPool := by rfl
  have hbs : configuredBackends "" Selector.twoEntries =
      .ok [Selector.port80, Selector.port81] := by rfl
  exact ⟨h, ((handleMap_iff hbs).1 distinctPool h).mpr (by decide)⟩

/-- The first element has no handle: after the exclusion of the endpoint it is still in the
    heap, its backend is selected, and nothing counts it. -/
theorem not_handleMap_repeatedPool :
    LeastConnectionsSelector.configure Selector.repeatedEntry = .ok repeatedPool ∧
      ¬ repeatedPool.Bijective ∧
      (repeatedPool.excludeBackend Selector.port80).1 = .returned () ∧
      (((repeatedPool.excludeBackend Selector.port80).2.selectBackend Selector.somebody).1 =
        .returned Selector.port80) ∧
      ((repeatedPool.excludeBackend Selector.port80).2.selectBackend Selector.somebody).2 =
        (repeatedPool.excludeBackend Selector.port80).2 := by
  have hfirst : find repeatedPool.backends 1 = some ⟨Selector.port80, 0⟩ := by rfl
  have hpool : repeatedPool.handlePool Selector.port80.toString = some 2 := by rfl
  refine ⟨by rfl, fun h => ?_, by rfl, by rfl, by rfl⟩
  have hsame : some 2 = some 1 := hpool.symm.trans (h.named 1 _ hfirst)
  cases hsame

end

end LoadBalancer
