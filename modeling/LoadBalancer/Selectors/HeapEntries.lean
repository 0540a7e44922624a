/-
  The entries of a heap whose names are distinct.

  Where every entry is the one its name leads to (`Named`), a backend has one entry at most
  (`Named.unique_name`), and the calls act on entries: an update rewrites the entry of its name and
  leaves the others (`stores_updateEntry`), an exclusion takes the entry of its name
  (`stores_excludeBackend`). `Named` holds after the configuration and every call keeps it.
-/
import LoadBalancer.Selectors.HeapPool

namespace LoadBalancer

open MutableHeap Platform

variable [Platform]

namespace HeapPool

variable {W : Type} [HeapEntry W] {lt : W → W → Bool}

/-- `w` is an entry of the backend. -/
def Stores (p : HeapPool W lt) (b : Backend) (w : W) : Prop :=
  ∃ k, find p.backends k = some w ∧ backend w = b

/-- The handles and the entries belong to each other. -/
structure Named (p : HeapPool W lt) : Prop where
  keyed : p.Keyed
  pooled : p.Pooled

theorem holds_iff_stores {p : HeapPool W lt} {b : Backend} :
    p.Holds b ↔ ∃ w, p.Stores b w := by
  unfold Holds Stores
  exact exists_comm

theorem Named.handle_iff {p : HeapPool W lt} (hp : p.Named) {k : Handle} {w : W}
    (hw : find p.backends k = some w) (name : String) :
    p.handlePool name = some k ↔ (backend w).toString = name := by
  constructor
  · intro hk
    obtain ⟨v, hv, hname⟩ := hp.keyed name k hk
    obtain rfl := Option.some.inj (hw.symm.trans hv)
    exact hname
  · rintro rfl
    exact hp.pooled k w hw

/-- Two entries with one name are one entry. -/
theorem Named.unique_name {p : HeapPool W lt} (hp : p.Named) {b c : Backend} {w v : W}
    (hw : p.Stores b w) (hv : p.Stores c v) (hname : b.toString = c.toString) : w = v := by
  obtain ⟨k, hk, rfl⟩ := hw
  obtain ⟨j, hj, rfl⟩ := hv
  have hsame : some k = some j := by
    rw [← hp.pooled k w hk, hname, hp.pooled j v hj]
  obtain rfl := Option.some.inj hsame
  exact Option.some.inj (hk.symm.trans hj)

/-- Held backends with one name are equal. -/
theorem Named.eq_of_toString {p : HeapPool W lt} (hp : p.Named) {b c : Backend}
    (hb : p.Holds b) (hc : p.Holds c) (hname : b.toString = c.toString) : b = c := by
  obtain ⟨w, hw⟩ := holds_iff_stores.mp hb
  obtain ⟨v, hv⟩ := holds_iff_stores.mp hc
  obtain rfl := hp.unique_name hw hv hname
  obtain ⟨-, -, rfl⟩ := hw
  obtain ⟨-, -, rfl⟩ := hv
  rfl

theorem topEntry_stores {p : HeapPool W lt} {w : W} (h : p.topEntry = .returned w) :
    p.Stores (backend w) w := by
  obtain ⟨k, -, hk⟩ := topEntry_returned h
  exact ⟨k, hk, rfl⟩

variable [LawfulPairingHeap]

theorem named_insertAll_new {mk : Backend → W} (hmk : ∀ b, backend (mk b) = b)
    {bs : List Backend} (hnames : (bs.map Backend.toString).Nodup) :
    (bs.foldl (fun p b => p.insertBackend (mk b)) (new : HeapPool W lt)).Named :=
  ⟨keyed_insertAll keyed_new bs, (pooled_insertAll_new hmk).mpr hnames⟩

theorem named_updateEntry {p : HeapPool W lt} (hp : p.Named)
    {f : W → Option (W × HeapUpdate)} (hf : KeepsBackend f) (a : Backend) :
    (p.updateEntry a f).2.Named :=
  ⟨keyed_updateEntry hf hp.keyed a, pooled_updateEntry hf hp.pooled a⟩

theorem named_excludeBackend {p : HeapPool W lt} (hp : p.Named) (a : Backend) :
    (p.excludeBackend a).2.Named :=
  ⟨keyed_excludeBackend hp.keyed a, pooled_excludeBackend hp.keyed hp.pooled a⟩

theorem stores_updateEntry {p : HeapPool W lt} (hp : p.Named)
    {f : W → Option (W × HeapUpdate)} (hf : KeepsBackend f) {a b : Backend} {v : W} :
    (p.updateEntry a f).2.Stores b v ↔
      ∃ w, p.Stores b w ∧
        v = if a.toString = b.toString then ((f w).map Prod.fst).getD w else w := by
  have hfind : ∀ k, find (p.updateEntry a f).2.backends k = some v ↔
      ∃ w, find p.backends k = some w ∧
        v = if a.toString = (backend w).toString then ((f w).map Prod.fst).getD w else w := by
    intro k
    rw [find_updateEntry, Option.map_eq_some_iff]
    refine exists_congr fun w => and_congr_right fun hw => ?_
    have hname : p.handlePool a.toString = some k ↔ a.toString = (backend w).toString :=
      (hp.handle_iff hw _).trans eq_comm
    simp only [hname, eq_comm]
  have hback : ∀ w, v = (if a.toString = (backend w).toString then ((f w).map Prod.fst).getD w
      else w) → backend v = backend w := by
    rintro w rfl
    split
    · exact hf.getD w
    · rfl
  constructor
  · rintro ⟨k, hk, rfl⟩
    obtain ⟨w, hw, hv⟩ := (hfind k).mp hk
    refine ⟨w, ⟨k, hw, (hback w hv).symm⟩, ?_⟩
    rw [hback w hv]
    exact hv
  · rintro ⟨w, ⟨k, hw, rfl⟩, hv⟩
    exact ⟨k, (hfind k).mpr ⟨w, hw, hv⟩, hback w hv⟩

theorem stores_excludeBackend {p : HeapPool W lt} (hp : p.Named) {a b : Backend} {w : W} :
    (p.excludeBackend a).2.Stores b w ↔ p.Stores b w ∧ a.toString ≠ b.toString := by
  constructor
  · rintro ⟨k, hk, rfl⟩
    rw [find_excludeBackend hp.keyed] at hk
    split at hk
    · cases hk
    · next hne =>
      rw [hp.handle_iff hk] at hne
      exact ⟨⟨k, hk, rfl⟩, fun h => hne h.symm⟩
  · rintro ⟨⟨k, hk, rfl⟩, hne⟩
    refine ⟨k, ?_, rfl⟩
    rw [find_excludeBackend hp.keyed, if_neg, hk]
    rw [hp.handle_iff hk]
    exact fun h => hne h.symm

theorem holds_excludeBackend_iff {p : HeapPool W lt} (hp : p.Named) {a b : Backend} :
    (p.excludeBackend a).2.Holds b ↔ p.Holds b ∧ a.toString ≠ b.toString := by
  simp only [holds_iff_stores, stores_excludeBackend hp, exists_and_right]

/-- What every inserted entry meets, every entry of a new pool meets. -/
theorem forall_stores_insertAll_new {P : W → Prop} {mk : Backend → W} (hmk : ∀ b, P (mk b))
    {bs : List Backend} {b : Backend} {w : W}
    (h : (bs.foldl (fun p b => p.insertBackend (mk b)) (new : HeapPool W lt)).Stores b w) :
    P w := by
  obtain ⟨k, hk, -⟩ := h
  refine forall_insertAll hmk (fun k w hw => ?_) bs k w hk
  rw [find_new] at hw
  cases hw

end HeapPool

end LoadBalancer
