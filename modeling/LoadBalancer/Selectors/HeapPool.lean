/-
  The heap of backends and the map of handles that `LeastConnectionsSelector` and
  `LeastResponseTimeSelector` share: `InsertBackend`, `ExcludeBackend`, and the lookup by
  name followed by an update of the entry.

  An entry is reached only through the handle stored under the name of its backend. Two
  backends with one name push two entries and store one handle: the earlier entry stays in
  the heap with no handle (`Pooled` fails for it). `Keyed` holds whatever the names are.
-/
import LoadBalancer.Selectors.Basic
import Mathlib.Tactic.Tauto

namespace LoadBalancer

open MutableHeap Platform

variable [Platform]

/-- The backend of a heap entry. -/
class HeapEntry (W : Type) where
  backend : W → Backend

export HeapEntry (backend)

/-- Which member the heap is told with that a value changed. -/
inductive HeapUpdate where
  | increase
  | decrease

structure HeapPool (W : Type) (lt : W → W → Bool) where
  handlePool : String → Option Handle
  backends : PairingHeap W lt

namespace HeapPool

variable {W : Type} [HeapEntry W] {lt : W → W → Bool}

def new : HeapPool W lt := { handlePool := fun _ => none, backends := empty }

/-- `InsertBackend`: the push is unconditional, the handle is stored under the name. -/
def insertBackend (p : HeapPool W lt) (entry : W) : HeapPool W lt :=
  { handlePool := Function.update p.handlePool (backend entry).toString
      (some (push p.backends entry).2)
    backends := (push p.backends entry).1 }

/-- `ExcludeBackend`: the emptiness test is made only where the name is found. -/
def excludeBackend (p : HeapPool W lt) (b : Backend) : Outcome Unit × HeapPool W lt :=
  match p.handlePool b.toString with
  | none => (.returned (), p)
  | some handle =>
    if (find p.backends handle).isNone then
      (.undefined, p)
    else
      let backends := erase p.backends handle
      (throwIfEmpty (isEmpty backends),
        { handlePool := Function.update p.handlePool b.toString none, backends := backends })

/-- Look an entry up by name, write it through its handle and tell the heap; `f` yields
    `none` where the source leaves the entry alone. -/
def updateEntry (p : HeapPool W lt) (b : Backend) (f : W → Option (W × HeapUpdate)) :
    Outcome Unit × HeapPool W lt :=
  match p.handlePool b.toString with
  | none => (.returned (), p)
  | some handle =>
    match find p.backends handle with
    | none => (.undefined, p)
    | some entry =>
      match f entry with
      | none => (.returned (), p)
      | some (value, .increase) =>
        (.returned (), { p with backends := increase (set p.backends handle value) handle })
      | some (value, .decrease) =>
        (.returned (), { p with backends := decrease (set p.backends handle value) handle })

/-- The entry `top()` refers to. -/
def topEntry (p : HeapPool W lt) : Outcome W :=
  if isEmpty p.backends then .undefined
  else .access do find p.backends (← top p.backends)

/-- Some heap entry is for the backend. -/
def Holds (p : HeapPool W lt) (b : Backend) : Prop :=
  ∃ k w, find p.backends k = some w ∧ backend w = b

/-- A stored handle refers to an entry with the name it is stored under. -/
def Keyed (p : HeapPool W lt) : Prop :=
  ∀ name k, p.handlePool name = some k →
    ∃ w, find p.backends k = some w ∧ (backend w).toString = name

/-- Every entry is the one its name leads to. -/
def Pooled (p : HeapPool W lt) : Prop :=
  ∀ k w, find p.backends k = some w → p.handlePool (backend w).toString = some k

/-- The entries that their name does not lead to all meet `P`. -/
def Strays (p : HeapPool W lt) (P : W → Prop) : Prop :=
  ∀ k w, find p.backends k = some w → p.handlePool (backend w).toString = some k ∨ P w

/-- The entry that the map of handles gives for a name. -/
def lookup (p : HeapPool W lt) (name : String) : Option W :=
  (p.handlePool name).bind (find p.backends)

theorem pooled_iff_strays (p : HeapPool W lt) : p.Pooled ↔ p.Strays fun _ => False := by
  simp only [Pooled, Strays, or_false]

/-- A stored handle is stored under one name. -/
theorem name_unique {p : HeapPool W lt} (hp : p.Keyed) {name other : String} {k : Handle}
    (h : p.handlePool name = some k) (hother : p.handlePool other = some k) : name = other := by
  obtain ⟨w, hw, hname⟩ := hp name k h
  obtain ⟨w', hw', hname'⟩ := hp other k hother
  obtain rfl := Option.some.inj (hw.symm.trans hw')
  rw [← hname, hname']

variable [LawfulPairingHeap]

theorem isEmpty_eq_false (p : HeapPool W lt) :
    isEmpty p.backends = false ↔ ∃ b, p.Holds b := by
  rw [isEmpty_eq_false_iff]
  constructor
  · intro hheld
    obtain ⟨k, w, hw⟩ := hheld
    exact ⟨backend w, k, w, hw, rfl⟩
  · intro hheld
    obtain ⟨b, k, w, hw, -⟩ := hheld
    exact ⟨k, w, hw⟩

/-! ## Insertion -/

omit [HeapEntry W] in
theorem find_new (k : Handle) : find (new : HeapPool W lt).backends k = none :=
  find_empty k

theorem find_insertBackend (p : HeapPool W lt) (entry : W) (k : Handle) :
    find (p.insertBackend entry).backends k =
      if k = (push p.backends entry).2 then some entry else find p.backends k :=
  find_push _ _ _

/-- A stored entry stays where it is. -/
theorem find_insertBackend_of_find {p : HeapPool W lt} {k : Handle} {w : W}
    (hw : find p.backends k = some w) (entry : W) :
    find (p.insertBackend entry).backends k = some w := by
  rw [find_insertBackend, if_neg (ne_push_of_find hw entry), hw]

omit [LawfulPairingHeap] in
theorem keyed_new : (new : HeapPool W lt).Keyed := by
  intro name k h
  cases h

theorem keyed_insertBackend {p : HeapPool W lt} (hp : p.Keyed) (entry : W) :
    (p.insertBackend entry).Keyed := by
  intro name k h
  by_cases hname : name = (backend entry).toString
  · subst hname
    obtain rfl : (push p.backends entry).2 = k := by simpa [insertBackend] using h
    exact ⟨entry, by rw [find_insertBackend, if_pos rfl], rfl⟩
  · have hold : p.handlePool name = some k := by
      simpa [insertBackend, Function.update_of_ne hname] using h
    obtain ⟨w, hw, hb⟩ := hp name k hold
    exact ⟨w, find_insertBackend_of_find hw entry, hb⟩

theorem holds_insertBackend {p : HeapPool W lt} {entry : W} {b : Backend} :
    (p.insertBackend entry).Holds b ↔ b = backend entry ∨ p.Holds b := by
  constructor
  · intro hheld
    obtain ⟨k, w, hw, rfl⟩ := hheld
    rw [find_insertBackend] at hw
    split at hw
    · obtain rfl := Option.some.inj hw
      exact Or.inl rfl
    · exact Or.inr ⟨k, w, hw, rfl⟩
  · intro hor
    rcases hor with rfl | ⟨k, w, hw, rfl⟩
    · exact ⟨_, entry, by rw [find_insertBackend, if_pos rfl], rfl⟩
    · exact ⟨k, w, find_insertBackend_of_find hw entry, rfl⟩

/-- An insertion leaves every entry reachable by name exactly when the name is new. -/
theorem pooled_insertBackend {p : HeapPool W lt} {entry : W} :
    (p.insertBackend entry).Pooled ↔
      p.Pooled ∧ ∀ b, p.Holds b → b.toString ≠ (backend entry).toString := by
  constructor
  · intro h
    -- an old entry keeps its handle, so its name was not overwritten
    have hold : ∀ k w, find p.backends k = some w →
        (backend w).toString ≠ (backend entry).toString ∧
          p.handlePool (backend w).toString = some k := by
      intro k w hw
      have hpool := h k w (find_insertBackend_of_find hw entry)
      by_cases hname : (backend w).toString = (backend entry).toString
      · simp only [insertBackend, hname, Function.update_self] at hpool
        exact absurd (Option.some.inj hpool).symm (ne_push_of_find hw entry)
      · refine ⟨hname, ?_⟩
        simpa [insertBackend, Function.update_of_ne hname] using hpool
    refine ⟨fun k w hw => (hold k w hw).2, ?_⟩
    intro b hheld
    obtain ⟨k, w, hw, rfl⟩ := hheld
    exact (hold k w hw).1
  · intro hboth k w h
    obtain ⟨hp, hnew⟩ := hboth
    rw [find_insertBackend] at h
    split at h
    · next hk =>
      obtain rfl := Option.some.inj h
      simp [insertBackend, hk]
    · have hname : (backend w).toString ≠ (backend entry).toString := hnew _ ⟨k, w, h, rfl⟩
      show Function.update p.handlePool _ _ _ = _
      rw [Function.update_of_ne hname]
      exact hp k w h

theorem not_holds_new (b : Backend) : ¬ (new : HeapPool W lt).Holds b := by
  intro hheld
  obtain ⟨k, w, hw, -⟩ := hheld
  rw [find_new] at hw
  cases hw

/-! ## The loop of `Configure` -/

section InsertAll

variable {mk : Backend → W} (hmk : ∀ b, backend (mk b) = b)

theorem keyed_insertAll {p : HeapPool W lt} (hp : p.Keyed) (bs : List Backend) :
    (bs.foldl (fun p b => p.insertBackend (mk b)) p).Keyed := by
  induction bs generalizing p with
  | nil => exact hp
  | cons b bs ih => exact ih (keyed_insertBackend hp _)

include hmk

theorem holds_insertAll {p : HeapPool W lt} {bs : List Backend} {x : Backend} :
    (bs.foldl (fun p b => p.insertBackend (mk b)) p).Holds x ↔ x ∈ bs ∨ p.Holds x := by
  induction bs generalizing p with
  | nil => simp
  | cons b bs ih =>
      rw [List.foldl_cons, ih, holds_insertBackend, hmk, List.mem_cons]
      tauto

theorem pooled_insertAll {p : HeapPool W lt} {bs : List Backend} :
    (bs.foldl (fun p b => p.insertBackend (mk b)) p).Pooled ↔
      p.Pooled ∧ (bs.map Backend.toString).Nodup ∧
        ∀ b ∈ bs, ∀ x, p.Holds x → x.toString ≠ b.toString := by
  induction bs generalizing p with
  | nil => simp
  | cons b bs ih =>
      rw [List.foldl_cons, ih, pooled_insertBackend, hmk, List.map_cons, List.nodup_cons]
      constructor
      · intro hheld
        obtain ⟨⟨hp, hb⟩, hnd, hall⟩ := hheld
        refine ⟨hp, ⟨?_, hnd⟩, ?_⟩
        · intro hmem
          obtain ⟨c, hc, heq⟩ := List.mem_map.mp hmem
          exact hall c hc b (holds_insertBackend.mpr (Or.inl (hmk b).symm)) heq.symm
        · intro c hc x hx
          rcases List.mem_cons.mp hc with rfl | hc
          · exact hb x hx
          · exact hall c hc x (holds_insertBackend.mpr (Or.inr hx))
      · intro hboth
        obtain ⟨hp, ⟨hb, hnd⟩, hall⟩ := hboth
        refine ⟨⟨hp, hall b List.mem_cons_self⟩, hnd, ?_⟩
        intro c hc x hx
        rcases holds_insertBackend.mp hx with rfl | hx
        · rw [hmk]
          exact fun heq => hb (heq ▸ List.mem_map_of_mem hc)
        · exact hall c (List.mem_cons_of_mem _ hc) x hx

theorem holds_insertAll_new {bs : List Backend} {x : Backend} :
    (bs.foldl (fun p b => p.insertBackend (mk b)) (new : HeapPool W lt)).Holds x ↔ x ∈ bs := by
  rw [holds_insertAll hmk]
  exact or_iff_left (not_holds_new x)

/-- From an empty pool, every entry is reachable by name exactly when no name repeats. -/
theorem pooled_insertAll_new {bs : List Backend} :
    (bs.foldl (fun p b => p.insertBackend (mk b)) (new : HeapPool W lt)).Pooled ↔
      (bs.map Backend.toString).Nodup := by
  rw [pooled_insertAll hmk]
  constructor
  · exact fun h => h.2.1
  · intro h
    refine ⟨?_, h, fun b _ x hx => absurd hx (not_holds_new x)⟩
    intro k w hw
    rw [find_new] at hw
    cases hw

end InsertAll

/-! ## Exclusion -/

omit [HeapEntry W] [LawfulPairingHeap] in
theorem excludeBackend_of_unknown {p : HeapPool W lt} {b : Backend}
    (h : p.handlePool b.toString = none) : p.excludeBackend b = (.returned (), p) := by
  unfold excludeBackend
  rw [h]

omit [LawfulPairingHeap] in
/-- What an exclusion does: nothing where the name is unknown, else it takes the entry the
    name leads to and tests for emptiness. -/
theorem excludeBackend_cases {p : HeapPool W lt} (hp : p.Keyed) (b : Backend) :
    (p.handlePool b.toString = none ∧ p.excludeBackend b = (.returned (), p)) ∨
    ∃ k w, p.handlePool b.toString = some k ∧ find p.backends k = some w ∧
      (backend w).toString = b.toString ∧
      p.excludeBackend b = (throwIfEmpty (isEmpty (erase p.backends k)),
        { handlePool := Function.update p.handlePool b.toString none
          backends := erase p.backends k }) := by
  cases h : p.handlePool b.toString with
  | none => exact Or.inl ⟨rfl, excludeBackend_of_unknown h⟩
  | some k =>
      obtain ⟨w, hw, hb⟩ := hp _ _ h
      refine Or.inr ⟨k, w, rfl, hw, hb, ?_⟩
      simp [excludeBackend, h, hw]

omit [LawfulPairingHeap] in
/-- The names after an exclusion: all but the excluded one. -/
theorem handlePool_excludeBackend {p : HeapPool W lt} (hp : p.Keyed) (b : Backend)
    (name : String) : (p.excludeBackend b).2.handlePool name =
      if name = b.toString then none else p.handlePool name := by
  rcases excludeBackend_cases hp b with ⟨hnone, h⟩ | ⟨k, w, -, -, -, h⟩
  · rw [h]
    split
    · next hname => rw [hname, hnone]
    · rfl
  · rw [h]
    exact Function.update_apply p.handlePool b.toString none name

/-- The entries after an exclusion: those that the name does not lead to. -/
theorem find_excludeBackend {p : HeapPool W lt} (hp : p.Keyed) (b : Backend) (k : Handle) :
    find (p.excludeBackend b).2.backends k =
      if p.handlePool b.toString = some k then none else find p.backends k := by
  rcases excludeBackend_cases hp b with ⟨hnone, h⟩ | ⟨k', w, hk', -, -, h⟩
  · rw [h, hnone, if_neg (by simp)]
  · rw [h, hk', find_erase]
    simp only [Option.some_inj, eq_comm]

omit [HeapEntry W] in
/-- An exclusion adds no entry. -/
theorem find_of_excludeBackend {p : HeapPool W lt} {b : Backend} {k : Handle} {w : W}
    (h : find (p.excludeBackend b).2.backends k = some w) : find p.backends k = some w := by
  unfold excludeBackend at h
  split at h
  · exact h
  · split at h
    · exact h
    · rw [find_erase] at h
      exact (Option.ite_none_left_eq_some.mp h).2

theorem keyed_excludeBackend {p : HeapPool W lt} (hp : p.Keyed) (b : Backend) :
    (p.excludeBackend b).2.Keyed := by
  intro name k hk
  rw [handlePool_excludeBackend hp] at hk
  split at hk
  · cases hk
  · next hname =>
    obtain ⟨w, hw, hb⟩ := hp name k hk
    have hne : p.handlePool b.toString ≠ some k := fun h => hname (name_unique hp hk h)
    exact ⟨w, by rw [find_excludeBackend hp, if_neg hne, hw], hb⟩

theorem holds_excludeBackend {p : HeapPool W lt} (hp : p.Keyed) {b x : Backend} :
    (p.excludeBackend b).2.Holds x ↔
      ∃ k w, find p.backends k = some w ∧ backend w = x ∧ p.handlePool b.toString ≠ some k := by
  constructor
  · intro hheld
    obtain ⟨k, w, hw, rfl⟩ := hheld
    rw [find_excludeBackend hp] at hw
    split at hw
    · cases hw
    · next hne => exact ⟨k, w, hw, rfl, hne⟩
  · intro hheld
    obtain ⟨k, w, hw, rfl, hne⟩ := hheld
    exact ⟨k, w, by rw [find_excludeBackend hp, if_neg hne, hw], rfl⟩

theorem holds_of_holds_excludeBackend {p : HeapPool W lt} (hp : p.Keyed) {b x : Backend}
    (h : (p.excludeBackend b).2.Holds x) : p.Holds x := by
  obtain ⟨k, w, hw, hx, -⟩ := (holds_excludeBackend hp).mp h
  exact ⟨k, w, hw, hx⟩

/-- An exclusion takes the entry its name leads to, and leaves the stray ones. -/
theorem strays_excludeBackend {P : W → Prop} {p : HeapPool W lt} (hk : p.Keyed)
    (hp : p.Strays P) (b : Backend) : (p.excludeBackend b).2.Strays P := by
  intro k w hw
  rw [find_excludeBackend hk] at hw
  split at hw
  · cases hw
  · next hne =>
    rcases hp k w hw with hpool | hP
    · have hname : (backend w).toString ≠ b.toString := fun h => hne (h ▸ hpool)
      rw [handlePool_excludeBackend hk, if_neg hname]
      exact Or.inl hpool
    · exact Or.inr hP

theorem pooled_excludeBackend {p : HeapPool W lt} (hk : p.Keyed) (hp : p.Pooled)
    (b : Backend) : (p.excludeBackend b).2.Pooled := by
  rw [pooled_iff_strays] at hp ⊢
  exact strays_excludeBackend hk hp b

/-- Where every entry is the one its name leads to, an excluded backend is gone. -/
theorem not_holds_excludeBackend {p : HeapPool W lt} (hk : p.Keyed) (hp : p.Pooled)
    (b : Backend) : ¬ (p.excludeBackend b).2.Holds b := by
  intro h
  obtain ⟨k, w, hw, rfl, hne⟩ := (holds_excludeBackend hk).mp h
  exact hne (hp k w hw)

/-- Where some entry is not the one its name leads to, it survives its own exclusion. -/
theorem exists_stuck {p : HeapPool W lt} (hk : p.Keyed) (hp : ¬ p.Pooled) :
    ∃ b, p.Holds b ∧ (p.excludeBackend b).2.Holds b := by
  unfold Pooled at hp
  push Not at hp
  obtain ⟨k, w, hw, hne⟩ := hp
  exact ⟨backend w, ⟨k, w, hw, rfl⟩, (holds_excludeBackend hk).mpr ⟨k, w, hw, rfl, hne⟩⟩

/-- An exclusion takes one entry at most: one of the named backend, or another in its
    place. -/
theorem holds_or_holds_excludeBackend {p : HeapPool W lt} (hk : p.Keyed) {b : Backend}
    (hb : p.Holds b) : (p.excludeBackend b).2.Holds b ∨
      ∀ x, p.Holds x → x ≠ b → (p.excludeBackend b).2.Holds x := by
  by_cases h : (p.excludeBackend b).2.Holds b
  · exact Or.inl h
  · right
    obtain ⟨k, w, hw, rfl⟩ := hb
    have hpool : p.handlePool (backend w).toString = some k := by
      by_contra hne
      exact h ((holds_excludeBackend hk).mpr ⟨k, w, hw, rfl, hne⟩)
    intro x hheld hne
    obtain ⟨k', w', hw', rfl⟩ := hheld
    refine (holds_excludeBackend hk).mpr ⟨k', w', hw', rfl, fun hpool' => hne ?_⟩
    obtain rfl := Option.some.inj (hpool.symm.trans hpool')
    rw [Option.some.inj (hw.symm.trans hw')]

omit [LawfulPairingHeap] in
/-- An exclusion reports exhaustion exactly, unless the heap was empty before. -/
theorem excludeBackend_fst {p : HeapPool W lt} (hk : p.Keyed) (b : Backend)
    (hne : isEmpty p.backends = false) :
    (p.excludeBackend b).1 = throwIfEmpty (isEmpty (p.excludeBackend b).2.backends) := by
  rcases excludeBackend_cases hk b with ⟨-, h⟩ | ⟨k, w, -, -, -, h⟩
  · simp [h, hne, throwIfEmpty]
  · rw [h]

/-- On an empty heap no name is stored, and an exclusion returns normally. -/
theorem excludeBackend_of_isEmpty {p : HeapPool W lt} (hk : p.Keyed) (b : Backend)
    (hempty : isEmpty p.backends = true) : p.excludeBackend b = (.returned (), p) := by
  rcases excludeBackend_cases hk b with ⟨-, h⟩ | ⟨k, w, -, hw, -, -⟩
  · exact h
  · rw [(isEmpty_iff _).mp hempty k] at hw
    cases hw

/-! ## Updates of an entry -/

omit [HeapEntry W] [LawfulPairingHeap] in
@[simp] theorem handlePool_updateEntry (p : HeapPool W lt) (b : Backend)
    (f : W → Option (W × HeapUpdate)) :
    (p.updateEntry b f).2.handlePool = p.handlePool := by
  unfold updateEntry
  repeat' split
  all_goals rfl

omit [HeapEntry W] in
/-- The entries after an update: the named one is rewritten by `f`. -/
theorem find_updateEntry (p : HeapPool W lt) (b : Backend) (f : W → Option (W × HeapUpdate))
    (k : Handle) : find (p.updateEntry b f).2.backends k =
      (find p.backends k).map fun w =>
        if p.handlePool b.toString = some k then ((f w).map Prod.fst).getD w else w := by
  unfold updateEntry
  split
  · next h => simp [h]
  · next handle h =>
    rw [h]
    by_cases hk : k = handle
    · subst hk
      split
      · next hf => simp [hf]
      · next entry hf =>
        split
        · next hv => simp [hf, hv]
        · next value hv => simp [find_increase_set hf, hf, hv]
        · next value hv => simp [find_decrease_set hf, hf, hv]
    · have hne : ¬ some handle = some k := fun e => hk (Option.some.inj e).symm
      simp only [hne, if_false, Option.map_id']
      split
      · rfl
      · next entry hf =>
        split
        · rfl
        · rw [find_increase_set hf, if_neg hk]
        · rw [find_decrease_set hf, if_neg hk]

omit [LawfulPairingHeap] in
theorem updateEntry_fst {p : HeapPool W lt} (hp : p.Keyed) (b : Backend)
    (f : W → Option (W × HeapUpdate)) : (p.updateEntry b f).1 = .returned () := by
  unfold updateEntry
  split
  · rfl
  · next k hk =>
    obtain ⟨w, hw, -⟩ := hp _ _ hk
    simp only [hw]
    split <;> rfl

/-- `f` rewrites an entry without changing its backend. -/
def KeepsBackend (f : W → Option (W × HeapUpdate)) : Prop :=
  ∀ w v u, f w = some (v, u) → backend v = backend w

omit [LawfulPairingHeap] in
theorem KeepsBackend.getD {f : W → Option (W × HeapUpdate)} (hf : KeepsBackend f) (w : W) :
    backend (((f w).map Prod.fst).getD w) = backend w := by
  cases h : f w with
  | none => rfl
  | some vu => exact hf w vu.1 vu.2 h

section Update

variable {f : W → Option (W × HeapUpdate)} (hf : KeepsBackend f)
include hf

/-- An update keeps the handle and the backend of every entry. -/
theorem find_updateEntry_backend (p : HeapPool W lt) (b : Backend) (k : Handle) :
    (find (p.updateEntry b f).2.backends k).map backend = (find p.backends k).map backend := by
  rw [find_updateEntry, Option.map_map]
  refine congrArg (fun g => Option.map g _) (funext fun w => ?_)
  simp only [Function.comp_apply]
  split
  · exact hf.getD w
  · rfl

theorem holds_updateEntry {p : HeapPool W lt} {b x : Backend} :
    (p.updateEntry b f).2.Holds x ↔ p.Holds x := by
  have hiff : ∀ q : HeapPool W lt, q.Holds x ↔
      ∃ k, (find q.backends k).map backend = some x := by
    intro q
    simp only [Holds, Option.map_eq_some_iff]
  simp only [hiff, find_updateEntry_backend hf]

theorem keyed_updateEntry {p : HeapPool W lt} (hp : p.Keyed) (b : Backend) :
    (p.updateEntry b f).2.Keyed := by
  intro name k hk
  rw [handlePool_updateEntry] at hk
  obtain ⟨w, hw, hname⟩ := hp name k hk
  have hback := find_updateEntry_backend hf p b k
  rw [hw, Option.map_some, Option.map_eq_some_iff] at hback
  obtain ⟨v, hv, hvw⟩ := hback
  exact ⟨v, hv, hvw ▸ hname⟩

/-- An update writes the entry its name leads to, and no stray one. -/
theorem strays_updateEntry {P : W → Prop} {p : HeapPool W lt} (hk : p.Keyed) (hp : p.Strays P)
    (b : Backend) : (p.updateEntry b f).2.Strays P := by
  intro k v hv
  rw [find_updateEntry, Option.map_eq_some_iff] at hv
  obtain ⟨w, hw, hwv⟩ := hv
  rw [handlePool_updateEntry]
  by_cases hb : p.handlePool b.toString = some k
  · rw [if_pos hb] at hwv
    obtain ⟨w', hw', hname⟩ := hk _ _ hb
    obtain rfl := Option.some.inj (hw.symm.trans hw')
    rw [← hwv, hf.getD, hname]
    exact Or.inl hb
  · rw [if_neg hb] at hwv
    rw [← hwv]
    exact hp k w hw

theorem pooled_updateEntry {p : HeapPool W lt} (hp : p.Pooled) (b : Backend) :
    (p.updateEntry b f).2.Pooled := by
  intro k v hv
  have hback := find_updateEntry_backend hf p b k
  rw [hv, Option.map_some, eq_comm, Option.map_eq_some_iff] at hback
  obtain ⟨w, hw, hwv⟩ := hback
  rw [handlePool_updateEntry, ← hwv]
  exact hp k w hw

end Update

/-! ## The top entry -/

omit [HeapEntry W] [LawfulPairingHeap] in
theorem topEntry_ne_thrown (p : HeapPool W lt) (e : Exception) : p.topEntry ≠ .thrown e := by
  unfold topEntry Outcome.access
  repeat' split
  all_goals simp

omit [HeapEntry W] [LawfulPairingHeap] in
theorem topEntry_returned {p : HeapPool W lt} {w : W} (h : p.topEntry = .returned w) :
    ∃ k, top p.backends = some k ∧ find p.backends k = some w := by
  unfold topEntry at h
  split at h
  · cases h
  · obtain ⟨k, hk, hw⟩ := Option.bind_eq_some_iff.mp (Outcome.access_eq_returned.mp h)
    exact ⟨k, hk, hw⟩

omit [HeapEntry W] in
theorem topEntry_returns {p : HeapPool W lt} (h : isEmpty p.backends = false) :
    ∃ w, p.topEntry = .returned w := by
  obtain ⟨k, w, hk, hw⟩ := top_find p.backends h
  exact ⟨w, by simp [topEntry, h, hk, hw]⟩

/-! ## The entry that a name leads to -/

omit [LawfulPairingHeap] in
theorem lookup_eq_some {p : HeapPool W lt} (hp : p.Keyed) {name : String} {w : W}
    (h : p.lookup name = some w) :
    ∃ k, p.handlePool name = some k ∧ find p.backends k = some w ∧ (backend w).toString = name := by
  obtain ⟨k, hk, hw⟩ := Option.bind_eq_some_iff.mp h
  obtain ⟨w', hw', hname⟩ := hp name k hk
  obtain rfl := Option.some.inj (hw.symm.trans hw')
  exact ⟨k, hk, hw, hname⟩

/-- An update rewrites the entry of its own name only. -/
theorem lookup_updateEntry {p : HeapPool W lt} (hp : p.Keyed) (b : Backend)
    (f : W → Option (W × HeapUpdate)) (name : String) :
    (p.updateEntry b f).2.lookup name =
      if name = b.toString then (p.lookup name).map fun w => ((f w).map Prod.fst).getD w
      else p.lookup name := by
  simp only [lookup, handlePool_updateEntry]
  cases hk : p.handlePool name with
  | none => simp
  | some k =>
      simp only [Option.bind_some, find_updateEntry]
      by_cases hname : name = b.toString
      · rw [← hname, hk]
        simp
      · have hne : p.handlePool b.toString ≠ some k := fun h => hname (name_unique hp hk h)
        simp [hne, hname]

/-- An exclusion forgets its own name only. -/
theorem lookup_excludeBackend {p : HeapPool W lt} (hp : p.Keyed) (b : Backend) (name : String) :
    (p.excludeBackend b).2.lookup name = if name = b.toString then none else p.lookup name := by
  simp only [lookup, handlePool_excludeBackend hp]
  split
  · rfl
  · next hname =>
    cases hk : p.handlePool name with
    | none => rfl
    | some k =>
        have hne : p.handlePool b.toString ≠ some k := fun h => hname (name_unique hp hk h)
        simp only [Option.bind_some, find_excludeBackend hp, if_neg hne]

/-- What every inserted entry meets, every entry meets. -/
theorem forall_insertAll {P : W → Prop} {mk : Backend → W} (hmk : ∀ b, P (mk b))
    {p : HeapPool W lt} (hp : ∀ k w, find p.backends k = some w → P w) (bs : List Backend) :
    ∀ k w, find (bs.foldl (fun p b => p.insertBackend (mk b)) p).backends k = some w → P w := by
  induction bs generalizing p with
  | nil => exact hp
  | cons b bs ih =>
      apply ih
      intro k w hw
      rw [find_insertBackend] at hw
      split at hw
      · rw [← Option.some.inj hw]
        exact hmk b
      · exact hp k w hw

/-! ## The heap order -/

section Ordered

omit [HeapEntry W] [LawfulPairingHeap] in
theorem ordered_updateEntry [OrderedHeap (PairingHeap W lt) lt] {p : HeapPool W lt}
    (hp : Ordered p.backends) (b : Backend) (f : W → Option (W × HeapUpdate)) :
    Ordered (p.updateEntry b f).2.backends := by
  unfold updateEntry
  split
  · exact hp
  · split
    · exact hp
    · split
      · exact hp
      · exact OrderedHeap.ordered_increase lt _ _ _ hp
      · exact OrderedHeap.ordered_decrease lt _ _ _ hp

variable [ContractHeap (PairingHeap W lt) lt]

omit [HeapEntry W] [LawfulPairingHeap] in
theorem ordered_excludeBackend {p : HeapPool W lt} (hp : Ordered p.backends) (b : Backend) :
    Ordered (p.excludeBackend b).2.backends := by
  unfold excludeBackend
  split
  · exact hp
  · split
    · exact hp
    · exact ContractHeap.ordered_erase lt _ _ hp

omit [LawfulPairingHeap] in
theorem ordered_insertAll {p : HeapPool W lt} (hp : Ordered p.backends) (mk : Backend → W)
    (bs : List Backend) :
    Ordered (bs.foldl (fun p b => p.insertBackend (mk b)) p).backends := by
  induction bs generalizing p with
  | nil => exact hp
  | cons b bs ih => exact ih (ContractHeap.ordered_push lt _ _ hp)

omit [LawfulPairingHeap] in
theorem ordered_insertAll_new (mk : Backend → W) (bs : List Backend) :
    Ordered (bs.foldl (fun p b => p.insertBackend (mk b)) (new : HeapPool W lt)).backends :=
  ordered_insertAll (ContractHeap.ordered_empty lt) mk bs

omit [HeapEntry W] [LawfulPairingHeap] in
theorem topEntry_max {p : HeapPool W lt} (hp : Ordered p.backends) {w : W}
    (h : p.topEntry = .returned w) {k : Handle} {v : W} (hv : find p.backends k = some v) :
    lt w v = false := by
  obtain ⟨t, ht, hw⟩ := topEntry_returned h
  exact ContractHeap.top_max _ t w k v hp ht hw hv

end Ordered

end HeapPool

end LoadBalancer
