/-
  Finite maps with ordered keys, as association lists sorted by key.

  `insert` overwrites, `eraseIf` removes every entry whose value meets a test, and
  `lowerBound k` is the first entry whose key is not below `k`. `successor k` wraps around:
  it is `lowerBound k`, or the first entry of the map when every key is below `k`.
-/
import LoadBalancer.Lib.Assoc
import LoadBalancer.Lib.CyclicOrder
import Mathlib.Order.Lattice

/-- Entries in strictly increasing order of their keys. -/
structure OrderedMap (K V : Type*) [LinearOrder K] where
  entries : List (K × V)
  sorted : entries.Pairwise fun a b => a.1 < b.1

namespace OrderedMap

variable {K V : Type*} [LinearOrder K]

def empty : OrderedMap K V := ⟨[], .nil⟩

def find (m : OrderedMap K V) (k : K) : Option V :=
  m.entries.lookup k

/-- Insert into sorted entries, overwriting an entry with the same key. -/
def insertEntry (k : K) (v : V) : List (K × V) → List (K × V)
  | [] => [(k, v)]
  | e :: es =>
    if k < e.1 then (k, v) :: e :: es
    else if k = e.1 then (k, v) :: es
    else e :: insertEntry k v es

theorem mem_insertEntry {k : K} {v : V} {es : List (K × V)}
    (hs : es.Pairwise fun a b => a.1 < b.1) (x : K × V) :
    x ∈ insertEntry k v es ↔ x = (k, v) ∨ x ∈ es ∧ x.1 ≠ k := by
  induction es with
  | nil => simp [insertEntry]
  | cons e es ih =>
      obtain ⟨hhead, htail⟩ := List.pairwise_cons.mp hs
      unfold insertEntry
      split
      · next hlt =>
        -- every key of `e :: es` is above `k`
        have hne : ∀ y ∈ e :: es, y.1 ≠ k := by
          intro y hy
          rcases List.mem_cons.mp hy with rfl | hy
          · exact ne_of_gt hlt
          · exact ne_of_gt (lt_trans hlt (hhead y hy))
        rw [List.mem_cons]
        exact or_congr_right ⟨fun h => ⟨h, hne x h⟩, And.left⟩
      · split
        · next heq =>
          have hne : ∀ y ∈ es, y.1 ≠ k := fun y hy => heq ▸ ne_of_gt (hhead y hy)
          rw [List.mem_cons, List.mem_cons]
          refine or_congr_right ⟨fun h => ⟨Or.inr h, hne x h⟩, ?_⟩
          intro hex
          obtain ⟨rfl | h, hk⟩ := hex
          · exact absurd heq.symm hk
          · exact h
        · next hgt hne =>
          rw [List.mem_cons, ih htail, List.mem_cons]
          constructor
          · intro hor
            rcases hor with rfl | rfl | h
            · exact Or.inr ⟨Or.inl rfl, fun h => hne h.symm⟩
            · exact Or.inl rfl
            · exact Or.inr ⟨Or.inr h.1, h.2⟩
          · intro hor
            rcases hor with rfl | ⟨rfl | h, hk⟩
            · exact Or.inr (Or.inl rfl)
            · exact Or.inl rfl
            · exact Or.inr (Or.inr ⟨h, hk⟩)

theorem sorted_insertEntry {k : K} {v : V} {es : List (K × V)}
    (hs : es.Pairwise fun a b => a.1 < b.1) :
    (insertEntry k v es).Pairwise fun a b => a.1 < b.1 := by
  induction es with
  | nil => exact List.pairwise_singleton _ _
  | cons e es ih =>
      obtain ⟨hhead, htail⟩ := List.pairwise_cons.mp hs
      unfold insertEntry
      split
      · next hlt =>
        refine List.pairwise_cons.mpr ⟨?_, hs⟩
        intro y hy
        rcases List.mem_cons.mp hy with rfl | hy
        · exact hlt
        · exact lt_trans hlt (hhead y hy)
      · split
        · next heq => exact List.pairwise_cons.mpr ⟨fun y hy => heq ▸ hhead y hy, htail⟩
        · next hgt hne =>
          refine List.pairwise_cons.mpr ⟨?_, ih htail⟩
          intro y hy
          rcases (mem_insertEntry htail y).mp hy with rfl | hy
          · exact lt_of_le_of_ne (not_lt.mp hgt) fun h => hne h.symm
          · exact hhead y hy.1

def insert (m : OrderedMap K V) (k : K) (v : V) : OrderedMap K V :=
  ⟨insertEntry k v m.entries, sorted_insertEntry m.sorted⟩

/-- Remove the entries whose value meets `p`. -/
def eraseIf (m : OrderedMap K V) (p : V → Bool) : OrderedMap K V :=
  ⟨m.entries.filter fun e => !p e.2, m.sorted.filter _⟩

/-- The first entry whose key is not below `k`. -/
def lowerBound (m : OrderedMap K V) (k : K) : Option (K × V) :=
  m.entries.find? fun e => decide (k ≤ e.1)

/-- `lowerBound k`, or the first entry of the map when there is none. -/
def successor (m : OrderedMap K V) (k : K) : Option (K × V) :=
  (m.lowerBound k).or m.entries.head?

/-! ## Entries and lookups -/

@[simp] theorem entries_empty : (empty : OrderedMap K V).entries = [] := rfl

theorem nodup_keys (m : OrderedMap K V) : (m.entries.map Prod.fst).Nodup :=
  List.pairwise_map.mpr (m.sorted.imp ne_of_lt)

theorem find_eq_some {m : OrderedMap K V} {k : K} {v : V} :
    m.find k = some v ↔ (k, v) ∈ m.entries :=
  List.lookup_eq_some_iff_mem m.nodup_keys

theorem mem_entries_insert {m : OrderedMap K V} {k : K} {v : V} {x : K × V} :
    x ∈ (m.insert k v).entries ↔ x = (k, v) ∨ x ∈ m.entries ∧ x.1 ≠ k :=
  mem_insertEntry m.sorted x

theorem mem_entries_eraseIf {m : OrderedMap K V} {p : V → Bool} {x : K × V} :
    x ∈ (m.eraseIf p).entries ↔ x ∈ m.entries ∧ p x.2 = false := by
  simp [eraseIf]

/-! ## The cyclic successor -/

theorem successor_mem {m : OrderedMap K V} {k : K} {e : K × V}
    (h : m.successor k = some e) : e ∈ m.entries := by
  unfold successor at h
  rcases Option.or_eq_some_iff.mp h with h | ⟨-, h⟩
  · exact List.mem_of_find?_eq_some h
  · exact List.mem_of_mem_head? h

theorem successor_isSome {m : OrderedMap K V} (h : m.entries ≠ []) (k : K) :
    ∃ e, m.successor k = some e := by
  unfold successor
  cases hb : m.lowerBound k with
  | some e => exact ⟨e, rfl⟩
  | none => exact ⟨m.entries.head h, by simp [List.head?_eq_some_head h]⟩

/-- The keys of a map. -/
def Key (m : OrderedMap K V) (k : K) : Prop := ∃ v, (k, v) ∈ m.entries

theorem cyclicLeast_successor {m : OrderedMap K V} {k : K} {e : K × V}
    (h : m.successor k = some e) : CyclicLeast m.Key k e.1 := by
  refine ⟨⟨e.2, successor_mem h⟩, ?_⟩
  unfold successor lowerBound at h
  rcases Option.or_eq_some_iff.mp h with h | ⟨hnone, h⟩
  · left
    obtain ⟨hke, before, after, hentries, hbefore⟩ := List.find?_eq_some_iff_append.mp h
    refine ⟨by simpa using hke, fun q hq hkq => ?_⟩
    obtain ⟨v, hv⟩ := hq
    have hsorted := m.sorted
    rw [hentries] at hv hsorted
    rcases List.mem_append.mp hv with hv | hv
    · -- the entries before `e` lie below `k`
      have hlt : q < k := by simpa using hbefore _ hv
      exact absurd hkq (not_le.mpr hlt)
    · rcases List.mem_cons.mp hv with heq | hv
      · exact le_of_eq (congrArg Prod.fst heq).symm
      · have htail := (List.pairwise_cons.mp (List.pairwise_append.mp hsorted).2.1).1
        exact le_of_lt (htail _ hv)
  · right
    have hbelow : ∀ q, m.Key q → q < k := by
      intro q hq
      obtain ⟨v, hv⟩ := hq
      simpa using List.find?_eq_none.mp hnone _ hv
    refine ⟨hbelow, fun q hq => ?_⟩
    obtain ⟨v, hv⟩ := hq
    obtain ⟨es, hentries⟩ := List.head?_eq_some_iff.mp h
    have hsorted := m.sorted
    rw [hentries] at hv hsorted
    rcases List.mem_cons.mp hv with heq | hv
    · exact le_of_eq (congrArg Prod.fst heq).symm
    · exact le_of_lt ((List.pairwise_cons.mp hsorted).1 _ hv)

/-- The cyclic successor of `k` is the entry at the first key from `k` on. -/
theorem successor_eq_some {m : OrderedMap K V} {k : K} {e : K × V} :
    m.successor k = some e ↔ e ∈ m.entries ∧ CyclicLeast m.Key k e.1 := by
  constructor
  · intro h
    exact ⟨successor_mem h, cyclicLeast_successor h⟩
  · intro h
    obtain ⟨he, hleast⟩ := h
    obtain ⟨e', he'⟩ := successor_isSome (List.ne_nil_of_mem he) k
    have hkey : e'.1 = e.1 := (cyclicLeast_successor he').unique hleast
    rw [he', List.inj_on_of_nodup_map m.nodup_keys (successor_mem he') he hkey]

end OrderedMap
