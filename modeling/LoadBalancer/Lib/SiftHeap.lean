/-
  A queue that needs to be told the right direction.

  `SiftHeap` differs from `ListHeap` in its two updates only: `increase` looks whether the
  changed node is now above the root, and `decrease` looks for a new root only where the
  changed node is the root. It keeps its heap order where a value did not become lower before
  `increase` and not higher before `decrease` (`contractHeap`).
-/
import LoadBalancer.Lib.MutableHeap

def SiftHeap (α : Type) (lt : α → α → Bool) := ListHeap α lt

namespace SiftHeap

open ListHeap

variable {α : Type} {lt : α → α → Bool}

/-- The node is strictly above the root. -/
def aboveRoot (q : ListHeap α lt) (h : Handle) : Bool :=
  match q.nodes.head?, q.find h with
  | some root, some v => lt root.2 v
  | _, _ => false

def isRoot (q : ListHeap α lt) (h : Handle) : Bool := q.nodes.head?.map Prod.fst == some h

/-- Bring the best node to the front if the test is met. -/
def settleIf (test : Bool) (q : ListHeap α lt) (h : Handle) : ListHeap α lt :=
  if test then MutableHeap.increase q h else q

theorem find_settleIf (test : Bool) (q : ListHeap α lt) (h k : Handle) :
    (settleIf test q h).find k = q.find k := by
  unfold settleIf
  split
  · exact find_congr fun v => mem_settle q.nodup _
  · rfl

instance : MutableHeap (SiftHeap α lt) α where
  empty := (MutableHeap.empty : ListHeap α lt)
  isEmpty q := MutableHeap.isEmpty (Q := ListHeap α lt) q
  find q := MutableHeap.find (Q := ListHeap α lt) q
  top q := MutableHeap.top (Q := ListHeap α lt) q
  push q := MutableHeap.push (Q := ListHeap α lt) q
  set q := MutableHeap.set (Q := ListHeap α lt) q
  increase q h := settleIf (aboveRoot q h) q h
  decrease q h := settleIf (isRoot q h) q h
  erase q := MutableHeap.erase (Q := ListHeap α lt) q
  Ordered q := MutableHeap.Ordered (Q := ListHeap α lt) q

theorem lawfulListHeap : MutableHeap.LawfulHeap (ListHeap α lt) := inferInstance

instance : MutableHeap.LawfulHeap (SiftHeap α lt) where
  find_empty := lawfulListHeap.find_empty
  isEmpty_iff := lawfulListHeap.isEmpty_iff
  push_fresh := lawfulListHeap.push_fresh
  find_push := lawfulListHeap.find_push
  find_set := lawfulListHeap.find_set
  find_increase q h := find_settleIf (aboveRoot q h) q h
  find_decrease q h := find_settleIf (isRoot q h) q h
  find_erase := lawfulListHeap.find_erase
  top_find := lawfulListHeap.top_find

/-- The root is a maximum. -/
def Rooted (q : ListHeap α lt) : Prop :=
  ∀ n ∈ q.nodes.head?, ∀ m ∈ q.nodes, lt n.2 m.2 = false

theorem rooted_settleIf (hlt : StrictWeak lt) {test : Bool} {q : ListHeap α lt}
    (hq : test = false → Rooted q) (h : Handle) : Rooted (settleIf test q h) := by
  unfold settleIf
  split
  · exact ordered_settle hlt q.nodes
  · next htest => exact hq (by simpa using htest)

theorem head?_set (q : ListHeap α lt) (h : Handle) (v : α) :
    (ListHeap.nodes (MutableHeap.set q h v)).head? = q.nodes.head?.map (write h v) :=
  List.head?_map

/-- A write keeps the root a maximum where it raises the root, or stays below it. -/
theorem rooted_set (hlt : StrictWeak lt) {q : ListHeap α lt} {h : Handle} {old v : α}
    (hq : Rooted q) (hfind : q.find h = some old)
    (hroot : ∀ n ∈ q.nodes.head?, if n.1 = h then lt v old = false else lt n.2 v = false) :
    Rooted (MutableHeap.set q h v) := by
  intro n' hn' m' hm'
  rw [head?_set, Option.mem_def, Option.map_eq_some_iff] at hn'
  obtain ⟨n, hn, rfl⟩ := hn'
  obtain ⟨m, hm, rfl⟩ := List.mem_map.mp hm'
  have hle : lt n.2 m.2 = false := hq n hn m hm
  have hwrite := hroot n hn
  unfold write
  by_cases hnh : n.1 = h
  · -- the root itself is written
    rw [if_pos hnh] at hwrite
    have hold : n.2 = old := by
      have hnode : q.find n.1 = some n.2 := find_eq_some.mpr (List.mem_of_head? hn)
      rw [hnh, hfind] at hnode
      exact (Option.some.inj hnode).symm
    rw [if_pos hnh]
    split
    · exact hlt.irrefl v
    · exact hlt.negTrans hwrite (hold ▸ hle)
  · rw [if_neg hnh] at hwrite
    rw [if_neg hnh]
    split
    · exact hwrite
    · exact hle

theorem le_root_of_aboveRoot {q : ListHeap α lt} {h : Handle} {n : Handle × α} {v : α}
    (habove : aboveRoot q h = false) (hn : q.nodes.head? = some n) (hv : q.find h = some v) :
    lt n.2 v = false := by
  simpa only [aboveRoot, hn, hv] using habove

theorem ne_root_of_isRoot {q : ListHeap α lt} {h : Handle} {n : Handle × α}
    (hroot : isRoot q h = false) (hn : q.nodes.head? = some n) : n.1 ≠ h := by
  simpa [isRoot, hn] using hroot

theorem contractHeap (hlt : StrictWeak lt) : MutableHeap.ContractHeap (SiftHeap α lt) lt where
  ordered_empty := (orderedHeap hlt).ordered_empty
  ordered_push := (orderedHeap hlt).ordered_push
  ordered_erase := (orderedHeap hlt).ordered_erase
  ordered_increase q h old v hq hfind hle := by
    refine rooted_settleIf hlt (fun habove => rooted_set hlt hq hfind fun n hn => ?_) h
    split
    · exact hle
    · next hne =>
      have hnew := lawfulListHeap.find_set q h v h
      rw [if_pos rfl] at hnew
      have hhead := head?_set q h v
      rw [hn, Option.map_some, write, if_neg hne] at hhead
      exact le_root_of_aboveRoot habove hhead (hnew.trans (congrArg (Option.map fun _ => v) hfind))
  ordered_decrease q h old v hq hfind hle := by
    refine rooted_settleIf hlt (fun hroot => rooted_set hlt hq hfind fun n hn => ?_) h
    have hhead := head?_set q h v
    rw [hn, Option.map_some] at hhead
    have hne : n.1 ≠ h := by
      intro heq
      rw [write, if_pos heq] at hhead
      exact ne_root_of_isRoot hroot hhead rfl
    rw [if_neg hne]
    exact hlt.negTrans (hq n hn (h, old) (find_eq_some.mp hfind)) hle
  top_max := (orderedHeap hlt).top_max

end SiftHeap
