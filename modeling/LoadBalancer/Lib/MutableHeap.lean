/-
  Priority queues whose nodes are addressed by handles.

  `MutableHeap Q α` is the interface of a mutable priority queue `Q` of values `α`: a push
  returns a handle, a handle is dereferenced (`find`), written through (`set`), and after a
  write the queue is told with `increase` or `decrease` that the order may have changed.
  `Ordered` is the queue's own heap order; no operation computes it.

  Laws, each a class of its own so that a result names what it needs:
  * `LawfulHeap`: the queue is a finite set of nodes addressed by handles, and `top` is one
    of them. Nothing about the order.
  * `OrderedHeap lt`: `push`, `erase`, and a write followed by `increase` or by `decrease`
    keep the heap order, and under it `top` is a maximum for `lt`.
  * `ContractHeap lt`: the same, but `increase` only where the write did not lower the value
    and `decrease` only where it did not raise it.

  `ListHeap` is a queue that meets all of them: the root is the head of a list, and it is
  replaced only by a node that is strictly above it.
-/
import LoadBalancer.Lib.Assoc
import Mathlib.Order.Lattice

/-- An address of a node. -/
abbrev Handle := Nat

/-- Operations of a mutable priority queue. `top` and `find` return `none` where the
    operation has no meaning. -/
class MutableHeap (Q : Type) (α : outParam Type) where
  empty : Q
  isEmpty : Q → Bool
  find : Q → Handle → Option α
  top : Q → Option Handle
  push : Q → α → Q × Handle
  set : Q → Handle → α → Q
  increase : Q → Handle → Q
  decrease : Q → Handle → Q
  erase : Q → Handle → Q
  Ordered : Q → Prop

namespace MutableHeap

variable {Q α : Type} [MutableHeap Q α]

/-- The queue is a finite set of nodes addressed by handles; `top` is one of them. -/
class LawfulHeap (Q : Type) {α : Type} [MutableHeap Q α] : Prop where
  find_empty : ∀ k, find (empty : Q) k = none
  isEmpty_iff : ∀ q : Q, isEmpty q = true ↔ ∀ k, find q k = none
  push_fresh : ∀ (q : Q) v, find q (push q v).2 = none
  find_push : ∀ (q : Q) v k,
    find (push q v).1 k = if k = (push q v).2 then some v else find q k
  find_set : ∀ (q : Q) h v k,
    find (set q h v) k = if k = h then (find q h).map fun _ => v else find q k
  find_increase : ∀ (q : Q) h k, find (increase q h) k = find q k
  find_decrease : ∀ (q : Q) h k, find (decrease q h) k = find q k
  find_erase : ∀ (q : Q) h k, find (erase q h) k = if k = h then none else find q k
  top_find : ∀ q : Q, isEmpty q = false → ∃ k v, top q = some k ∧ find q k = some v

/-- The queue keeps its heap order, and under it `top` is a maximum for `lt`. A write may
    change the value either way: `increase` and `decrease` both restore the order. -/
class OrderedHeap (Q : Type) {α : Type} [MutableHeap Q α] (lt : α → α → Bool) : Prop where
  ordered_empty : Ordered (empty : Q)
  ordered_push : ∀ (q : Q) v, Ordered q → Ordered (push q v).1
  ordered_erase : ∀ (q : Q) h, Ordered q → Ordered (erase q h)
  ordered_increase : ∀ (q : Q) h v, Ordered q → Ordered (increase (set q h v) h)
  ordered_decrease : ∀ (q : Q) h v, Ordered q → Ordered (decrease (set q h v) h)
  top_max : ∀ (q : Q) k v k' w, Ordered q → top q = some k → find q k = some v →
    find q k' = some w → lt v w = false

/-- The queue keeps its heap order if it is told the direction in which a value changed. -/
class ContractHeap (Q : Type) {α : Type} [MutableHeap Q α] (lt : α → α → Bool) : Prop where
  ordered_empty : Ordered (empty : Q)
  ordered_push : ∀ (q : Q) v, Ordered q → Ordered (push q v).1
  ordered_erase : ∀ (q : Q) h, Ordered q → Ordered (erase q h)
  ordered_increase : ∀ (q : Q) h old v, Ordered q → find q h = some old → lt v old = false →
    Ordered (increase (set q h v) h)
  ordered_decrease : ∀ (q : Q) h old v, Ordered q → find q h = some old → lt old v = false →
    Ordered (decrease (set q h v) h)
  top_max : ∀ (q : Q) k v k' w, Ordered q → top q = some k → find q k = some v →
    find q k' = some w → lt v w = false

instance OrderedHeap.contract {lt : α → α → Bool} [OrderedHeap Q lt] : ContractHeap Q lt where
  ordered_empty := OrderedHeap.ordered_empty lt
  ordered_push := OrderedHeap.ordered_push lt
  ordered_erase := OrderedHeap.ordered_erase lt
  ordered_increase q h _ v hq _ _ := OrderedHeap.ordered_increase lt q h v hq
  ordered_decrease q h _ v hq _ _ := OrderedHeap.ordered_decrease lt q h v hq
  top_max := OrderedHeap.top_max

export LawfulHeap (find_empty isEmpty_iff push_fresh find_push find_set find_increase
  find_decrease find_erase top_find)

attribute [simp] LawfulHeap.find_empty LawfulHeap.find_increase LawfulHeap.find_decrease

/-! ## Consequences of the laws -/

section Lawful

variable [LawfulHeap Q]

theorem isEmpty_eq_false_iff (q : Q) : isEmpty q = false ↔ ∃ k v, find q k = some v := by
  rw [← Bool.not_eq_true, isEmpty_iff]
  constructor
  · intro h
    obtain ⟨k, hk⟩ := not_forall.mp h
    obtain ⟨v, hv⟩ := Option.ne_none_iff_exists'.mp hk
    exact ⟨k, v, hv⟩
  · intro hex hall
    obtain ⟨k, v, hv⟩ := hex
    rw [hall k] at hv
    cases hv

/-- A pushed handle was free. -/
theorem ne_push_of_find {q : Q} {k : Handle} {v : α} (hv : find q k = some v) (w : α) :
    k ≠ (push q w).2 := by
  intro heq
  subst heq
  rw [push_fresh] at hv
  cases hv

/-- The nodes after a write through a live handle, followed by either update. -/
theorem find_decrease_set {q : Q} {h : Handle} {old : α} (hold : find q h = some old) (v : α)
    (k : Handle) : find (decrease (set q h v) h) k = if k = h then some v else find q k := by
  rw [find_decrease, find_set, hold, Option.map_some]

theorem find_increase_set {q : Q} {h : Handle} {old : α} (hold : find q h = some old) (v : α)
    (k : Handle) : find (increase (set q h v) h) k = if k = h then some v else find q k := by
  rw [find_increase, find_set, hold, Option.map_some]

end Lawful

end MutableHeap

/-! ## A queue over a list -/

/-- `lt` is the strict part of a total preorder, as a comparator must be. -/
structure StrictWeak {α : Type} (lt : α → α → Bool) : Prop where
  asymm : ∀ {a b}, lt a b = true → lt b a = false
  negTrans : ∀ {a b c}, lt a b = false → lt b c = false → lt a c = false

theorem StrictWeak.irrefl {α : Type} {lt : α → α → Bool} (hlt : StrictWeak lt) (a : α) :
    lt a a = false := by
  by_contra h
  rw [Bool.not_eq_false] at h
  have := hlt.asymm h
  rw [h] at this
  cases this

/-- The greater key comes first. -/
theorem strictWeak_of_key {α β : Type} [LinearOrder β] (key : α → β) :
    StrictWeak fun a b => decide (key a > key b) where
  asymm h := by
    simp only [decide_eq_true_eq, decide_eq_false_iff_not] at h ⊢
    exact not_lt_of_gt h
  negTrans hab hbc := by
    simp only [decide_eq_false_iff_not, not_lt] at hab hbc ⊢
    exact hab.trans hbc

/-- Nodes in a list without repeated handles; the root is the head. -/
structure ListHeap (α : Type) (lt : α → α → Bool) where
  nodes : List (Handle × α)
  nodup : (nodes.map Prod.fst).Nodup

namespace ListHeap

variable {α : Type} {lt : α → α → Bool}

/-- The first node of `n :: ns` that no node is above. -/
def best (lt : α → α → Bool) (n : Handle × α) : List (Handle × α) → Handle × α
  | [] => n
  | m :: ms => best lt (if lt n.2 m.2 then m else n) ms

/-- Bring the best node to the front. -/
def settle (lt : α → α → Bool) : List (Handle × α) → List (Handle × α)
  | [] => []
  | n :: ns => best lt n ns :: (n :: ns).filter fun m => m.1 ≠ (best lt n ns).1

theorem best_mem (n : Handle × α) (ns : List (Handle × α)) : best lt n ns ∈ n :: ns := by
  induction ns generalizing n with
  | nil => simp [best]
  | cons m ms ih =>
      unfold best
      rcases List.mem_cons.mp (ih (if lt n.2 m.2 then m else n)) with h | h
      · rw [h]
        split <;> simp
      · exact List.mem_cons_of_mem _ (List.mem_cons_of_mem _ h)

theorem best_max (hlt : StrictWeak lt) (n : Handle × α) (ns : List (Handle × α)) :
    ∀ m ∈ n :: ns, lt (best lt n ns).2 m.2 = false := by
  induction ns generalizing n with
  | nil =>
      intro m hm
      obtain rfl : m = n := by simpa using hm
      exact hlt.irrefl _
  | cons m ms ih =>
      have hroot := ih (if lt n.2 m.2 then m else n)
      have hkept := hroot _ List.mem_cons_self
      intro x hx
      unfold best
      rcases List.mem_cons.mp hx with rfl | hx
      · -- the old root: either kept, or strictly below the node that replaced it
        by_cases hn : lt x.2 m.2 = true
        · rw [if_pos hn] at hkept ⊢
          exact hlt.negTrans hkept (hlt.asymm hn)
        · rw [if_neg hn] at hkept ⊢
          exact hkept
      · rcases List.mem_cons.mp hx with rfl | hx
        · by_cases hn : lt n.2 x.2 = true
          · rw [if_pos hn] at hkept ⊢
            exact hkept
          · rw [if_neg hn] at hkept ⊢
            exact hlt.negTrans hkept (by simpa using hn)
        · exact hroot x (List.mem_cons_of_mem _ hx)

theorem mem_settle {ns : List (Handle × α)} (hnd : (ns.map Prod.fst).Nodup)
    (x : Handle × α) : x ∈ settle lt ns ↔ x ∈ ns := by
  cases ns with
  | nil => rfl
  | cons n ns =>
      have hb : best lt n ns ∈ n :: ns := best_mem n ns
      rw [settle, List.mem_cons, List.mem_filter, decide_eq_true_eq]
      constructor
      · intro hor
        rcases hor with rfl | h
        · exact hb
        · exact h.1
      · intro hx
        by_cases hfst : x.1 = (best lt n ns).1
        · exact Or.inl (List.inj_on_of_nodup_map hnd hx hb hfst)
        · exact Or.inr ⟨hx, hfst⟩

theorem nodup_settle {ns : List (Handle × α)} (hnd : (ns.map Prod.fst).Nodup) :
    ((settle lt ns).map Prod.fst).Nodup := by
  cases ns with
  | nil => exact hnd
  | cons n ns =>
      rw [settle, List.map_cons, List.nodup_cons]
      refine ⟨?_, List.nodup_map_fst_filter hnd _⟩
      intro hmem
      obtain ⟨m, hm, heq⟩ := List.mem_map.mp hmem
      have := (List.mem_filter.mp hm).2
      simp [heq] at this

/-- A handle that no node has. -/
def fresh (ns : List (Handle × α)) : Handle :=
  (ns.map Prod.fst).foldr max 0 + 1

theorem lt_fresh {ns : List (Handle × α)} {n : Handle × α} (hn : n ∈ ns) :
    n.1 < fresh ns := by
  unfold fresh
  induction ns with
  | nil => cases hn
  | cons m ms ih =>
      simp only [List.map_cons, List.foldr_cons]
      rcases List.mem_cons.mp hn with rfl | hn
      · exact Nat.lt_succ_of_le (Nat.le_max_left _ _)
      · exact Nat.lt_of_lt_of_le (ih hn) (Nat.succ_le_succ (Nat.le_max_right _ _))

/-- A new node is placed right under the root. -/
def insertNode (n : Handle × α) : List (Handle × α) → List (Handle × α)
  | [] => [n]
  | m :: ms => m :: n :: ms

theorem insertNode_perm (n : Handle × α) (ns : List (Handle × α)) :
    (insertNode n ns).Perm (n :: ns) := by
  cases ns with
  | nil => exact .refl _
  | cons m ms => exact .swap _ _ _

theorem nodup_insertNode {ns : List (Handle × α)} (hnd : (ns.map Prod.fst).Nodup) (v : α) :
    ((insertNode (fresh ns, v) ns).map Prod.fst).Nodup := by
  rw [((insertNode_perm _ _).map _).nodup_iff, List.map_cons, List.nodup_cons]
  refine ⟨?_, hnd⟩
  intro hmem
  obtain ⟨n, hn, heq⟩ := List.mem_map.mp hmem
  exact absurd heq (Nat.ne_of_lt (lt_fresh hn))

/-- Write through a handle. -/
def write (h : Handle) (v : α) (n : Handle × α) : Handle × α :=
  if n.1 = h then (h, v) else n

theorem map_fst_write (h : Handle) (v : α) (ns : List (Handle × α)) :
    (ns.map (write h v)).map Prod.fst = ns.map Prod.fst := by
  rw [List.map_map]
  apply List.map_congr_left
  intro n _
  simp only [Function.comp_apply, write]
  split
  · next heq => exact heq.symm
  · rfl

def find (q : ListHeap α lt) (k : Handle) : Option α := q.nodes.lookup k

theorem find_eq_some {q : ListHeap α lt} {k : Handle} {v : α} :
    q.find k = some v ↔ (k, v) ∈ q.nodes :=
  List.lookup_eq_some_iff_mem q.nodup

instance : MutableHeap (ListHeap α lt) α where
  empty := ⟨[], List.nodup_nil⟩
  isEmpty q := q.nodes.isEmpty
  find := find
  top q := q.nodes.head?.map Prod.fst
  push q v := (⟨settle lt (insertNode (fresh q.nodes, v) q.nodes),
    nodup_settle (nodup_insertNode q.nodup v)⟩, fresh q.nodes)
  set q h v := ⟨q.nodes.map (write h v), by rw [map_fst_write]; exact q.nodup⟩
  increase q _ := ⟨settle lt q.nodes, nodup_settle q.nodup⟩
  decrease q _ := ⟨settle lt q.nodes, nodup_settle q.nodup⟩
  erase q h := ⟨settle lt (q.nodes.filter fun n => n.1 ≠ h),
    nodup_settle (List.nodup_map_fst_filter q.nodup _)⟩
  Ordered q := ∀ n ∈ q.nodes.head?, ∀ m ∈ q.nodes, lt n.2 m.2 = false

@[simp] theorem nodes_push (q : ListHeap α lt) (v : α) :
    (MutableHeap.push q v).1.nodes = settle lt (insertNode (fresh q.nodes, v) q.nodes) := rfl

@[simp] theorem nodes_erase (q : ListHeap α lt) (h : Handle) :
    (MutableHeap.erase q h).nodes = settle lt (q.nodes.filter fun n => n.1 ≠ h) := rfl

/-- Two queues with the same nodes dereference every handle alike. -/
theorem find_congr {p q : ListHeap α lt} {k : Handle}
    (h : ∀ v, (k, v) ∈ p.nodes ↔ (k, v) ∈ q.nodes) : p.find k = q.find k :=
  Option.ext fun v => by rw [find_eq_some, find_eq_some, h]

instance : MutableHeap.LawfulHeap (ListHeap α lt) where
  find_empty _ := rfl
  isEmpty_iff q := by
    show q.nodes.isEmpty = true ↔ ∀ k, q.find k = none
    rw [List.isEmpty_iff]
    constructor
    · intro h k
      simp [find, h]
    · intro h
      apply List.eq_nil_iff_forall_not_mem.mpr
      intro n hn
      have := find_eq_some.mpr (show (n.1, n.2) ∈ q.nodes from hn)
      rw [h] at this
      cases this
  push_fresh q v := by
    show q.find (fresh q.nodes) = none
    apply Option.eq_none_iff_forall_ne_some.mpr
    intro w hw
    exact absurd (lt_fresh (find_eq_some.mp hw)) (Nat.lt_irrefl _)
  find_push q v k := by
    show ListHeap.find (MutableHeap.push q v).1 k = if k = fresh q.nodes then some v else q.find k
    apply Option.ext
    intro w
    rw [find_eq_some, nodes_push, mem_settle (nodup_insertNode q.nodup v),
      (insertNode_perm _ _).mem_iff, List.mem_cons]
    split
    · next hk =>
      subst hk
      constructor
      · intro hor
        rcases hor with h | h
        · simp_all
        · exact absurd (lt_fresh h) (Nat.lt_irrefl _)
      · intro h
        simp_all
    · next hk =>
      rw [find_eq_some]
      exact ⟨fun h => h.resolve_left fun e => hk (congrArg Prod.fst e), Or.inr⟩
  find_set q h v k := by
    show ListHeap.find (MutableHeap.set q h v) k =
      if k = h then (q.find h).map fun _ => v else q.find k
    apply Option.ext
    intro w
    rw [find_eq_some]
    show (k, w) ∈ q.nodes.map (write h v) ↔ _
    rw [List.mem_map]
    split
    · next hk =>
      subst hk
      rw [Option.map_eq_some_iff]
      constructor
      · intro hex
        obtain ⟨n, hn, heq⟩ := hex
        by_cases hfst : n.1 = k
        · rw [write, if_pos hfst] at heq
          exact ⟨n.2, find_eq_some.mpr (hfst ▸ hn), congrArg Prod.snd heq⟩
        · rw [write, if_neg hfst] at heq
          exact absurd (congrArg Prod.fst heq) hfst
      · intro hex
        obtain ⟨old, hold, rfl⟩ := hex
        exact ⟨(k, old), find_eq_some.mp hold, by simp [write]⟩
    · next hk =>
      rw [find_eq_some]
      constructor
      · intro hex
        obtain ⟨n, hn, heq⟩ := hex
        by_cases hfst : n.1 = h
        · rw [write, if_pos hfst] at heq
          exact absurd (congrArg Prod.fst heq).symm hk
        · rw [write, if_neg hfst] at heq
          exact heq ▸ hn
      · intro hmem
        exact ⟨(k, w), hmem, by simp [write, hk]⟩
  find_increase q h k := find_congr fun v => mem_settle q.nodup _
  find_decrease q h k := find_congr fun v => mem_settle q.nodup _
  find_erase q h k := by
    show ListHeap.find (MutableHeap.erase q h) k = if k = h then none else q.find k
    apply Option.ext
    intro w
    rw [find_eq_some, nodes_erase,
      mem_settle (List.nodup_map_fst_filter q.nodup _), List.mem_filter]
    split
    · next hk => simp [hk]
    · next hk => simp [find_eq_some, hk]
  top_find q hq := by
    change q.nodes.isEmpty = false at hq
    cases hn : q.nodes with
    | nil => simp [hn] at hq
    | cons n ns =>
        refine ⟨n.1, n.2, ?_, find_eq_some.mpr (hn ▸ List.mem_cons_self)⟩
        show q.nodes.head?.map Prod.fst = some n.1
        rw [hn]
        rfl

/-- After `settle` the root is a maximum. -/
theorem ordered_settle (hlt : StrictWeak lt) (ns : List (Handle × α)) :
    ∀ n ∈ (settle lt ns).head?, ∀ m ∈ settle lt ns, lt n.2 m.2 = false := by
  cases ns with
  | nil => simp [settle]
  | cons root rest =>
      intro n hn m hm
      obtain rfl : best lt root rest = n := by simpa [settle] using hn
      rcases List.mem_cons.mp hm with rfl | hm
      · exact hlt.irrefl _
      · exact best_max hlt root rest m (List.mem_of_mem_filter hm)

theorem orderedHeap (hlt : StrictWeak lt) :
    MutableHeap.OrderedHeap (ListHeap α lt) lt where
  ordered_empty := by simp [MutableHeap.Ordered, MutableHeap.empty]
  ordered_push _ _ _ := ordered_settle hlt _
  ordered_erase _ _ _ := ordered_settle hlt _
  ordered_increase _ _ _ _ := ordered_settle hlt _
  ordered_decrease _ _ _ _ := ordered_settle hlt _
  top_max q k v k' w hord htop hv hw := by
    change q.nodes.head?.map Prod.fst = some k at htop
    obtain ⟨n, hn, rfl⟩ := Option.map_eq_some_iff.mp htop
    have hmem : n ∈ q.nodes := List.mem_of_mem_head? hn
    have hnv : n.2 = v := by
      have := find_eq_some.mpr (show (n.1, n.2) ∈ q.nodes from hmem)
      exact Option.some.inj (this.symm.trans hv)
    rw [← hnv]
    exact hord n hn _ (find_eq_some.mp hw)

end ListHeap
