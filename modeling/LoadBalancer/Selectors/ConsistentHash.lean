/-
  `pumba::ConsistentHashingRouter` and `ConsistentHashSelector`.

  The router keeps its nodes in a list and, on the ring, iterators into that list; an
  iterator is modelled by the number of the node it points to, counted in insertion order.
  Insertion overwrites ring positions, so a later node can own positions of an earlier one.
  `Inv` says that a ring entry never dangles and that node numbers do not repeat.
-/
import LoadBalancer.Lib.OrderedMap
import LoadBalancer.Selectors.Basic
import Mathlib.Order.Fin.Basic
import Mathlib.Tactic.Tauto

namespace LoadBalancer

/-- `HashTraits` of a node type. -/
structure HashTraits (NodeType : Type) where
  getHash : NodeType → HashType
  replicate : NodeType → Nat → Except Exception (List HashType)

/-- `std::list<NodeType>::iterator` -/
abbrev NodeIt := Nat

structure Router (NodeType : Type) where
  ring : OrderedMap HashType NodeIt
  physicalNodes : List (NodeIt × NodeType)
  /-- the iterator of the next node -/
  nextNode : NodeIt
  replicas : Nat

namespace Router

variable {NodeType : Type}

def new (replicas : Nat) : Router NodeType :=
  { ring := .empty, physicalNodes := [], nextNode := 0, replicas := replicas }

/-- The node an iterator points to, while it is in the list. -/
def deref (r : Router NodeType) (it : NodeIt) : Option NodeType :=
  r.physicalNodes.lookup it

/-- `replicas_ - 1` in `std::size_t` -/
def extraReplicas (replicas : Nat) : Nat := (replicas + (2 ^ 64 - 1)) % 2 ^ 64

/-- `ring_[hash] = physical_node` for each hash -/
def assign (ring : OrderedMap HashType NodeIt) (it : NodeIt) (hashes : List HashType) :
    OrderedMap HashType NodeIt :=
  hashes.foldl (fun ring hash => ring.insert hash it) ring

def spawnReplicas (traits : HashTraits NodeType) (r : Router NodeType) (it : NodeIt)
    (node : NodeType) : Except Exception (Router NodeType) := do
  let hashes ← traits.replicate node (extraReplicas r.replicas)
  return { r with ring := assign r.ring it (traits.getHash node :: hashes) }

def emplaceNode (traits : HashTraits NodeType) (r : Router NodeType) (node : NodeType) :
    Except Exception (Router NodeType) :=
  spawnReplicas traits
    { r with
      physicalNodes := r.physicalNodes ++ [(r.nextNode, node)]
      nextNode := r.nextNode + 1 }
    r.nextNode node

def eraseReplicasOf (r : Router NodeType) (it : NodeIt) : Router NodeType :=
  { r with ring := r.ring.eraseIf fun owner => owner = it }

def eraseNode (traits : HashTraits NodeType) (r : Router NodeType) (node : NodeType) :
    Router NodeType :=
  match r.ring.find (traits.getHash node) with
  | none => r
  | some it =>
    let r := r.eraseReplicasOf it
    { r with physicalNodes := r.physicalNodes.filter fun n => n.1 ≠ it }

def isEmpty (r : Router NodeType) : Bool := r.physicalNodes.isEmpty

/-- `std::runtime_error("pumba::Router: no nodes on the ring")` -/
def noNodes : Exception := .runtimeError "pumba::Router: no nodes on the ring"

def selectNode (traits : HashTraits NodeType) (r : Router NodeType) (client : NodeType) :
    Outcome NodeType :=
  if r.isEmpty then .thrown noNodes
  else .access do
    -- `begin()` of an empty ring is its end
    let entry ← r.ring.successor (traits.getHash client)
    r.deref entry.2

/-- Ring entries point into the list, whose iterators are distinct and older than the next. -/
structure Inv (r : Router NodeType) : Prop where
  nodup : (r.physicalNodes.map Prod.fst).Nodup
  older : ∀ n ∈ r.physicalNodes, n.1 < r.nextNode
  live : ∀ e ∈ r.ring.entries, ∃ node, (e.2, node) ∈ r.physicalNodes

/-- The node is in the list. -/
def Holds (r : Router NodeType) (node : NodeType) : Prop :=
  ∃ it, (it, node) ∈ r.physicalNodes

/-- Some ring position leads to the node. -/
def OnRing (r : Router NodeType) (node : NodeType) : Prop :=
  ∃ e ∈ r.ring.entries, (e.2, node) ∈ r.physicalNodes

/-- Every node on the ring owns the position of its own hash. -/
def OwnsPrimary (traits : HashTraits NodeType) (r : Router NodeType) : Prop :=
  ∀ e ∈ r.ring.entries, ∀ node, (e.2, node) ∈ r.physicalNodes →
    r.ring.find (traits.getHash node) = some e.2

/-- The ring positions an insertion of the node claims. -/
def positions (traits : HashTraits NodeType) (replicas : Nat) (node : NodeType) :
    List HashType :=
  traits.getHash node :: (traits.replicate node (extraReplicas replicas)).toOption.getD []

/-- No later endpoint takes the first position of a node, unless later endpoints take all of
    its positions. -/
def KeepsPrimary (traits : HashTraits NodeType) (replicas : Nat) : List NodeType → Prop
  | [] => True
  | node :: nodes =>
    (traits.getHash node ∈ nodes.flatMap (positions traits replicas) →
      ∀ p ∈ positions traits replicas node, p ∈ nodes.flatMap (positions traits replicas)) ∧
    KeepsPrimary traits replicas nodes

theorem isEmpty_eq_false {r : Router NodeType} :
    r.isEmpty = false ↔ ∃ node, r.Holds node := by
  rw [isEmpty, List.isEmpty_eq_false_iff_exists_mem]
  exact ⟨fun ⟨n, hn⟩ => ⟨n.2, n.1, hn⟩, fun ⟨node, it, h⟩ => ⟨(it, node), h⟩⟩

theorem OnRing.holds {r : Router NodeType} {node : NodeType} (h : r.OnRing node) :
    r.Holds node := by
  obtain ⟨e, -, hnode⟩ := h
  exact ⟨e.2, hnode⟩

theorem deref_eq_some {r : Router NodeType} (hr : r.Inv) {it : NodeIt} {node : NodeType} :
    r.deref it = some node ↔ (it, node) ∈ r.physicalNodes :=
  List.lookup_eq_some_iff_mem hr.nodup

/-- An iterator points to one node. -/
theorem Inv.node_unique {r : Router NodeType} (hr : r.Inv) {it : NodeIt} {a b : NodeType}
    (ha : (it, a) ∈ r.physicalNodes) (hb : (it, b) ∈ r.physicalNodes) : a = b := by
  have := (deref_eq_some hr).mpr ha
  rw [(deref_eq_some hr).mpr hb] at this
  exact (Option.some.inj this).symm

/-! ## Insertion -/

theorem mem_assign {ring : OrderedMap HashType NodeIt} {it : NodeIt} {hashes : List HashType}
    {x : HashType × NodeIt} : x ∈ (assign ring it hashes).entries ↔
      x.1 ∈ hashes ∧ x.2 = it ∨ x.1 ∉ hashes ∧ x ∈ ring.entries := by
  induction hashes generalizing ring with
  | nil => simp [assign]
  | cons h hs ih =>
      have hstep : assign ring it (h :: hs) = assign (ring.insert h it) it hs := rfl
      rw [hstep, ih, OrderedMap.mem_entries_insert, Prod.ext_iff, List.mem_cons]
      by_cases hmem : x.1 ∈ hs
      · simp [hmem]
      · by_cases heq : x.1 = h
        · simp [heq]
          tauto
        · simp [hmem, heq]

theorem emplaceNode_eq_ok {traits : HashTraits NodeType} {r t : Router NodeType}
    {node : NodeType} (h : r.emplaceNode traits node = .ok t) :
    t = { r with
          ring := assign r.ring r.nextNode (positions traits r.replicas node)
          physicalNodes := r.physicalNodes ++ [(r.nextNode, node)]
          nextNode := r.nextNode + 1 } := by
  obtain ⟨hashes, hhashes, h⟩ := Except.bind_eq_ok.mp h
  rw [Except.pure_eq_ok] at h
  rw [positions, hhashes]
  exact h.symm

/-- An insertion appends the node and gives it its positions. -/
theorem mem_emplaceNode {traits : HashTraits NodeType} {r t : Router NodeType}
    {node : NodeType} (h : r.emplaceNode traits node = .ok t) :
    (∀ n, n ∈ t.physicalNodes ↔ n ∈ r.physicalNodes ∨ n = (r.nextNode, node)) ∧
    ∀ e, e ∈ t.ring.entries ↔ e.1 ∈ positions traits r.replicas node ∧ e.2 = r.nextNode ∨
      e.1 ∉ positions traits r.replicas node ∧ e ∈ r.ring.entries := by
  obtain rfl := emplaceNode_eq_ok h
  exact ⟨fun n => by rw [List.mem_append, List.mem_singleton], fun e => mem_assign⟩

theorem replicas_emplaceNode {traits : HashTraits NodeType} {r t : Router NodeType}
    {node : NodeType} (h : r.emplaceNode traits node = .ok t) : t.replicas = r.replicas := by
  rw [emplaceNode_eq_ok h]

theorem forall_nodes_emplaceNode {traits : HashTraits NodeType} {r t : Router NodeType}
    {node : NodeType} (h : r.emplaceNode traits node = .ok t) {P : NodeIt × NodeType → Prop} :
    (∀ n ∈ t.physicalNodes, P n) ↔
      (∀ n ∈ r.physicalNodes, P n) ∧ P (r.nextNode, node) := by
  simp only [(mem_emplaceNode h).1, or_imp, forall_and, forall_eq]

/-- The other nodes lose the positions of the new one. -/
theorem entry_emplaceNode_of_old {traits : HashTraits NodeType} {r t : Router NodeType}
    {node : NodeType} (hr : r.Inv) (h : r.emplaceNode traits node = .ok t)
    {n : NodeIt × NodeType} (hn : n ∈ r.physicalNodes) (p : HashType) :
    (p, n.1) ∈ t.ring.entries ↔
      p ∉ positions traits r.replicas node ∧ (p, n.1) ∈ r.ring.entries := by
  have hne : n.1 ≠ r.nextNode := Nat.ne_of_lt (hr.older n hn)
  rw [(mem_emplaceNode h).2]
  exact or_iff_right fun hnew => hne hnew.2

/-- The new node has its positions, and no others. -/
theorem entry_emplaceNode_of_new {traits : HashTraits NodeType} {r t : Router NodeType}
    {node : NodeType} (hr : r.Inv) (h : r.emplaceNode traits node = .ok t) (p : HashType) :
    (p, r.nextNode) ∈ t.ring.entries ↔ p ∈ positions traits r.replicas node := by
  have hold : (p, r.nextNode) ∉ r.ring.entries := by
    intro hmem
    obtain ⟨x, hx⟩ := hr.live _ hmem
    exact absurd (hr.older _ hx) (Nat.lt_irrefl _)
  rw [(mem_emplaceNode h).2]
  simp [hold]

theorem inv_new (replicas : Nat) : (new replicas : Router NodeType).Inv where
  nodup := List.nodup_nil
  older := by simp [new]
  live := by simp [new]

theorem inv_emplaceNode {traits : HashTraits NodeType} {r t : Router NodeType}
    {node : NodeType} (hr : r.Inv) (h : r.emplaceNode traits node = .ok t) : t.Inv := by
  have hnext : t.nextNode = r.nextNode + 1 := by rw [emplaceNode_eq_ok h]
  refine ⟨?_, ?_, ?_⟩
  · rw [emplaceNode_eq_ok h, List.map_append, List.nodup_append]
    refine ⟨hr.nodup, List.nodup_singleton _, ?_⟩
    intro a ha b hb
    obtain ⟨n, hn, rfl⟩ := List.mem_map.mp ha
    obtain rfl : b = r.nextNode := by simpa using hb
    exact Nat.ne_of_lt (hr.older n hn)
  · rw [forall_nodes_emplaceNode h, hnext]
    exact ⟨fun n hn => Nat.lt_succ_of_lt (hr.older n hn), Nat.lt_succ_self _⟩
  · intro e he
    simp only [(mem_emplaceNode h).1]
    rcases ((mem_emplaceNode h).2 e).mp he with ⟨-, heq⟩ | ⟨-, he⟩
    · exact ⟨node, Or.inr (by rw [heq])⟩
    · obtain ⟨n, hn⟩ := hr.live e he
      exact ⟨n, Or.inl hn⟩

theorem holds_emplaceNode {traits : HashTraits NodeType} {r t : Router NodeType}
    {node x : NodeType} (h : r.emplaceNode traits node = .ok t) :
    t.Holds x ↔ x = node ∨ r.Holds x := by
  simp only [Holds, (mem_emplaceNode h).1, Prod.mk.injEq, exists_or, exists_and_right,
    exists_eq, true_and]
  exact or_comm

/-! ## The loop of `Configure` -/

theorem inv_emplaceAll {traits : HashTraits NodeType} {r t : Router NodeType}
    {nodes : List NodeType} (hr : r.Inv)
    (h : nodes.foldlM (fun r node => r.emplaceNode traits node) r = .ok t) : t.Inv :=
  Except.foldlM_invariant (fun _ _ _ hs hstep => inv_emplaceNode hs hstep) hr h

/-- The loop appends the nodes in their order. -/
theorem map_snd_emplaceAll {traits : HashTraits NodeType} {r t : Router NodeType}
    {nodes : List NodeType}
    (h : nodes.foldlM (fun r node => r.emplaceNode traits node) r = .ok t) :
    t.physicalNodes.map Prod.snd = r.physicalNodes.map Prod.snd ++ nodes := by
  induction nodes generalizing r with
  | nil =>
      rw [List.foldlM_nil, Except.pure_eq_ok] at h
      simp [h]
  | cons node nodes ih =>
      rw [List.foldlM_cons] at h
      obtain ⟨u, hu, h⟩ := Except.bind_eq_ok.mp h
      rw [ih h, emplaceNode_eq_ok hu]
      simp

theorem holds_iff_mem_map {r : Router NodeType} {x : NodeType} :
    r.Holds x ↔ x ∈ r.physicalNodes.map Prod.snd := by
  simp [Holds]

theorem holds_emplaceAll {traits : HashTraits NodeType} {r t : Router NodeType}
    {nodes : List NodeType} {x : NodeType}
    (h : nodes.foldlM (fun r node => r.emplaceNode traits node) r = .ok t) :
    t.Holds x ↔ x ∈ nodes ∨ r.Holds x := by
  rw [holds_iff_mem_map, map_snd_emplaceAll h, List.mem_append, or_comm, ← holds_iff_mem_map]

/-- Where an insertion that `later` follows keeps `B` exactly if its node meets `C`, a loop of
    insertions keeps `B` exactly if each node meets `C` with the positions of those after it. -/
theorem before_emplaceAll {traits : HashTraits NodeType} {replicas : Nat}
    {B : Router NodeType → List HashType → Prop} {C : NodeType → List HashType → Prop}
    {K : List NodeType → Prop} (hnil : K [])
    (hcons : ∀ node nodes,
      K (node :: nodes) ↔ C node (nodes.flatMap (positions traits replicas)) ∧ K nodes)
    (hstep : ∀ {r t : Router NodeType} {node : NodeType}, r.Inv → r.replicas = replicas →
      r.emplaceNode traits node = .ok t → ∀ later,
      B t later ↔ B r (positions traits replicas node ++ later) ∧ C node later)
    {r t : Router NodeType} {nodes : List NodeType} (hr : r.Inv) (hreplicas : r.replicas = replicas)
    (h : nodes.foldlM (fun r node => r.emplaceNode traits node) r = .ok t) :
    B t [] ↔ B r (nodes.flatMap (positions traits replicas)) ∧ K nodes := by
  induction nodes generalizing r with
  | nil =>
      rw [List.foldlM_nil, Except.pure_eq_ok] at h
      rw [h, List.flatMap_nil, and_iff_left hnil]
  | cons node nodes ih =>
      rw [List.foldlM_cons] at h
      obtain ⟨u, hu, h⟩ := Except.bind_eq_ok.mp h
      rw [ih (inv_emplaceNode hr hu) ((replicas_emplaceNode hu).trans hreplicas) h,
        hstep hr hreplicas hu, List.flatMap_cons, hcons, and_assoc]

/-- A node that keeps a position outside `later` keeps its primary position, also outside. -/
def OwnsPrimaryBefore (traits : HashTraits NodeType) (r : Router NodeType)
    (later : List HashType) : Prop :=
  ∀ e ∈ r.ring.entries, e.1 ∉ later → ∀ node, (e.2, node) ∈ r.physicalNodes →
    (traits.getHash node, e.2) ∈ r.ring.entries ∧ traits.getHash node ∉ later

theorem ownsPrimary_iff_before {traits : HashTraits NodeType} {r : Router NodeType} :
    r.OwnsPrimary traits ↔ r.OwnsPrimaryBefore traits [] := by
  simp [OwnsPrimary, OwnsPrimaryBefore, OrderedMap.find_eq_some]

theorem ownsPrimaryBefore_iff {traits : HashTraits NodeType} {r : Router NodeType}
    {later : List HashType} : r.OwnsPrimaryBefore traits later ↔
      ∀ n ∈ r.physicalNodes, ∀ p, (p, n.1) ∈ r.ring.entries → p ∉ later →
        (traits.getHash n.2, n.1) ∈ r.ring.entries ∧ traits.getHash n.2 ∉ later :=
  ⟨fun h n hn p hp hlater => h (p, n.1) hp hlater n.2 hn,
    fun h e he hlater x hx => h (e.2, x) hx e.1 he hlater⟩

theorem ownsPrimaryBefore_emplaceNode {traits : HashTraits NodeType} {replicas : Nat}
    {r t : Router NodeType} {node : NodeType} (hr : r.Inv) (hreplicas : r.replicas = replicas)
    (h : r.emplaceNode traits node = .ok t) (later : List HashType) :
    t.OwnsPrimaryBefore traits later ↔
      r.OwnsPrimaryBefore traits (positions traits replicas node ++ later) ∧
        (traits.getHash node ∈ later → ∀ p ∈ positions traits replicas node, p ∈ later) := by
  subst hreplicas
  rw [ownsPrimaryBefore_iff, ownsPrimaryBefore_iff, forall_nodes_emplaceNode h]
  refine and_congr ?_ ?_
  · refine forall₂_congr fun n hn => forall_congr' fun p => ?_
    rw [entry_emplaceNode_of_old hr h hn, entry_emplaceNode_of_old hr h hn, List.mem_append,
      List.mem_append]
    tauto
  · have hprimary : traits.getHash node ∈ positions traits r.replicas node := List.mem_cons_self
    simp only [entry_emplaceNode_of_new hr h, hprimary, true_and]
    constructor
    · intro hkeeps hlater p hp
      by_contra hnot
      exact hkeeps p hp hnot hlater
    · intro hall p hp hnot hlater
      exact hnot (hall hlater p hp)

theorem ownsPrimary_emplaceAll {traits : HashTraits NodeType} {replicas : Nat}
    {r t : Router NodeType} {nodes : List NodeType} (hr : r.Inv) (hreplicas : r.replicas = replicas)
    (h : nodes.foldlM (fun r node => r.emplaceNode traits node) r = .ok t) :
    t.OwnsPrimary traits ↔
      r.OwnsPrimaryBefore traits (nodes.flatMap (positions traits replicas)) ∧
        KeepsPrimary traits replicas nodes := by
  rw [ownsPrimary_iff_before]
  exact before_emplaceAll trivial (fun _ _ => Iff.rfl) ownsPrimaryBefore_emplaceNode hr hreplicas h

/-- A configured ring: the nodes on it own their primary positions exactly when every endpoint
    keeps its primary position or loses all of them. -/
theorem ownsPrimary_emplaceAll_new {traits : HashTraits NodeType} {t : Router NodeType}
    {replicas : Nat} {nodes : List NodeType}
    (h : nodes.foldlM (fun r node => r.emplaceNode traits node) (new replicas) = .ok t) :
    t.OwnsPrimary traits ↔ KeepsPrimary traits replicas nodes := by
  rw [ownsPrimary_emplaceAll (inv_new replicas) rfl h]
  exact and_iff_right (fun e he => absurd he List.not_mem_nil)

/-- Endpoints whose positions are all distinct keep them. -/
theorem keepsPrimary_of_nodup {traits : HashTraits NodeType} {replicas : Nat}
    {nodes : List NodeType} (h : (nodes.flatMap (positions traits replicas)).Nodup) :
    KeepsPrimary traits replicas nodes := by
  induction nodes with
  | nil => trivial
  | cons node nodes ih =>
      rw [List.flatMap_cons, List.nodup_append] at h
      obtain ⟨-, hnd, hdisj⟩ := h
      refine ⟨fun hmem => ?_, ih hnd⟩
      exact absurd rfl (hdisj _ List.mem_cons_self _ hmem)

/-! ## Removal -/

/-- Removing a node drops the owner of its hash, from the list and from the ring. -/
theorem mem_eraseNode {traits : HashTraits NodeType} {r : Router NodeType} {node : NodeType} :
    (∀ n, n ∈ (r.eraseNode traits node).physicalNodes ↔
      n ∈ r.physicalNodes ∧ r.ring.find (traits.getHash node) ≠ some n.1) ∧
    ∀ e, e ∈ (r.eraseNode traits node).ring.entries ↔
      e ∈ r.ring.entries ∧ r.ring.find (traits.getHash node) ≠ some e.2 := by
  unfold eraseNode
  split
  · next h => simp [h]
  · next it h =>
    rw [h]
    refine ⟨fun n => ?_, fun e => ?_⟩
    · rw [List.mem_filter, decide_eq_true_eq]
      exact and_congr_right' (not_congr (eq_comm.trans Option.some_inj.symm))
    · rw [eraseReplicasOf, OrderedMap.mem_entries_eraseIf, decide_eq_false_iff_not]
      exact and_congr_right' (not_congr (eq_comm.trans Option.some_inj.symm))

@[simp] theorem nextNode_eraseNode (traits : HashTraits NodeType) (r : Router NodeType)
    (node : NodeType) : (r.eraseNode traits node).nextNode = r.nextNode := by
  unfold eraseNode
  split <;> rfl

theorem inv_eraseNode {traits : HashTraits NodeType} {r : Router NodeType} (hr : r.Inv)
    (node : NodeType) : (r.eraseNode traits node).Inv := by
  refine ⟨?_, ?_, ?_⟩
  · unfold eraseNode
    split
    · exact hr.nodup
    · exact List.nodup_map_fst_filter hr.nodup _
  · intro n hn
    rw [nextNode_eraseNode]
    exact hr.older n ((mem_eraseNode.1 n).mp hn).1
  · intro e he
    obtain ⟨hmem, howner⟩ := (mem_eraseNode.2 e).mp he
    obtain ⟨n, hn⟩ := hr.live e hmem
    exact ⟨n, (mem_eraseNode.1 (e.2, n)).mpr ⟨hn, howner⟩⟩

theorem onRing_eraseNode {traits : HashTraits NodeType} {r : Router NodeType}
    {node x : NodeType} : (r.eraseNode traits node).OnRing x ↔
      ∃ e ∈ r.ring.entries, (e.2, x) ∈ r.physicalNodes ∧
        r.ring.find (traits.getHash node) ≠ some e.2 := by
  constructor
  · intro hheld
    obtain ⟨e, he, hx⟩ := hheld
    obtain ⟨hmem, howner⟩ := (mem_eraseNode.2 e).mp he
    exact ⟨e, hmem, ((mem_eraseNode.1 _).mp hx).1, howner⟩
  · intro hheld
    obtain ⟨e, he, hx, howner⟩ := hheld
    exact ⟨e, (mem_eraseNode.2 e).mpr ⟨he, howner⟩, (mem_eraseNode.1 _).mpr ⟨hx, howner⟩⟩

theorem holds_of_holds_eraseNode {traits : HashTraits NodeType} {r : Router NodeType}
    {node x : NodeType} (h : (r.eraseNode traits node).Holds x) : r.Holds x := by
  obtain ⟨it, hx⟩ := h
  exact ⟨it, ((mem_eraseNode.1 _).mp hx).1⟩

theorem onRing_of_onRing_eraseNode {traits : HashTraits NodeType} {r : Router NodeType}
    {node x : NodeType} (h : (r.eraseNode traits node).OnRing x) : r.OnRing x := by
  obtain ⟨e, he, hx, -⟩ := onRing_eraseNode.mp h
  exact ⟨e, he, hx⟩

theorem OwnsPrimary.eraseNode {traits : HashTraits NodeType} {r : Router NodeType}
    (hr : r.OwnsPrimary traits) (node : NodeType) :
    (r.eraseNode traits node).OwnsPrimary traits := by
  intro e he x hx
  obtain ⟨hmem, howner⟩ := (mem_eraseNode.2 e).mp he
  have hfind := hr e hmem x ((mem_eraseNode.1 _).mp hx).1
  rw [OrderedMap.find_eq_some] at hfind ⊢
  exact (mem_eraseNode.2 _).mpr ⟨hfind, howner⟩

/-- Where nodes own their primary positions, a removed node is off the ring. -/
theorem OwnsPrimary.not_onRing {traits : HashTraits NodeType} {r : Router NodeType}
    (hr : r.OwnsPrimary traits) (node : NodeType) :
    ¬ (r.eraseNode traits node).OnRing node := by
  intro h
  obtain ⟨e, he, hnode, howner⟩ := onRing_eraseNode.mp h
  exact howner (hr e he node hnode)

/-- A removal takes one node off the ring at most: the named one, or another in its place. -/
theorem onRing_or_onRing_eraseNode {traits : HashTraits NodeType} {r : Router NodeType}
    (hr : r.Inv) {node : NodeType} (hnode : r.OnRing node) :
    (r.eraseNode traits node).OnRing node ∨
      ∀ x, r.OnRing x → x ≠ node → (r.eraseNode traits node).OnRing x := by
  by_cases h : (r.eraseNode traits node).OnRing node
  · exact Or.inl h
  · right
    obtain ⟨e, he, hmem⟩ := hnode
    -- the entry of `node` went, so the owner of the hash is `node` itself
    have howner : r.ring.find (traits.getHash node) = some e.2 := by
      by_contra hne
      exact h (onRing_eraseNode.mpr ⟨e, he, hmem, hne⟩)
    intro x hheld hne
    obtain ⟨e', he', hx⟩ := hheld
    refine onRing_eraseNode.mpr ⟨e', he', hx, fun hfind => hne ?_⟩
    have heq : e.2 = e'.2 := Option.some.inj (howner.symm.trans hfind)
    exact hr.node_unique hx (heq ▸ hmem)

/-! ## Selection -/

theorem onRing_of_selectNode {traits : HashTraits NodeType} {r : Router NodeType} (hr : r.Inv)
    {client node : NodeType} (h : r.selectNode traits client = .returned node) :
    r.OnRing node := by
  unfold selectNode at h
  split at h
  · cases h
  · obtain ⟨e, he, hnode⟩ := Option.bind_eq_some_iff.mp (Outcome.access_eq_returned.mp h)
    exact ⟨e, OrderedMap.successor_mem he, (deref_eq_some hr).mp hnode⟩

/-- Only an empty router throws. -/
theorem isEmpty_of_selectNode_thrown {traits : HashTraits NodeType} {r : Router NodeType}
    {client : NodeType} {e : Exception} (h : r.selectNode traits client = .thrown e) :
    r.isEmpty = true := by
  unfold selectNode at h
  split at h
  · assumption
  · exact absurd h (Outcome.access_ne_thrown _ e)

theorem selectNode_returns {traits : HashTraits NodeType} {r : Router NodeType} (hr : r.Inv)
    {node : NodeType} (hnode : r.OnRing node) (client : NodeType) :
    ∃ x, r.selectNode traits client = .returned x := by
  obtain ⟨e, he, hmem⟩ := hnode
  obtain ⟨e', he'⟩ := OrderedMap.successor_isSome (List.ne_nil_of_mem he) (traits.getHash client)
  obtain ⟨x, hx⟩ := hr.live e' (OrderedMap.successor_mem he')
  have hne : r.isEmpty = false := by
    rw [isEmpty, List.isEmpty_eq_false_iff]
    exact List.ne_nil_of_mem hmem
  refine ⟨x, ?_⟩
  rw [selectNode, hne, he']
  exact congrArg Outcome.access ((deref_eq_some hr).mpr hx)

end Router

/-! ## The selector -/

variable [Platform]

namespace BackendCHTraits

def getHash (backend : Backend) : HashType := Platform.hash backend.toString

/-- The text that replica `i` of a backend is hashed under. -/
def label (backend : Backend) (i : Nat) : String := backend.toString ++ "#" ++ toString i

/-- Each label is converted back to a `Backend`, that is, parsed as a URL. -/
def replicate (backend : Backend) (replicas : Nat) : Except Exception (List HashType) :=
  -- `result.reserve(replicas)` throws above `max_size()`
  if replicas > 2 ^ 60 - 1 then .error .lengthError
  else do
    let result ← (List.range (min replicas (2 ^ 31))).mapM fun i => do
      return getHash (← Backend.ofUrlString (label backend i))
    -- the loop counts with an `int`
    if replicas < 2 ^ 31 then return result else throw .counterOverflow

def traits : HashTraits Backend := ⟨getHash, replicate⟩

end BackendCHTraits

structure ConsistentHashSelector where
  ring : Router Backend

namespace ConsistentHashSelector

open BackendCHTraits (traits)

def configure (spawnReplicas : Nat) (config : Node) : Except Exception ConsistentHashSelector := do
  let items ← Backend.endpointNodes "Consistent hash endpoints node is missed" config
  let ring ← items.foldlM (fun ring ep => do ring.emplaceNode traits (← Backend.ofNode ep))
    (Router.new spawnReplicas)
  return { ring := ring }

/-- The client's endpoint is converted to a `Backend` to be hashed. -/
def selectBackend (s : ConsistentHashSelector) (client : Endpoint) :
    Outcome Backend × ConsistentHashSelector :=
  (s.ring.selectNode traits (.endpoint client), s)

def excludeBackend (s : ConsistentHashSelector) (backend : Backend) :
    Outcome Unit × ConsistentHashSelector :=
  let ring := s.ring.eraseNode traits backend
  (throwIfEmpty ring.isEmpty, { ring := ring })

/-- `Configure` reads all endpoints and puts them on the ring in order. -/
theorem configure_eq_ok {replicas : Nat} {config : Node} {s : ConsistentHashSelector}
    (h : configure replicas config = .ok s) :
    ∃ bs, configuredBackends "Consistent hash endpoints node is missed" config = .ok bs ∧
      bs.foldlM (fun r b => r.emplaceNode traits b) (Router.new replicas) = .ok s.ring := by
  obtain ⟨items, hitems, h⟩ := Except.bind_eq_ok.mp h
  obtain ⟨ring, hring, h⟩ := Except.bind_eq_ok.mp h
  rw [Except.pure_eq_ok] at h
  subst h
  obtain ⟨bs, hbs, hring⟩ := Except.foldlM_bind_eq_ok hring
  exact ⟨bs, Except.bind_eq_ok.mpr ⟨items, hitems, hbs⟩, hring⟩

end ConsistentHashSelector

end LoadBalancer
