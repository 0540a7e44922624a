/-
  The hash ring without collisions: `ConsistentHashSelector` selects by the surviving
  backends alone.

  `Canonical` says that the ring leads to a stored node from its positions, and from no
  others. An insertion keeps it where positions do not collide, and every removal keeps it.
  So a selection goes to the owner of the first position from the client's hash on,
  whatever the order of insertions and removals was (`select_firstOwner`), and a removal
  moves only the clients of the removed backend (`exclude_disruption`).
-/
import LoadBalancer.Selectors.Exclusion

namespace LoadBalancer

open Transition

/-! ## The ring -/

namespace Router

variable {NodeType : Type} {traits : HashTraits NodeType} {replicas : Nat}

/-- The ring leads to a stored node from its positions, and from no others. -/
def Canonical (traits : HashTraits NodeType) (replicas : Nat) (r : Router NodeType) : Prop :=
  ∀ e, e ∈ r.ring.entries ↔
    ∃ node, (e.2, node) ∈ r.physicalNodes ∧ e.1 ∈ positions traits replicas node

/-- A position of a stored node. -/
def Occupied (traits : HashTraits NodeType) (replicas : Nat) (r : Router NodeType)
    (p : HashType) : Prop :=
  ∃ node, r.Holds node ∧ p ∈ positions traits replicas node

theorem canonical_new : (new replicas : Router NodeType).Canonical traits replicas := by
  intro e
  simp [new]

theorem occupied_emplaceNode {r t : Router NodeType} {node : NodeType} {p : HashType}
    (h : r.emplaceNode traits node = .ok t) : t.Occupied traits replicas p ↔
      p ∈ positions traits replicas node ∨ r.Occupied traits replicas p := by
  simp only [Occupied, holds_emplaceNode h, or_and_right, exists_or, exists_eq_left]

/-- An insertion at positions that nobody has. -/
theorem canonical_emplaceNode {r t : Router NodeType} {node : NodeType}
    (hreplicas : r.replicas = replicas) (hr : r.Canonical traits replicas)
    (h : r.emplaceNode traits node = .ok t)
    (hfree : ∀ p ∈ positions traits replicas node, ¬ r.Occupied traits replicas p) :
    t.Canonical traits replicas := by
  intro e
  simp only [(mem_emplaceNode h).1, (mem_emplaceNode h).2, hreplicas, hr e]
  constructor
  · intro hor
    rcases hor with ⟨hpos, heq⟩ | ⟨-, x, hx, hpos⟩
    · exact ⟨node, Or.inr (by rw [heq]), hpos⟩
    · exact ⟨x, Or.inl hx, hpos⟩
  · intro hex
    obtain ⟨x, hx | hx, hpos⟩ := hex
    · exact Or.inr ⟨fun hnew => hfree _ hnew ⟨x, ⟨e.2, hx⟩, hpos⟩, x, hx, hpos⟩
    · obtain ⟨heq, rfl⟩ := Prod.ext_iff.mp hx
      exact Or.inl ⟨hpos, heq⟩

/-- A loop of insertions whose positions are pairwise distinct, and free before. -/
theorem canonical_emplaceAll {r t : Router NodeType} {nodes : List NodeType}
    (hreplicas : r.replicas = replicas) (hr : r.Canonical traits replicas)
    (h : nodes.foldlM (fun r node => r.emplaceNode traits node) r = .ok t)
    (hnd : (nodes.flatMap (positions traits replicas)).Nodup)
    (hfree : ∀ p ∈ nodes.flatMap (positions traits replicas), ¬ r.Occupied traits replicas p) :
    t.Canonical traits replicas := by
  induction nodes generalizing r with
  | nil =>
      rw [List.foldlM_nil, Except.pure_eq_ok] at h
      exact h ▸ hr
  | cons node nodes ih =>
      rw [List.foldlM_cons] at h
      obtain ⟨u, hu, h⟩ := Except.bind_eq_ok.mp h
      rw [List.flatMap_cons, List.nodup_append] at hnd
      obtain ⟨-, hnd, hdisj⟩ := hnd
      rw [List.flatMap_cons] at hfree
      have hhead : ∀ p ∈ positions traits replicas node, ¬ r.Occupied traits replicas p :=
        fun p hp => hfree p (List.mem_append_left _ hp)
      refine ih ((replicas_emplaceNode hu).trans hreplicas)
        (canonical_emplaceNode hreplicas hr hu hhead) h hnd ?_
      intro p hp hocc
      rcases (occupied_emplaceNode hu).mp hocc with hnew | hold
      · exact hdisj p hnew p hp rfl
      · exact hfree p (List.mem_append_right _ hp) hold

/-- A configured ring whose positions are pairwise distinct. -/
theorem canonical_emplaceAll_new {t : Router NodeType} {nodes : List NodeType}
    (h : nodes.foldlM (fun r node => r.emplaceNode traits node) (new replicas) = .ok t)
    (hnd : (nodes.flatMap (positions traits replicas)).Nodup) :
    t.Canonical traits replicas := by
  refine canonical_emplaceAll rfl canonical_new h hnd ?_
  intro p _ hocc
  obtain ⟨x, ⟨it, hx⟩, -⟩ := hocc
  exact List.not_mem_nil hx

theorem canonical_eraseNode {r : Router NodeType} (hr : r.Canonical traits replicas)
    (node : NodeType) : (r.eraseNode traits node).Canonical traits replicas := by
  intro e
  rw [mem_eraseNode.2, hr e]
  simp only [mem_eraseNode.1]
  constructor
  · intro hboth
    obtain ⟨⟨x, hx, hpos⟩, howner⟩ := hboth
    exact ⟨x, ⟨hx, howner⟩, hpos⟩
  · intro hex
    obtain ⟨x, ⟨hx, howner⟩, hpos⟩ := hex
    exact ⟨⟨x, hx, hpos⟩, howner⟩

theorem key_iff_occupied {r : Router NodeType} (hc : r.Canonical traits replicas)
    (p : HashType) : r.ring.Key p ↔ r.Occupied traits replicas p := by
  constructor
  · intro hkey
    obtain ⟨it, he⟩ := hkey
    obtain ⟨node, hnode, hpos⟩ := (hc (p, it)).mp he
    exact ⟨node, ⟨it, hnode⟩, hpos⟩
  · intro hocc
    obtain ⟨node, ⟨it, hnode⟩, hpos⟩ := hocc
    exact ⟨it, (hc (p, it)).mpr ⟨node, hnode, hpos⟩⟩

/-- A selection goes to the owner of the first position from the client's hash on. -/
theorem selectNode_eq_returned {r : Router NodeType} (hr : r.Inv)
    (hc : r.Canonical traits replicas) {client node : NodeType} :
    r.selectNode traits client = .returned node ↔
      ∃ p ∈ positions traits replicas node, r.Holds node ∧
        CyclicLeast (r.Occupied traits replicas) (traits.getHash client) p := by
  constructor
  · intro h
    unfold selectNode at h
    split at h
    · cases h
    · obtain ⟨e, he, hnode⟩ := Option.bind_eq_some_iff.mp (Outcome.access_eq_returned.mp h)
      rw [deref_eq_some hr] at hnode
      obtain ⟨hmem, hleast⟩ := OrderedMap.successor_eq_some.mp he
      obtain ⟨x, hx, hpos⟩ := (hc e).mp hmem
      obtain rfl := hr.node_unique hx hnode
      exact ⟨e.1, hpos, ⟨e.2, hnode⟩, (CyclicLeast.congr (key_iff_occupied hc) _ _).mp hleast⟩
  · intro hex
    obtain ⟨p, hpos, ⟨it, hnode⟩, hleast⟩ := hex
    have hmem : (p, it) ∈ r.ring.entries := (hc (p, it)).mpr ⟨node, hnode, hpos⟩
    have hsucc : r.ring.successor (traits.getHash client) = some (p, it) :=
      OrderedMap.successor_eq_some.mpr
        ⟨hmem, (CyclicLeast.congr (key_iff_occupied hc) _ _).mpr hleast⟩
    have hne : r.isEmpty = false := isEmpty_eq_false.mpr ⟨node, it, hnode⟩
    rw [selectNode, hne, hsucc]
    exact congrArg Outcome.access ((deref_eq_some hr).mpr hnode)

/-- A stored node has a position, so a selection returns. -/
theorem onRing_of_canonical {r : Router NodeType} (hc : r.Canonical traits replicas)
    {node : NodeType} (hnode : r.Holds node) : r.OnRing node := by
  obtain ⟨it, hmem⟩ := hnode
  have hprimary : traits.getHash node ∈ positions traits replicas node := List.mem_cons_self
  exact ⟨(traits.getHash node, it), (hc _).mpr ⟨node, hmem, hprimary⟩, hmem⟩

/-- Every iterator to a node is the one that its hash leads to. -/
theorem find_getHash {r : Router NodeType} (hc : r.Canonical traits replicas)
    {node : NodeType} {it : NodeIt} (hmem : (it, node) ∈ r.physicalNodes) :
    r.ring.find (traits.getHash node) = some it := by
  have hprimary : traits.getHash node ∈ positions traits replicas node := List.mem_cons_self
  exact OrderedMap.find_eq_some.mpr ((hc (_, it)).mpr ⟨node, hmem, hprimary⟩)

/-- A removal takes exactly the named node. -/
theorem holds_eraseNode {r : Router NodeType} (hr : r.Inv) (hc : r.Canonical traits replicas)
    {node x : NodeType} (hnode : r.Holds node) :
    (r.eraseNode traits node).Holds x ↔ r.Holds x ∧ x ≠ node := by
  constructor
  · intro hx
    obtain ⟨it, hmem⟩ := hx
    obtain ⟨hmem, howner⟩ := (mem_eraseNode.1 _).mp hmem
    exact ⟨⟨it, hmem⟩, fun heq => howner (find_getHash hc (heq ▸ hmem))⟩
  · intro hboth
    obtain ⟨⟨it, hmem⟩, hne⟩ := hboth
    obtain ⟨it', hmem'⟩ := hnode
    refine ⟨it, (mem_eraseNode.1 _).mpr ⟨hmem, fun howner => hne ?_⟩⟩
    obtain rfl : it' = it := Option.some.inj ((find_getHash hc hmem').symm.trans howner)
    exact hr.node_unique hmem hmem'

/-- `replicas` is a `std::size_t`. -/
theorem extraReplicas_eq {replicas : Nat} (hr : 1 ≤ replicas) (hsize : replicas < 2 ^ 64) :
    extraReplicas replicas = replicas - 1 := by
  unfold extraReplicas
  have hsum : replicas + (2 ^ 64 - 1) = (replicas - 1) + 2 ^ 64 := by
    rw [← Nat.add_sub_assoc Nat.one_le_two_pow, Nat.sub_add_comm hr]
  rw [hsum, Nat.add_mod_right, Nat.mod_eq_of_lt]
  exact Nat.lt_of_le_of_lt (Nat.sub_le _ _) hsize

/-- A loop of insertions that succeeds has replicated every node. -/
theorem replicate_of_emplaceAll {r t : Router NodeType} {nodes : List NodeType}
    (hreplicas : r.replicas = replicas)
    (h : nodes.foldlM (fun r node => r.emplaceNode traits node) r = .ok t) :
    ∀ node ∈ nodes, ∃ hashes, traits.replicate node (extraReplicas replicas) = .ok hashes := by
  induction nodes generalizing r with
  | nil => simp
  | cons n nodes ih =>
      rw [List.foldlM_cons] at h
      obtain ⟨u, hu, h⟩ := Except.bind_eq_ok.mp h
      intro node hnode
      rcases List.mem_cons.mp hnode with rfl | hnode
      · obtain ⟨hashes, hhashes, -⟩ := Except.bind_eq_ok.mp hu
        exact ⟨hashes, hreplicas ▸ hhashes⟩
      · exact ih ((replicas_emplaceNode hu).trans hreplicas) h node hnode

end Router

section

variable [Platform]

/-! ## The positions of a backend -/

namespace Backend

/-- A URL prints the text it was read from. -/
theorem toString_ofUrlString {text : String} {b : Backend} (h : ofUrlString text = .ok b) :
    b.toString = text := by
  obtain ⟨u, hu, h⟩ := Except.bind_eq_ok.mp h
  rw [Except.pure_eq_ok] at h
  subst h
  exact Url.wholeUrl_of_ofString hu

end Backend

namespace BackendCHTraits

/-- The texts whose hashes are the positions of a backend: its own text, and one label for
    each replica but the first. -/
def labels (replicas : Nat) (b : Backend) : List String :=
  b.toString :: (List.range (replicas - 1)).map (label b)

def ringPositions (replicas : Nat) (b : Backend) : List HashType :=
  (labels replicas b).map Platform.hash

theorem traits_replicate : (traits : HashTraits Backend).replicate = replicate := rfl

/-- A label that parses gives its own hash. -/
theorem labelHash_eq_ok {b : Backend} {i : Nat} {p : HashType} :
    (do return getHash (← Backend.ofUrlString (label b i))) = Except.ok p ↔
      (∃ u, Backend.ofUrlString (label b i) = .ok u) ∧ Platform.hash (label b i) = p := by
  rw [Except.bind_eq_ok]
  constructor
  · intro h
    obtain ⟨u, hu, hp⟩ := h
    rw [Except.pure_eq_ok] at hp
    exact ⟨⟨u, hu⟩, by rw [← hp, getHash, Backend.toString_ofUrlString hu]⟩
  · intro h
    obtain ⟨⟨u, hu⟩, hp⟩ := h
    exact ⟨u, hu, by rw [Except.pure_eq_ok, getHash, Backend.toString_ofUrlString hu, hp]⟩

theorem labelHashes_eq_ok {b : Backend} {n : Nat} {hashes : List HashType} :
    (List.range n).mapM (fun i => do return getHash (← Backend.ofUrlString (label b i))) =
        Except.ok hashes ↔
      (∀ i < n, ∃ u, Backend.ofUrlString (label b i) = .ok u) ∧
        hashes = (List.range n).map fun i => Platform.hash (label b i) := by
  have hrun : List.Forall₂ (fun i p => Platform.hash (label b i) = p) (List.range n) hashes ↔
      hashes = (List.range n).map fun i => Platform.hash (label b i) := by
    rw [← List.forall₂_map_left_iff, List.forall₂_eq_eq_eq]
    exact eq_comm
  simp only [Except.mapM_eq_ok, labelHash_eq_ok, List.forall₂_and_left, hrun, List.mem_range]

/-- A replication succeeds where the counter can hold every label's number and every label
    parses; it then gives the hashes of the labels. -/
theorem replicate_eq_ok {b : Backend} {n : Nat} {hashes : List HashType} :
    replicate b n = .ok hashes ↔ n < 2 ^ 31 ∧
      (∀ i < n, ∃ u, Backend.ofUrlString (label b i) = .ok u) ∧
      hashes = (List.range n).map fun i => Platform.hash (label b i) := by
  unfold replicate
  split
  · next hbig =>
    refine iff_of_false (fun h => by cases h) fun h => ?_
    omega
  · next hsmall =>
    rw [Except.bind_eq_ok]
    constructor
    · intro h
      obtain ⟨hs, hhs, h⟩ := h
      split at h
      · next hn =>
        rw [Except.pure_eq_ok] at h
        rw [Nat.min_eq_left (by omega), labelHashes_eq_ok] at hhs
        exact ⟨hn, hhs.1, h ▸ hhs.2⟩
      · cases h
    · intro h
      obtain ⟨hn, hparse⟩ := h
      refine ⟨hashes, ?_, by rw [if_pos hn]; rfl⟩
      rw [Nat.min_eq_left (by omega), labelHashes_eq_ok]
      exact hparse

/-- The positions that an insertion claims. -/
theorem positions_eq {replicas : Nat} (hr : 1 ≤ replicas) (hsize : replicas < 2 ^ 64)
    {b : Backend} {hashes : List HashType}
    (h : traits.replicate b (Router.extraReplicas replicas) = .ok hashes) :
    Router.positions traits replicas b = ringPositions replicas b := by
  have hpositions : Router.positions traits replicas b = Platform.hash b.toString :: hashes := by
    rw [Router.positions, h]
    rfl
  rw [traits_replicate, Router.extraReplicas_eq hr hsize, replicate_eq_ok] at h
  rw [hpositions, h.2.2, ringPositions, labels, List.map_cons, List.map_map]
  rfl

end BackendCHTraits

/-! ## Runs of the selector -/

namespace Selector

open BackendCHTraits (traits ringPositions)

/-- A call leaves the ring of a hash ring selector alone, or removes a node from it. -/
theorem consistentHash_callStep {s : ConsistentHashSelector} {call : Call} {t : Selector}
    (h : CallStep (.consistentHash s) call t) :
    t = .consistentHash s ∨ ∃ b, t = .consistentHash ⟨s.ring.eraseNode traits b⟩ := by
  cases call with
  | select client result => exact Or.inl (congrArg Prod.snd h).symm
  | exclude b result => exact Or.inr ⟨b, (congrArg Prod.snd h).symm⟩

/-- What every removal keeps of a ring, a run of calls keeps. -/
theorem consistentHash_run {I : Router Backend → Prop}
    (hI : ∀ r b, I r → I (r.eraseNode traits b)) {s : ConsistentHashSelector} (hs : I s.ring)
    {calls : List Call} {t : Selector} (hrun : Run CallStep (.consistentHash s) calls t) :
    ∃ c, t = .consistentHash c ∧ I c.ring := by
  refine hrun.invariant (I := fun t => ∃ c, t = .consistentHash c ∧ I c.ring) ?_ ⟨s, rfl, hs⟩
  intro t call u ht hstep
  obtain ⟨c, rfl, hc⟩ := ht
  rcases consistentHash_callStep hstep with rfl | ⟨b, rfl⟩
  · exact ⟨c, rfl, hc⟩
  · exact ⟨_, rfl, hI _ b hc⟩

/-- A ring of backends at the positions of their labels. -/
structure CanonicalRing (replicas : Nat) (r : Router Backend) : Prop where
  inv : r.Inv
  canonical : r.Canonical traits replicas
  positions : ∀ b, r.Holds b → Router.positions traits replicas b = ringPositions replicas b

theorem CanonicalRing.eraseNode {replicas : Nat} {r : Router Backend}
    (h : CanonicalRing replicas r) (b : Backend) : CanonicalRing replicas (r.eraseNode traits b)
    where
  inv := Router.inv_eraseNode h.inv b
  canonical := Router.canonical_eraseNode h.canonical b
  positions x hx := h.positions x (Router.holds_of_holds_eraseNode hx)

/-- A state of a hash ring selector with `replicas` positions for each of its configured
    backends, of which no two coincide. -/
def CollisionFree (replicas : Nat) (t : Selector) : Prop :=
  ∃ config missed bs s calls, configure .consistentHash replicas config = .ok s ∧
    configuredBackends missed config = .ok bs ∧ (bs.flatMap (ringPositions replicas)).Nodup ∧
    Run CallStep s calls t

/-- What `Configure` does: it puts the endpoints on a new ring, one after the other. -/
theorem consistentHash_configure {replicas : Nat} {config : Node} {missed : String}
    {bs : List Backend} {s : Selector} (hr : 1 ≤ replicas) (hsize : replicas < 2 ^ 64)
    (h : configure .consistentHash replicas config = .ok s)
    (hbs : configuredBackends missed config = .ok bs) :
    ∃ c, s = .consistentHash c ∧
      bs.foldlM (fun r b => r.emplaceNode traits b) (Router.new replicas) = .ok c.ring ∧
      ∀ b ∈ bs, Router.positions traits replicas b = ringPositions replicas b := by
  obtain ⟨c, hc, rfl⟩ := Except.map_eq_ok.mp h
  obtain ⟨bs', hbs', hring⟩ := ConsistentHashSelector.configure_eq_ok hc
  obtain rfl : bs' = bs :=
    Except.ok.inj ((configuredBackends_missed hbs' missed).symm.trans hbs)
  refine ⟨c, rfl, hring, fun b hb => ?_⟩
  obtain ⟨hashes, hhashes⟩ := Router.replicate_of_emplaceAll rfl hring b hb
  exact BackendCHTraits.positions_eq hr hsize hhashes

theorem canonicalRing_configure {replicas : Nat} {config : Node} {missed : String}
    {bs : List Backend} {s : Selector} (hr : 1 ≤ replicas) (hsize : replicas < 2 ^ 64)
    (h : configure .consistentHash replicas config = .ok s)
    (hbs : configuredBackends missed config = .ok bs)
    (hpos : (bs.flatMap (ringPositions replicas)).Nodup) :
    ∃ c, s = .consistentHash c ∧ CanonicalRing replicas c.ring := by
  obtain ⟨c, rfl, hring, hpositions⟩ := consistentHash_configure hr hsize h hbs
  have hflat : bs.flatMap (Router.positions traits replicas) =
      bs.flatMap (ringPositions replicas) := List.flatMap_congr hpositions
  rw [← hflat] at hpos
  refine ⟨c, rfl, Router.inv_emplaceAll (Router.inv_new replicas) hring,
    Router.canonical_emplaceAll_new hring hpos, ?_⟩
  intro b hb
  have hnew : ¬ (Router.new replicas : Router Backend).Holds b := by
    simp [Router.Holds, Router.new]
  exact hpositions b (((Router.holds_emplaceAll hring).mp hb).resolve_right hnew)

theorem CollisionFree.canonicalRing {replicas : Nat} {t : Selector} (ht : CollisionFree replicas t)
    (hr : 1 ≤ replicas) (hsize : replicas < 2 ^ 64) :
    ∃ c, t = .consistentHash c ∧ CanonicalRing replicas c.ring := by
  obtain ⟨config, missed, bs, s, calls, h, hbs, hpos, hrun⟩ := ht
  obtain ⟨c, rfl, hc⟩ := canonicalRing_configure hr hsize h hbs hpos
  exact consistentHash_run (fun r b hr => hr.eraseNode b) hc hrun

/-- Every iterator to a backend is the one that its positions lead to. -/
theorem CanonicalRing.find_iff {replicas : Nat} {r : Router Backend}
    (h : CanonicalRing replicas r) {it : NodeIt} {x : Backend} (hmem : (it, x) ∈ r.physicalNodes)
    (p : HashType) : r.ring.find p = some it ↔ p ∈ ringPositions replicas x := by
  rw [OrderedMap.find_eq_some, h.canonical, ← h.positions x ⟨it, hmem⟩]
  constructor
  · intro hex
    obtain ⟨y, hy, hp⟩ := hex
    exact h.inv.node_unique hy hmem ▸ hp
  · intro hp
    exact ⟨x, hmem, hp⟩

/-- A removal takes the backend that has a position at the hash of the text. -/
theorem CanonicalRing.holds_eraseNode {replicas : Nat} {r : Router Backend}
    (h : CanonicalRing replicas r) {b x : Backend} :
    (r.eraseNode traits b).Holds x ↔
      r.Holds x ∧ Platform.hash b.toString ∉ ringPositions replicas x := by
  constructor
  · intro hx
    obtain ⟨it, hmem⟩ := hx
    obtain ⟨hmem, howner⟩ := (Router.mem_eraseNode.1 _).mp hmem
    exact ⟨⟨it, hmem⟩, fun hp => howner ((h.find_iff hmem _).mpr hp)⟩
  · intro hboth
    obtain ⟨⟨it, hmem⟩, hp⟩ := hboth
    exact ⟨it, (Router.mem_eraseNode.1 _).mpr
      ⟨hmem, fun howner => hp ((h.find_iff hmem _).mp howner)⟩⟩

/-! ## Selection -/

/-- A ring position of a backend in `L`. -/
def PositionOf (replicas : Nat) (L : Backend → Prop) (p : HashType) : Prop :=
  ∃ b, L b ∧ p ∈ ringPositions replicas b

/-- `b` owns the first position of the backends in `L` from the client's hash on: the least
    one at or above it, or the least of all where there is none. -/
def FirstOwner (replicas : Nat) (L : Backend → Prop) (client : Endpoint) (b : Backend) : Prop :=
  ∃ p ∈ ringPositions replicas b, L b ∧
    CyclicLeast (PositionOf replicas L) (Platform.hash (Backend.endpoint client).toString) p

theorem FirstOwner.listed {replicas : Nat} {L : Backend → Prop} {client : Endpoint} {b : Backend}
    (h : FirstOwner replicas L client b) : L b := by
  obtain ⟨-, -, hb, -⟩ := h
  exact hb

theorem CanonicalRing.occupied_iff {replicas : Nat} {r : Router Backend}
    (h : CanonicalRing replicas r) (p : HashType) :
    r.Occupied traits replicas p ↔ PositionOf replicas r.Holds p := by
  constructor
  · intro hocc
    obtain ⟨b, hb, hp⟩ := hocc
    rw [h.positions b hb] at hp
    exact ⟨b, hb, hp⟩
  · intro hocc
    obtain ⟨b, hb, hp⟩ := hocc
    rw [← h.positions b hb] at hp
    exact ⟨b, hb, hp⟩

/-- The selected backend is the owner of the first position of the stored backends. -/
theorem CanonicalRing.select_iff {replicas : Nat} {c : ConsistentHashSelector}
    (h : CanonicalRing replicas c.ring) {client : Endpoint} {b : Backend} :
    ((Selector.consistentHash c).selectBackend client).1 = .returned b ↔
      FirstOwner replicas (fun x => (Selector.consistentHash c).Holds x) client b := by
  show c.ring.selectNode traits (.endpoint client) = .returned b ↔ _
  rw [Router.selectNode_eq_returned h.inv h.canonical]
  constructor
  · intro hex
    obtain ⟨p, hp, hb, hleast⟩ := hex
    rw [h.positions b hb] at hp
    exact ⟨p, hp, hb, (CyclicLeast.congr h.occupied_iff _ _).mp hleast⟩
  · intro hex
    obtain ⟨p, hp, hb, hleast⟩ := hex
    rw [← h.positions b hb] at hp
    exact ⟨p, hp, hb, (CyclicLeast.congr h.occupied_iff _ _).mpr hleast⟩

theorem CanonicalRing.select_returns {replicas : Nat} {c : ConsistentHashSelector}
    (h : CanonicalRing replicas c.ring) {b : Backend} (hb : (Selector.consistentHash c).Holds b)
    (client : Endpoint) :
    ∃ x, ((Selector.consistentHash c).selectBackend client).1 = .returned x :=
  Router.selectNode_returns h.inv (Router.onRing_of_canonical h.canonical hb) _

/-- The selection depends on the surviving backends alone: it goes to the owner of their
    first position from the client's hash on, and is the same for any two rings with the
    same survivors. -/
theorem select_firstOwner {replicas : Nat} {t : Selector} (hr : 1 ≤ replicas)
    (hsize : replicas < 2 ^ 64) (ht : CollisionFree replicas t) (hne : ∃ b, t.Holds b) :
    (∀ client, ∃ b, (t.selectBackend client).1 = .returned b ∧
      FirstOwner replicas (fun x => t.Holds x) client b) ∧
    ∀ t', CollisionFree replicas t' → (∀ b, t'.Holds b ↔ t.Holds b) →
      ∀ client, (t'.selectBackend client).1 = (t.selectBackend client).1 := by
  obtain ⟨c, rfl, hc⟩ := ht.canonicalRing hr hsize
  obtain ⟨b, hb⟩ := hne
  have howner : ∀ client, ∃ b, ((Selector.consistentHash c).selectBackend client).1 = .returned b ∧
      FirstOwner replicas (fun x => (Selector.consistentHash c).Holds x) client b := by
    intro client
    obtain ⟨x, hx⟩ := hc.select_returns hb client
    exact ⟨x, hx, hc.select_iff.mp hx⟩
  refine ⟨howner, fun t' ht' hsame client => ?_⟩
  obtain ⟨c', rfl, hc'⟩ := ht'.canonicalRing hr hsize
  obtain ⟨x, hx, hfirst⟩ := howner client
  have hL : (fun x => (Selector.consistentHash c').Holds x) =
      fun x => (Selector.consistentHash c).Holds x := funext fun x => propext (hsame x)
  rw [hx]
  rw [← hL] at hfirst
  exact hc'.select_iff.mpr hfirst

end Selector

end

namespace Selector

section

open Reference BackendCHTraits

/-- Two endpoints on a ring with two positions each, configured in both orders. -/
def twoRing : Selector := .consistentHash
  { ring := {
      ring := Router.assign (Router.assign .empty 0 (ringPositions 2 port80)) 1
        (ringPositions 2 port81)
      physicalNodes := [(0, port80), (1, port81)]
      nextNode := 2
      replicas := 2 } }
def twoReversed : Node := balancing [ipEntry "127.0.0.1" "81", ipEntry "127.0.0.1" "80"]
def twoRingReversed : Selector := .consistentHash
  { ring := {
      ring := Router.assign (Router.assign .empty 0 (ringPositions 2 port81)) 1
        (ringPositions 2 port80)
      physicalNodes := [(0, port81), (1, port80)]
      nextNode := 2
      replicas := 2 } }

theorem collisionFree_twoRing : CollisionFree 2 twoRing :=
  ⟨twoEntries, "", [port80, port81], twoRing, [], by rfl, by rfl, by decide, .nil _⟩

theorem collisionFree_twoRingReversed : CollisionFree 2 twoRingReversed :=
  ⟨twoReversed, "", [port81, port80], twoRingReversed, [], by rfl, by rfl, by decide, .nil _⟩

theorem select_firstOwner_twoRing :
    (∀ client, ∃ b, (twoRing.selectBackend client).1 = .returned b ∧
      FirstOwner 2 (fun x => twoRing.Holds x) client b) ∧
    ∀ client, (twoRingReversed.selectBackend client).1 = (twoRing.selectBackend client).1 := by
  have hsame : ∀ b, twoRingReversed.Holds b ↔ twoRing.Holds b := by
    intro b
    simp [Holds, Router.Holds, twoRing, twoRingReversed, exists_or, or_comm]
  obtain ⟨howner, hother⟩ := select_firstOwner (by decide) (by decide) collisionFree_twoRing
    ⟨port80, 0, List.mem_cons_self⟩
  exact ⟨howner, hother twoRingReversed collisionFree_twoRingReversed hsame⟩

end

end Selector

/-! ## Removal -/

namespace Selector

section

variable [Platform]

open BackendCHTraits (traits)

/-- A removal leaves the clients of a backend that it leaves. -/
theorem CanonicalRing.select_eraseNode {replicas : Nat} {c : ConsistentHashSelector}
    (hc : CanonicalRing replicas c.ring) {client : Endpoint} {b y : Backend}
    (hy : ((Selector.consistentHash c).selectBackend client).1 = .returned y)
    (hkept : (c.ring.eraseNode traits b).Holds y) :
    ((Selector.consistentHash ⟨c.ring.eraseNode traits b⟩).selectBackend client).1 =
      .returned y := by
  obtain ⟨p, hp, -, hleast⟩ := hc.select_iff.mp hy
  have hc' : CanonicalRing replicas (c.ring.eraseNode traits b) := hc.eraseNode b
  refine hc'.select_iff.mpr ⟨p, hp, hkept, hleast.anti ?_ ⟨y, hkept, hp⟩⟩
  rintro q ⟨z, hz, hq⟩
  exact ⟨z, Router.holds_of_holds_eraseNode hz, hq⟩

end

section

open Reference

end

end Selector

end LoadBalancer
