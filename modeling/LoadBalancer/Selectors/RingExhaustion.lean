/-
  The list of nodes and the ring: when a selection can miss.

  The router tests its list for emptiness and selects from the ring. A ring entry never
  dangles, but a node can be in the list without a position: a node configured later took
  them all. `Placed` says that no stored node is without one. A removal takes a node together
  with its positions and so keeps it; and where it fails, removing the owner of a position as
  long as there is one ends with an empty ring and a list that is not
  (`exists_run_exhausted`).
-/
import LoadBalancer.Selectors.RingLabels

namespace LoadBalancer

open Transition

namespace Router

variable {NodeType : Type} {traits : HashTraits NodeType} {replicas : Nat}

/-- The node numbered `it` has a position outside `later`. -/
def PlacedOutside (r : Router NodeType) (later : List HashType) (it : NodeIt) : Prop :=
  ∃ p, (p, it) ∈ r.ring.entries ∧ p ∉ later

/-- Every stored node has a position. -/
def Placed (r : Router NodeType) : Prop :=
  ∀ n ∈ r.physicalNodes, r.PlacedOutside [] n.1

/-- Every stored node keeps a position after insertions at the positions `later`. -/
def PlacedBefore (r : Router NodeType) (later : List HashType) : Prop :=
  ∀ n ∈ r.physicalNodes, r.PlacedOutside later n.1

/-- Every node has a position that no later node takes. -/
def KeepsPosition (traits : HashTraits NodeType) (replicas : Nat) : List NodeType → Prop
  | [] => True
  | node :: nodes =>
    (∃ p ∈ positions traits replicas node, p ∉ nodes.flatMap (positions traits replicas)) ∧
    KeepsPosition traits replicas nodes

theorem placedBefore_emplaceNode {r t : Router NodeType} {node : NodeType} (hr : r.Inv)
    (hreplicas : r.replicas = replicas) (h : r.emplaceNode traits node = .ok t)
    (later : List HashType) :
    t.PlacedBefore later ↔
      r.PlacedBefore (positions traits replicas node ++ later) ∧
        ∃ p ∈ positions traits replicas node, p ∉ later := by
  subst hreplicas
  unfold PlacedBefore PlacedOutside
  rw [forall_nodes_emplaceNode h]
  refine and_congr ?_ ?_
  · refine forall₂_congr fun n hn => exists_congr fun p => ?_
    rw [entry_emplaceNode_of_old hr h hn, List.mem_append]
    tauto
  · simp only [entry_emplaceNode_of_new hr h]

theorem placed_emplaceAll {r t : Router NodeType} {nodes : List NodeType} (hr : r.Inv)
    (hreplicas : r.replicas = replicas)
    (h : nodes.foldlM (fun r node => r.emplaceNode traits node) r = .ok t) :
    t.Placed ↔ r.PlacedBefore (nodes.flatMap (positions traits replicas)) ∧
      KeepsPosition traits replicas nodes :=
  before_emplaceAll (B := PlacedBefore) trivial (fun _ _ => Iff.rfl) placedBefore_emplaceNode hr
    hreplicas h

theorem placed_emplaceAll_new {t : Router NodeType} {nodes : List NodeType}
    (h : nodes.foldlM (fun r node => r.emplaceNode traits node) (new replicas) = .ok t) :
    t.Placed ↔ KeepsPosition traits replicas nodes := by
  rw [placed_emplaceAll (inv_new replicas) rfl h]
  exact and_iff_right fun n hn => absurd hn List.not_mem_nil

/-- A removal takes a node together with its positions. -/
theorem placedOutside_eraseNode {r : Router NodeType} {node : NodeType} {n : NodeIt × NodeType}
    (hn : n ∈ (r.eraseNode traits node).physicalNodes) (h : r.PlacedOutside [] n.1) :
    (r.eraseNode traits node).PlacedOutside [] n.1 := by
  obtain ⟨p, hmem, hlater⟩ := h
  exact ⟨p, (mem_eraseNode.2 _).mpr ⟨hmem, ((mem_eraseNode.1 n).mp hn).2⟩, hlater⟩

theorem Placed.eraseNode {r : Router NodeType} (hr : r.Placed) (node : NodeType) :
    (r.eraseNode traits node).Placed := by
  intro n hn
  exact placedOutside_eraseNode hn (hr n ((mem_eraseNode.1 n).mp hn).1)

/-- Where every stored node has a position, an empty ring means an empty list. -/
theorem Placed.isEmpty {r : Router NodeType} (hr : r.Placed) (hring : r.ring.entries = []) :
    r.isEmpty = true := by
  unfold Router.isEmpty
  rw [List.isEmpty_iff, List.eq_nil_iff_forall_not_mem]
  intro n hn
  obtain ⟨p, hmem, -⟩ := hr n hn
  rw [hring] at hmem
  exact List.not_mem_nil hmem

/-- The positions are hashes of nodes. -/
def Hashed (traits : HashTraits NodeType) (r : Router NodeType) : Prop :=
  ∀ e ∈ r.ring.entries, ∃ node, traits.getHash node = e.1

theorem hashed_emplaceAll {r t : Router NodeType} {nodes : List NodeType}
    (hreplicas : r.replicas = replicas) (hr : r.Hashed traits)
    (hnodes : ∀ node ∈ nodes, ∀ p ∈ positions traits replicas node, ∃ x, traits.getHash x = p)
    (h : nodes.foldlM (fun r node => r.emplaceNode traits node) r = .ok t) :
    t.Hashed traits := by
  induction nodes generalizing r with
  | nil =>
      rw [List.foldlM_nil, Except.pure_eq_ok] at h
      exact h ▸ hr
  | cons node nodes ih =>
      rw [List.foldlM_cons] at h
      obtain ⟨u, hu, h⟩ := Except.bind_eq_ok.mp h
      refine ih ((replicas_emplaceNode hu).trans hreplicas) (fun e he => ?_)
        (fun x hx => hnodes x (List.mem_cons_of_mem _ hx)) h
      rw [(mem_emplaceNode hu).2, hreplicas] at he
      rcases he with ⟨hpos, -⟩ | ⟨-, he⟩
      · exact hnodes node List.mem_cons_self _ hpos
      · exact hr e he

theorem Hashed.eraseNode {r : Router NodeType} (hr : r.Hashed traits) (node : NodeType) :
    (r.eraseNode traits node).Hashed traits := by
  intro e he
  exact hr e ((mem_eraseNode.2 e).mp he).1

/-- The removal of the owner of a position shortens the ring. -/
theorem length_eraseNode_lt {r : Router NodeType} {node : NodeType} {e : HashType × NodeIt}
    (he : e ∈ r.ring.entries) (hnode : traits.getHash node = e.1) :
    (r.eraseNode traits node).ring.entries.length < r.ring.entries.length := by
  have hfind : r.ring.find (traits.getHash node) = some e.2 := by
    rw [hnode]
    exact OrderedMap.find_eq_some.mpr he
  unfold eraseNode
  rw [hfind]
  exact List.length_filter_lt_length_iff_exists.mpr ⟨e, he, by simp⟩

/-- A removal leaves a node without positions where it is. -/
theorem unplaced_eraseNode {r : Router NodeType} {node : NodeType} {n : NodeIt × NodeType}
    (hn : n ∈ r.physicalNodes) (hplaced : ¬ r.PlacedOutside [] n.1) :
    n ∈ (r.eraseNode traits node).physicalNodes ∧
      ¬ (r.eraseNode traits node).PlacedOutside [] n.1 := by
  refine ⟨(mem_eraseNode.1 n).mpr ⟨hn, fun hfind => hplaced ?_⟩, fun h => hplaced ?_⟩
  · exact ⟨_, OrderedMap.find_eq_some.mp hfind, List.not_mem_nil⟩
  · obtain ⟨p, hmem, hlater⟩ := h
    exact ⟨p, ((mem_eraseNode.2 _).mp hmem).1, hlater⟩

end Router

namespace Selector

section

variable [Platform]

open BackendCHTraits (traits labels ringPositions)

/-- A ring that a selection cannot miss: it has a position if the list has a node, every
    position leads to a stored node, selections have a defined outcome, and an exclusion that
    leaves no position throws. -/
structure RingSound (s : ConsistentHashSelector) : Prop where
  position : s.ring.isEmpty = false → s.ring.ring.entries ≠ []
  leads : ∀ e ∈ s.ring.ring.entries, ∃ node, (e.2, node) ∈ s.ring.physicalNodes
  selects : ∀ client, (s.selectBackend client).1 ≠ .undefined
  reports : ∀ b, (s.excludeBackend b).2.ring.ring.entries = [] →
    (s.excludeBackend b).1 = .thrown allBackendsExcluded

theorem ringSound_of_placed {s : ConsistentHashSelector} (hs : s.ring.Inv)
    (hplaced : s.ring.Placed) : RingSound s where
  position hne hring := by
    rw [hplaced.isEmpty hring] at hne
    cases hne
  leads := hs.live
  selects client := by
    cases hempty : s.ring.isEmpty with
    | true =>
        show s.ring.selectNode traits (.endpoint client) ≠ .undefined
        unfold Router.selectNode
        rw [hempty, if_pos rfl]
        simp
    | false =>
        obtain ⟨node, it, hmem⟩ := Router.isEmpty_eq_false.mp hempty
        obtain ⟨p, he, -⟩ := hplaced _ hmem
        obtain ⟨x, hx⟩ := Router.selectNode_returns hs ⟨_, he, hmem⟩ (.endpoint client)
        intro hundefined
        change s.ring.selectNode traits (.endpoint client) = .undefined at hundefined
        rw [hx] at hundefined
        cases hundefined
  reports b hring := by
    exact throwIfEmpty_eq_thrown.mpr ⟨(hplaced.eraseNode b).isEmpty hring, rfl⟩

/-- Where a stored node has no position, a run of exclusions empties the ring and leaves the
    node in the list. -/
theorem exists_run_exhausted {c : ConsistentHashSelector} (hhashed : c.ring.Hashed traits)
    {n : NodeIt × Backend} (hn : n ∈ c.ring.physicalNodes)
    (hplaced : ¬ c.ring.PlacedOutside [] n.1) :
    ∃ calls c', Run CallStep (.consistentHash c) calls (.consistentHash c') ∧
      c'.ring.ring.entries = [] ∧ n ∈ c'.ring.physicalNodes := by
  induction hlen : c.ring.ring.entries.length using Nat.strong_induction_on generalizing c with
  | _ len ih =>
      cases hring : c.ring.ring.entries with
      | nil => exact ⟨[], c, .nil _, hring, hn⟩
      | cons e es =>
          have he : e ∈ c.ring.ring.entries := hring ▸ List.mem_cons_self
          obtain ⟨x, hx⟩ := hhashed e he
          have hunplaced := @Router.unplaced_eraseNode _ traits c.ring x n hn hplaced
          have hshorter := Router.length_eraseNode_lt he hx
          obtain ⟨calls, c', hrun, hend⟩ := ih _ (hlen ▸ hshorter)
            (c := (c.excludeBackend x).2) (hhashed.eraseNode x) hunplaced.1 hunplaced.2 rfl
          have hstep : CallStep (.consistentHash c) (.exclude x (c.excludeBackend x).1)
              (.consistentHash (c.excludeBackend x).2) := rfl
          exact ⟨_, c', .cons hstep hrun, hend⟩

/-- Every backend has a label that no backend configured after it has. -/
def KeepsLabel (replicas : Nat) : List Backend → Prop
  | [] => True
  | b :: bs => (∃ text ∈ labels replicas b, text ∉ bs.flatMap (labels replicas)) ∧
      KeepsLabel replicas bs

theorem keepsLabel_of_pairwise {replicas : Nat} {bs : List Backend}
    (h : bs.Pairwise fun a b => a.toString ∉ labels replicas b) : KeepsLabel replicas bs := by
  induction h with
  | nil => trivial
  | cons hhead _ ih =>
      refine ⟨⟨_, List.mem_cons_self, fun hmem => ?_⟩, ih⟩
      obtain ⟨b, hb, htext⟩ := List.mem_flatMap.mp hmem
      exact hhead b hb htext

/-- A backend listed again later keeps no label. -/
theorem not_keepsLabel_of_repeated {replicas : Nat} {b : Backend} {bs : List Backend}
    (hb : b ∈ bs) : ¬ KeepsLabel replicas (b :: bs) := by
  intro h
  obtain ⟨text, htext, hnot⟩ := h.1
  exact hnot (List.mem_flatMap.mpr ⟨b, hb, htext⟩)

theorem flatMap_positions {replicas : Nat} {bs : List Backend}
    (hpositions : ∀ b ∈ bs, Router.positions traits replicas b = ringPositions replicas b) :
    bs.flatMap (Router.positions traits replicas) =
      (bs.flatMap (labels replicas)).map Platform.hash := by
  rw [List.map_flatMap]
  exact List.flatMap_congr hpositions

theorem keepsPosition_iff {replicas : Nat} {bs : List Backend}
    (hpositions : ∀ b ∈ bs, Router.positions traits replicas b = ringPositions replicas b)
    (hinj : ∀ x ∈ bs.flatMap (labels replicas), ∀ y ∈ bs.flatMap (labels replicas),
      Platform.hash x = Platform.hash y → x = y) :
    Router.KeepsPosition traits replicas bs ↔ KeepsLabel replicas bs := by
  induction bs with
  | nil => exact Iff.rfl
  | cons b bs ih =>
      have hmem : ∀ text ∈ labels replicas b,
          (Platform.hash text ∈ (bs.flatMap (labels replicas)).map Platform.hash ↔
            text ∈ bs.flatMap (labels replicas)) := by
        intro text htext
        refine ⟨fun h => ?_, List.mem_map_of_mem⟩
        obtain ⟨other, hother, heq⟩ := List.mem_map.mp h
        rw [List.flatMap_cons] at hinj
        exact hinj other (List.mem_append_right _ hother) text (List.mem_append_left _ htext) heq
          ▸ hother
      unfold Router.KeepsPosition KeepsLabel
      rw [ih (fun x hx => hpositions x (List.mem_cons_of_mem _ hx)) (fun x hx y hy =>
          hinj x (List.mem_append_right _ hx) y (List.mem_append_right _ hy)),
        flatMap_positions fun x hx => hpositions x (List.mem_cons_of_mem _ hx),
        hpositions b List.mem_cons_self]
      refine and_congr_left' ⟨fun h => ?_, fun h => ?_⟩
      · obtain ⟨p, hp, hnot⟩ := h
        obtain ⟨text, htext, rfl⟩ := List.mem_map.mp hp
        exact ⟨text, htext, mt (hmem text htext).mpr hnot⟩
      · obtain ⟨text, htext, hnot⟩ := h
        exact ⟨_, List.mem_map_of_mem htext, mt (hmem text htext).mp hnot⟩

/-- A ring position is the hash of the backend's text or of a label, which parses. -/
theorem exists_getHash_ringPosition {replicas : Nat} {b : Backend} {hashes : List HashType}
    (hr : 1 ≤ replicas) (hsize : replicas < 2 ^ 64)
    (h : traits.replicate b (Router.extraReplicas replicas) = .ok hashes) :
    ∀ p ∈ ringPositions replicas b, ∃ x, traits.getHash x = p := by
  rw [BackendCHTraits.traits_replicate, Router.extraReplicas_eq hr hsize,
    BackendCHTraits.replicate_eq_ok] at h
  intro p hp
  obtain ⟨text, htext, rfl⟩ := List.mem_map.mp hp
  rcases List.mem_cons.mp htext with rfl | htext
  · exact ⟨b, rfl⟩
  · obtain ⟨i, hi, rfl⟩ := List.mem_map.mp htext
    obtain ⟨u, hu⟩ := h.2.1 i (List.mem_range.mp hi)
    exact ⟨u, congrArg Platform.hash (Backend.toString_ofUrlString hu)⟩

/-- Where hashes of labels collide for equal labels only, the ring is sound in every reachable
    state exactly if every endpoint has a label that no endpoint configured after it has. -/
theorem ringSound_iff {replicas : Nat} {config : Node} {missed : String} {bs : List Backend}
    {s : Selector} (hr : 1 ≤ replicas) (hsize : replicas < 2 ^ 64)
    (h : configure .consistentHash replicas config = .ok s)
    (hbs : configuredBackends missed config = .ok bs)
    (hinj : ∀ x ∈ bs.flatMap (labels replicas), ∀ y ∈ bs.flatMap (labels replicas),
      Platform.hash x = Platform.hash y → x = y) :
    (∀ calls c, Run CallStep s calls (.consistentHash c) → RingSound c) ↔
      KeepsLabel replicas bs := by
  obtain ⟨c₀, rfl, hring, hpositions⟩ := consistentHash_configure hr hsize h hbs
  have hinv : c₀.ring.Inv := Router.inv_emplaceAll (Router.inv_new replicas) hring
  rw [← keepsPosition_iff hpositions hinj, ← Router.placed_emplaceAll_new hring]
  constructor
  · intro hall n hn
    by_contra hplaced
    have hhashed : c₀.ring.Hashed traits := by
      refine Router.hashed_emplaceAll rfl (fun e he => absurd he List.not_mem_nil) ?_ hring
      intro b hb p hp
      obtain ⟨hashes, hhashes⟩ := Router.replicate_of_emplaceAll rfl hring b hb
      exact exists_getHash_ringPosition hr hsize hhashes p (hpositions b hb ▸ hp)
    obtain ⟨calls, c, hrun, hempty, hmem⟩ := exists_run_exhausted hhashed hn hplaced
    have hlist : c.ring.isEmpty = false :=
      Router.isEmpty_eq_false.mpr ⟨n.2, n.1, hmem⟩
    exact (hall calls c hrun).position hlist hempty
  · intro hplaced calls c hrun
    obtain ⟨c', hc', hinv', hplaced'⟩ := consistentHash_run
      (I := fun r => r.Inv ∧ r.Placed)
      (fun r b hI => ⟨Router.inv_eraseNode hI.1 b, hI.2.eraseNode b⟩) ⟨hinv, hplaced⟩ hrun
    obtain rfl : c = c' := Selector.consistentHash.inj hc'
    exact ringSound_of_placed hinv' hplaced'

end

section

open Reference BackendCHTraits

theorem ringSound_twoRing :
    configure .consistentHash 2 twoEntries = .ok twoRing ∧
      ∀ calls c, Run CallStep twoRing calls (.consistentHash c) → RingSound c := by
  have h : configure .consistentHash 2 twoEntries = .ok twoRing := by rfl
  have hbs : configuredBackends "" twoEntries = .ok [port80, port81] := by rfl
  have hlabels : [port80, port81].Pairwise fun a b => a.toString ∉ labels 2 b := by decide
  exact ⟨h, (ringSound_iff (by decide) (by decide) h hbs (by decide)).mpr
    (keepsLabel_of_pairwise hlabels)⟩

/-- A ring over one endpoint listed twice, with two positions. -/
def repeatedRing : ConsistentHashSelector :=
  { ring := {
      ring := Router.assign (Router.assign .empty 0 (ringPositions 2 port80)) 1
        (ringPositions 2 port80)
      physicalNodes := [(0, port80), (1, port80)]
      nextNode := 2
      replicas := 2 } }

/-- The exclusion of the endpoint returns normally and leaves an empty ring, and the next
    selection is undefined. -/
theorem not_ringSound_repeated :
    configure .consistentHash 2 repeatedEntry = .ok (.consistentHash repeatedRing) ∧
      configuredBackends "" repeatedEntry = .ok [port80, port80] ∧
      (∀ x ∈ [port80, port80].flatMap (labels 2), ∀ y ∈ [port80, port80].flatMap (labels 2),
        Platform.hash x = Platform.hash y → x = y) ∧
      CallStep (.consistentHash repeatedRing) (.exclude port80 (.returned ()))
        (.consistentHash (repeatedRing.excludeBackend port80).2) ∧
      (repeatedRing.excludeBackend port80).2.ring.isEmpty = false ∧
      (repeatedRing.excludeBackend port80).2.ring.ring.entries = [] ∧
      ((repeatedRing.excludeBackend port80).2.selectBackend somebody).1 = .undefined ∧
      ¬ RingSound (repeatedRing.excludeBackend port80).2 := by
  have hlist : (repeatedRing.excludeBackend port80).2.ring.isEmpty = false := by rfl
  have hring : (repeatedRing.excludeBackend port80).2.ring.ring.entries = [] := by rfl
  exact ⟨by rfl, by rfl, by decide, by rfl, hlist, hring, by rfl, fun h => h.position hlist hring⟩

end

end Selector

end LoadBalancer
