/-
  The hash ring with colliding labels: when `ExcludeBackend` removes exactly its argument.

  A removal takes the owner of the position of `ToString()`. That position is hashed under
  the same text as a replica of another backend where the other's `ToString()`, followed by
  `#` and the number of the replica, gives this text, and the backend configured last owns it.
  So a removal is exact, in every state, exactly if no backend's text is a label of a backend
  configured after it (`removesExactly_iff_labels`).
-/
import LoadBalancer.Backend.Text
import LoadBalancer.Selectors.HashRing

namespace LoadBalancer

open Transition

/-! ## Nodes that own their own position -/

namespace Router

variable {NodeType : Type} {traits : HashTraits NodeType} {replicas : Nat}

/-- The ring position leads to the node. -/
def LeadsTo (r : Router NodeType) (p : HashType) (node : NodeType) : Prop :=
  ∃ it, (p, it) ∈ r.ring.entries ∧ (it, node) ∈ r.physicalNodes

/-- From `r` to `t` the node is removed with all that leads to it, and nothing else is. -/
structure RemovesExactly (node : NodeType) (r t : Router NodeType) : Prop where
  holds : ∀ x, t.Holds x ↔ r.Holds x ∧ x ≠ node
  none : ∀ p, ¬ t.LeadsTo p node
  others : ∀ p x, x ≠ node → r.LeadsTo p x → t.LeadsTo p x

/-- Every stored node owns the position of its own hash. -/
def Homed (traits : HashTraits NodeType) (r : Router NodeType) : Prop :=
  ∀ n ∈ r.physicalNodes, r.ring.find (traits.getHash n.2) = some n.1

/-- Where no node is stored twice, a removal is exact exactly if the node owns the position of
    its hash. -/
theorem removesExactly_iff {r : Router NodeType} (hr : r.Inv)
    (hnd : (r.physicalNodes.map Prod.snd).Nodup) {it : NodeIt} {node : NodeType}
    (hnode : (it, node) ∈ r.physicalNodes) :
    RemovesExactly node r (r.eraseNode traits node) ↔
      r.ring.find (traits.getHash node) = some it := by
  constructor
  · intro h
    by_contra hfind
    have hstays : (r.eraseNode traits node).Holds node :=
      ⟨it, (mem_eraseNode.1 _).mpr ⟨hnode, hfind⟩⟩
    exact ((h.holds node).mp hstays).2 rfl
  · intro hfind
    have hunique : ∀ it' x, (it', x) ∈ r.physicalNodes → (x = node ↔ some it = some it') := by
      intro it' x hx
      constructor
      · intro heq
        subst heq
        exact congrArg (some ∘ Prod.fst) (List.inj_on_of_nodup_map hnd hnode hx rfl)
      · intro heq
        obtain rfl := Option.some.inj heq
        exact hr.node_unique hx hnode
    have hmem : ∀ it' x, (it', x) ∈ (r.eraseNode traits node).physicalNodes ↔
        (it', x) ∈ r.physicalNodes ∧ x ≠ node := by
      intro it' x
      rw [mem_eraseNode.1, hfind]
      exact and_congr_right fun hx => not_congr (hunique it' x hx).symm
    refine ⟨fun x => ?_, fun p hleads => ?_, fun p x hne hleads => ?_⟩
    · simp only [Holds, hmem, exists_and_right]
    · obtain ⟨it', -, hx⟩ := hleads
      exact ((hmem it' node).mp hx).2 rfl
    · obtain ⟨it', he, hx⟩ := hleads
      have howner : r.ring.find (traits.getHash node) ≠ some it' :=
        fun h => hne ((hunique it' x hx).mpr (hfind.symm.trans h))
      exact ⟨it', (mem_eraseNode.2 _).mpr ⟨he, howner⟩, (hmem it' x).mpr ⟨hx, hne⟩⟩

theorem Homed.eraseNode {r : Router NodeType} (hr : r.Homed traits) (node : NodeType) :
    (r.eraseNode traits node).Homed traits := by
  intro n hn
  obtain ⟨hmem, howner⟩ := (mem_eraseNode.1 n).mp hn
  have hfind := hr n hmem
  rw [OrderedMap.find_eq_some] at hfind ⊢
  exact (mem_eraseNode.2 _).mpr ⟨hfind, howner⟩

theorem nodup_eraseNode {r : Router NodeType} (hnd : (r.physicalNodes.map Prod.snd).Nodup)
    (node : NodeType) : ((r.eraseNode traits node).physicalNodes.map Prod.snd).Nodup := by
  unfold eraseNode
  split
  · exact hnd
  · exact (List.filter_sublist.map _).nodup hnd

/-! ## The loop of `Configure` -/

/-- Every stored node owns the position of its hash, and keeps it after insertions at the
    positions `later`. -/
def HomedBefore (traits : HashTraits NodeType) (r : Router NodeType) (later : List HashType) :
    Prop :=
  ∀ n ∈ r.physicalNodes,
    r.ring.find (traits.getHash n.2) = some n.1 ∧ traits.getHash n.2 ∉ later

theorem homed_iff_before {r : Router NodeType} : r.Homed traits ↔ r.HomedBefore traits [] := by
  simp [Homed, HomedBefore]

theorem homedBefore_iff {r : Router NodeType} {later : List HashType} :
    r.HomedBefore traits later ↔ ∀ n ∈ r.physicalNodes,
      (traits.getHash n.2, n.1) ∈ r.ring.entries ∧ traits.getHash n.2 ∉ later := by
  simp only [HomedBefore, OrderedMap.find_eq_some]

theorem homedBefore_emplaceNode {r t : Router NodeType} {node : NodeType} (hr : r.Inv)
    (hreplicas : r.replicas = replicas) (h : r.emplaceNode traits node = .ok t)
    (later : List HashType) :
    t.HomedBefore traits later ↔
      r.HomedBefore traits (positions traits replicas node ++ later) ∧
        traits.getHash node ∉ later := by
  subst hreplicas
  rw [homedBefore_iff, homedBefore_iff, forall_nodes_emplaceNode h]
  refine and_congr ?_ ?_
  · refine forall₂_congr fun n hn => ?_
    rw [entry_emplaceNode_of_old hr h hn, List.mem_append]
    tauto
  · have hprimary : traits.getHash node ∈ positions traits r.replicas node := List.mem_cons_self
    rw [entry_emplaceNode_of_new hr h]
    exact and_iff_right hprimary

theorem homed_emplaceAll {r t : Router NodeType} {nodes : List NodeType} (hr : r.Inv)
    (hreplicas : r.replicas = replicas)
    (h : nodes.foldlM (fun r node => r.emplaceNode traits node) r = .ok t) :
    t.Homed traits ↔ r.HomedBefore traits (nodes.flatMap (positions traits replicas)) ∧
      nodes.Pairwise fun a b => traits.getHash a ∉ positions traits replicas b := by
  rw [homed_iff_before]
  refine before_emplaceAll .nil (fun node nodes => ?_) homedBefore_emplaceNode hr hreplicas h
  rw [List.pairwise_cons]
  simp only [List.mem_flatMap, not_exists, not_and]

/-- On a configured ring every node owns the position of its hash exactly if no later node
    takes it. -/
theorem homed_emplaceAll_new {t : Router NodeType} {nodes : List NodeType}
    (h : nodes.foldlM (fun r node => r.emplaceNode traits node) (new replicas) = .ok t) :
    t.Homed traits ↔
      nodes.Pairwise fun a b => traits.getHash a ∉ positions traits replicas b := by
  have hreplicas : (new replicas : Router NodeType).replicas = replicas := rfl
  rw [homed_emplaceAll (inv_new replicas) hreplicas h]
  exact and_iff_right fun n hn => absurd hn List.not_mem_nil

end Router

/-! ## The labels of endpoints -/

section

variable [Platform]

/-- Distinct IP endpoints have no label in common with each other's text, as long as the text
    of an address determines it and has no `#`. -/
theorem pairwise_labels_endpoints
    (hinj : ∀ x y, Platform.addressToString x = Platform.addressToString y → x = y)
    (hhash : ∀ x, '#' ∉ (Platform.addressToString x).toList) {bs : List Backend}
    (hip : ∀ b ∈ bs, b.isIpEndpoint = true) (hnd : bs.Nodup) (replicas : Nat) :
    bs.Pairwise fun a b => a.toString ∉ BackendCHTraits.labels replicas b := by
  refine hnd.imp_of_mem fun {a b} ha hb hne hmem => ?_
  cases a with
  | url u => cases hip _ ha
  | endpoint a =>
      cases b with
      | url u => cases hip _ hb
      | endpoint b =>
          rcases List.mem_cons.mp hmem with heq | hmem
          · exact hne (congrArg Backend.endpoint (Backend.endpoint_of_toString hinj heq))
          · obtain ⟨i, -, heq⟩ := List.mem_map.mp hmem
            apply Backend.sharp_not_mem_endpoint hhash a
            rw [← heq]
            simp [BackendCHTraits.label]

end

/-! ## The labels of the configuration -/

namespace Selector

section

variable [Platform]

open BackendCHTraits (traits labels ringPositions)

/-- Where hashes of labels collide for equal labels only, every exclusion of a stored backend
    removes exactly this backend, in every state, exactly if no backend's text is the text or
    a replica label of a backend configured after it. -/
theorem removesExactly_iff_labels {replicas : Nat} {config : Node} {missed : String}
    {bs : List Backend} {s : Selector} (hr : 1 ≤ replicas) (hsize : replicas < 2 ^ 64)
    (h : configure .consistentHash replicas config = .ok s)
    (hbs : configuredBackends missed config = .ok bs) (hnd : bs.Nodup)
    (hinj : ∀ x ∈ bs.flatMap (labels replicas), ∀ y ∈ bs.flatMap (labels replicas),
      Platform.hash x = Platform.hash y → x = y) :
    (∀ calls c, Run CallStep s calls (.consistentHash c) → ∀ b, c.ring.Holds b →
      Router.RemovesExactly b c.ring (c.excludeBackend b).2.ring) ↔
    bs.Pairwise fun a b => a.toString ∉ labels replicas b := by
  obtain ⟨c₀, rfl, hring, hpositions⟩ := consistentHash_configure hr hsize h hbs
  have hinv : c₀.ring.Inv := Router.inv_emplaceAll (Router.inv_new replicas) hring
  have hnodes : (c₀.ring.physicalNodes.map Prod.snd).Nodup := by
    rw [Router.map_snd_emplaceAll hring]
    exact hnd
  have hhomed : c₀.ring.Homed traits ↔ bs.Pairwise fun a b => a.toString ∉ labels replicas b := by
    rw [Router.homed_emplaceAll_new hring]
    refine List.Pairwise.iff_of_mem fun {a b} ha hb => not_congr ?_
    rw [hpositions b hb, ringPositions, List.mem_map]
    constructor
    · intro hex
      obtain ⟨text, htext, hhash⟩ := hex
      have hatext : a.toString ∈ bs.flatMap (labels replicas) :=
        List.mem_flatMap.mpr ⟨a, ha, List.mem_cons_self⟩
      exact hinj text (List.mem_flatMap.mpr ⟨b, hb, htext⟩) _ hatext hhash ▸ htext
    · intro hmem
      exact ⟨a.toString, hmem, rfl⟩
  rw [← hhomed]
  constructor
  · intro hall n hn
    exact (Router.removesExactly_iff hinv hnodes hn).mp (hall [] c₀ (.nil _) n.2 ⟨n.1, hn⟩)
  · intro hhome calls c hrun b hb
    obtain ⟨c', hc', hinv', hnodes', hhome'⟩ := consistentHash_run
      (I := fun r => r.Inv ∧ (r.physicalNodes.map Prod.snd).Nodup ∧ r.Homed traits)
      (fun r b hI => ⟨Router.inv_eraseNode hI.1 b, Router.nodup_eraseNode hI.2.1 b,
        hI.2.2.eraseNode b⟩) ⟨hinv, hnodes, hhome⟩ hrun
    obtain rfl : c = c' := Selector.consistentHash.inj hc'
    obtain ⟨it, hmem⟩ := hb
    exact (Router.removesExactly_iff hinv' hnodes' hmem).mpr (hhome' (it, b) hmem)

end

section

open Reference BackendCHTraits

/-- With two positions each, the labels of ports 80 and 81 of the local host are distinct. -/
theorem removesExactly_twoRing :
    configure .consistentHash 2 twoEntries = .ok twoRing ∧
      ∀ calls c, Run CallStep twoRing calls (.consistentHash c) → ∀ b, c.ring.Holds b →
        Router.RemovesExactly b c.ring (c.excludeBackend b).2.ring := by
  have h : configure .consistentHash 2 twoEntries = .ok twoRing := by rfl
  have hbs : configuredBackends "" twoEntries = .ok [port80, port81] := by rfl
  have hlabels : [port80, port81].Pairwise fun a b => a.toString ∉ labels 2 b := by decide
  exact ⟨h, (removesExactly_iff_labels (by decide) (by decide) h hbs (by decide)
    (by decide)).mpr hlabels⟩

/-- A URL, and the same with the text of a replica. -/
def plainUrl : Url := ⟨"http://x/", ⟨"http", "x", "80", "/", "", ""⟩, by rfl⟩
def fragmentUrl : Url := ⟨"http://x/#0", ⟨"http", "x", "80", "/", "", "0"⟩, by rfl⟩
def fragmentEntries : Node := balancing [urlEntry "http://x/#0", urlEntry "http://x/"]
def fragmentRing : ConsistentHashSelector :=
  { ring := {
      ring := Router.assign (Router.assign .empty 0 (ringPositions 2 (.url fragmentUrl))) 1
        (ringPositions 2 (.url plainUrl))
      physicalNodes := [(0, .url fragmentUrl), (1, .url plainUrl)]
      nextNode := 2
      replicas := 2 } }

/-- The exclusion of the URL configured first removes the other one in its place. -/
theorem not_removesExactly_fragment :
    configure .consistentHash 2 fragmentEntries = .ok (.consistentHash fragmentRing) ∧
      configuredBackends "" fragmentEntries = .ok [.url fragmentUrl, .url plainUrl] ∧
      [Backend.url fragmentUrl, .url plainUrl].Nodup ∧
      (∀ x ∈ [Backend.url fragmentUrl, .url plainUrl].flatMap (labels 2),
        ∀ y ∈ [Backend.url fragmentUrl, .url plainUrl].flatMap (labels 2),
        Platform.hash x = Platform.hash y → x = y) ∧
      fragmentRing.ring.Holds (.url fragmentUrl) ∧
      (fragmentRing.excludeBackend (.url fragmentUrl)).2.ring.physicalNodes =
        [(0, .url fragmentUrl)] ∧
      ¬ Router.RemovesExactly (.url fragmentUrl) fragmentRing.ring
        (fragmentRing.excludeBackend (.url fragmentUrl)).2.ring := by
  have hnodes : (fragmentRing.excludeBackend (.url fragmentUrl)).2.ring.physicalNodes =
      [(0, .url fragmentUrl)] := by rfl
  refine ⟨by rfl, by rfl, by decide, by decide, ⟨0, List.mem_cons_self⟩, hnodes, fun h => ?_⟩
  have hstays : (fragmentRing.excludeBackend (.url fragmentUrl)).2.ring.Holds (.url fragmentUrl) :=
    ⟨0, hnodes ▸ List.mem_cons_self⟩
  exact ((h.holds _).mp hstays).2 rfl

end

end Selector

end LoadBalancer
