/-
  The port of a configured endpoint.

  An entry gives its port as an integer beside an address, or in the authority of a URL. The
  integer is narrowed to 16 bits without a test; of the URL's digits the pattern takes two to
  five, and it looks for them after the first colon that it finds. An accepted entry keeps its
  port exactly where neither happens to change it.
-/
import LoadBalancer.Reference
import LoadBalancer.Selectors.Selector
import LoadBalancer.Url.Port

namespace LoadBalancer

section

variable [Platform]

namespace Backend

/-- The entry names an address and an integer port. -/
structure GivenAsIp (ep : Node) (ip : String) (port : Int) : Prop where
  url : ep.get "url" = .ok .undefined
  ip : (do (← ep.required "ip").asString) = Except.ok ip
  port : (do (← ep.required "port").asInt) = Except.ok port

/-- The entry names a URL. -/
structure GivenAsUrl (ep : Node) (text : String) : Prop where
  url : ∃ node, ep.get "url" = .ok node ∧ node.isDefined = true ∧ node.asString = .ok text

/-- The backend has the port that the entry gives. -/
structure PortUsed (ep : Node) (b : Backend) : Prop where
  ip : ∀ ip port, GivenAsIp ep ip port → ∃ e, b = .endpoint e ∧ (e.port.val : Int) = port ∧
    b.toString = Platform.addressToString e.address ++ ":" ++ toString port
  url : ∀ text a, GivenAsUrl ep text → Url.AuthorityPort text.toList a →
    ∃ u, b = .url u ∧ u.parts.port = String.ofList a.run ∧ Url.portNumber a.run ≤ 65535

/-- The entry gives a port that the program can take as it is. -/
structure PortFits (ep : Node) : Prop where
  ip : ∀ ip port, GivenAsIp ep ip port → 0 ≤ port ∧ port ≤ 65535
  url : ∀ text a, GivenAsUrl ep text → Url.AuthorityPort text.toList a →
    a.Fits ∧ Url.portNumber a.run ≤ 65535

theorem ofNode_of_givenAsIp {ep : Node} {ip : String} {port : Int} (h : GivenAsIp ep ip port) :
    ofNode ep = ofIp ip port := by
  obtain ⟨ipNode, hipNode, hip⟩ := Except.bind_eq_ok.mp h.ip
  obtain ⟨portNode, hportNode, hport⟩ := Except.bind_eq_ok.mp h.port
  unfold ofNode
  rw [h.url, hipNode, hportNode]
  show (do ofIp (← ipNode.asString) (← portNode.asInt)) = _
  rw [hip, hport]
  rfl

theorem ofNode_of_givenAsUrl {ep : Node} {text : String} (h : GivenAsUrl ep text) :
    ofNode ep = ofUrlString text := by
  obtain ⟨node, hnode, hdefined, htext⟩ := h.url
  unfold ofNode
  rw [hnode]
  show (if node.isDefined = true then _ else _) = _
  rw [if_pos hdefined, htext]
  rfl

theorem ofIp_eq_ok {ip : String} {port : Int} {b : Backend} (h : ofIp ip port = .ok b) :
    ∃ address, b = .endpoint ⟨address, narrowPort port⟩ := by
  unfold ofIp at h
  split at h
  · next address haddress => exact ⟨address, (Except.ok.inj h).symm⟩
  · cases h

/-- A backend read from an entry has the entry's port exactly where the port fits. -/
theorem portUsed_iff {ep : Node} {b : Backend} (hb : ofNode ep = .ok b) :
    PortUsed ep b ↔ PortFits ep := by
  constructor
  · intro h
    refine ⟨fun ip port hgiven => ?_, fun text a hgiven ha => ?_⟩
    · obtain ⟨e, he, hport, -⟩ := h.ip ip port hgiven
      rw [ofNode_of_givenAsIp hgiven] at hb
      obtain ⟨address, rfl⟩ := ofIp_eq_ok hb
      obtain rfl := Backend.endpoint.inj he
      exact (narrowPort_eq_iff port).mp hport
    · obtain ⟨u, rfl, hport, hmax⟩ := h.url text a hgiven ha
      rw [ofNode_of_givenAsUrl hgiven] at hb
      obtain ⟨u', hu, hb⟩ := Except.bind_eq_ok.mp hb
      obtain rfl := Backend.url.inj (Except.pure_eq_ok.mp hb)
      exact ⟨(Url.port_eq_iff hu ha).mp hport, hmax⟩
  · intro h
    refine ⟨fun ip port hgiven => ?_, fun text a hgiven ha => ?_⟩
    · have hfits := (narrowPort_eq_iff port).mpr (h.ip ip port hgiven)
      rw [ofNode_of_givenAsIp hgiven] at hb
      obtain ⟨address, rfl⟩ := ofIp_eq_ok hb
      have hshown : toString port = toString (narrowPort port).val := by
        nth_rewrite 1 [← hfits]
        rfl
      exact ⟨_, rfl, hfits, by rw [hshown]; rfl⟩
    · rw [ofNode_of_givenAsUrl hgiven] at hb
      obtain ⟨u, hu, hb⟩ := Except.bind_eq_ok.mp hb
      rw [Except.pure_eq_ok] at hb
      obtain ⟨hfits, hmax⟩ := h.url text a hgiven ha
      exact ⟨u, hb.symm, (Url.port_eq_iff hu ha).mpr hfits, hmax⟩

end Backend

namespace Selector

variable [LawfulPairingHeap] [LawfulSort]

/-- Every entry that a selector accepts is stored, with its own port exactly where the port
    fits. -/
theorem configured_port {type : SelectorType} {replicas : Nat} {config : Node} {s : Selector}
    (h : configure type replicas config = .ok s) {items : List Node}
    (hitems : config.get "endpoints" = .ok (.sequence items)) {ep : Node} (hep : ep ∈ items) :
    ∃ b, Backend.ofNode ep = .ok b ∧ s.Holds b ∧ (Backend.PortUsed ep b ↔ Backend.PortFits ep) := by
  obtain ⟨-, -, bs, hbs, hholds, -⟩ := configure_spec h
  have hnodes : Backend.endpointNodes "" config = .ok items := by
    unfold Backend.endpointNodes
    rw [hitems]
    rfl
  obtain ⟨items', hitems', hmap⟩ := Except.bind_eq_ok.mp (hbs "")
  obtain rfl := Except.ok.inj (hnodes.symm.trans hitems')
  obtain ⟨b, hb, hread⟩ := Except.exists_of_mapM_eq_ok hmap hep
  exact ⟨b, hread, (hholds b).mpr hb, Backend.portUsed_iff hread⟩

end Selector

end

namespace Selector

section

open Reference

/-- Entries whose ports do not fit: an integer above 65535, a URL with one digit, one with colons
    in the host, and one whose scheme is no word. -/
def wideEntry : Node := ipEntry "127.0.0.1" "70000"
def digitEntry : Node := urlEntry "http://h:8/x"
def bracketEntry : Node := urlEntry "http://[::1]:8080/"
def plusEntry : Node := urlEntry "git+ssh://host:2222/"
def unfitEntries : List Node := [wideEntry, digitEntry, bracketEntry, plusEntry]
def unfitPorts : Node := balancing unfitEntries

def digitUrl : Url := ⟨"http://h:8/x", ⟨"http", "h", "80", ":8/x", "", ""⟩, rfl⟩
def bracketUrl : Url := ⟨"http://[::1]:8080/", ⟨"http", "[", "80", "::1]:8080/", "", ""⟩, rfl⟩
def plusUrl : Url :=
  ⟨"git+ssh://host:2222/", ⟨"http", "git+ssh", "80", "://host:2222/", "", ""⟩, rfl⟩

/-- The first is stored with port 4464, the others with port 80. -/
def unfitSelector : Selector :=
  .roundRobin ⟨0, [.endpoint ⟨localhost, Backend.narrowPort 4464⟩, .url digitUrl, .url bracketUrl,
    .url plusUrl]⟩

theorem configured_port_wideEntry :
    ∃ b, Backend.ofNode wideEntry = .ok b ∧ unfitSelector.Holds b ∧
      (Backend.PortUsed wideEntry b ↔ Backend.PortFits wideEntry) := by
  have h : configure .roundRobin 1 unfitPorts = .ok unfitSelector := by rfl
  exact configured_port h rfl List.mem_cons_self

theorem not_portUsed_wideEntry {b : Backend} (hb : Backend.ofNode wideEntry = .ok b) :
    ¬ Backend.PortUsed wideEntry b := by
  rw [Backend.portUsed_iff hb]
  intro hfits
  have hgiven : Backend.GivenAsIp wideEntry "127.0.0.1" 70000 := ⟨rfl, rfl, rfl⟩
  exact absurd (hfits.ip _ _ hgiven).2 (by decide)

/-- A URL whose port is not the one that its authority names. -/
theorem not_portUsed_urlEntry {text : String} {u : Url} {a : Url.Authority} {b : Backend}
    (hu : Backend.ofNode (urlEntry text) = .ok (.url u)) (ha : Url.AuthorityPort text.toList a)
    (hport : u.parts.port ≠ String.ofList a.run) (hb : Backend.ofNode (urlEntry text) = .ok b) :
    ¬ Backend.PortUsed (urlEntry text) b := by
  intro hused
  obtain ⟨u', rfl, hport', -⟩ := hused.url text a ⟨_, rfl, rfl, rfl⟩ ha
  obtain rfl := Backend.url.inj (Except.ok.inj (hu.symm.trans hb))
  exact hport hport'

/-- The configuration is accepted and no backend has the port of its entry. -/
theorem not_portUsed_unfitPorts :
    configure .roundRobin 1 unfitPorts = .ok unfitSelector ∧
      ∀ ep ∈ unfitEntries, ∀ b, Backend.ofNode ep = .ok b → ¬ Backend.PortUsed ep b := by
  refine ⟨by rfl, fun ep hep b hb => ?_⟩
  have hdigit : Url.AuthorityPort "http://h:8/x".toList
      ⟨some ['h', 't', 't', 'p'], ['h'], ['8'], ['/', 'x']⟩ := by
    refine ⟨rfl, ?_, ?_, ?_, ?_, ?_, ?_⟩ <;> simp [Url.isDelimiter]
  have hbracket : Url.AuthorityPort "http://[::1]:8080/".toList
      ⟨some ['h', 't', 't', 'p'], ['[', ':', ':', '1', ']'], ['8', '0', '8', '0'], ['/']⟩ := by
    refine ⟨rfl, ?_, ?_, ?_, ?_, ?_, ?_⟩ <;> simp [Url.isDelimiter]
  have hplus : Url.AuthorityPort "git+ssh://host:2222/".toList
      ⟨some ['g', 'i', 't', '+', 's', 's', 'h'], ['h', 'o', 's', 't'], ['2', '2', '2', '2'],
        ['/']⟩ := by
    refine ⟨rfl, ?_, ?_, ?_, ?_, ?_, ?_⟩ <;> simp [Url.isDelimiter]
  simp only [unfitEntries, List.mem_cons, List.not_mem_nil, or_false] at hep
  rcases hep with rfl | rfl | rfl | rfl
  · exact not_portUsed_wideEntry hb
  · exact not_portUsed_urlEntry (u := digitUrl) rfl hdigit (by decide) hb
  · exact not_portUsed_urlEntry (u := bracketUrl) rfl hbracket (by decide) hb
  · exact not_portUsed_urlEntry (u := plusUrl) rfl hplus (by decide) hb

end

end Selector

end LoadBalancer
