/-
  Replication on the hash ring: which backends have labels that parse.

  A label is the text of the backend, `#` and a number, and it is converted back to a
  `Backend`, that is, parsed as a URL. The text of an IPv6 endpoint may begin with a colon,
  which no URL does; and a URL that is only an unknown protocol and `://` names a host, while
  with `#` and a number behind it it names a protocol. Every other backend can be replicated
  (`label_parses_iff`), so the ring accepts the endpoints of the other selectors up to these.
-/
import LoadBalancer.Selectors.RingLabels
import LoadBalancer.Url.Language

namespace LoadBalancer

namespace Url

/-! ## A URL with a fragment behind it -/

/-- The text is an unknown protocol and its separator. -/
def BareProtocol (cs : List Char) : Prop :=
  ∃ protocol, cs = protocol ++ separator ∧ protocol ≠ [] ∧ (∀ c ∈ protocol, isWord c = true) ∧
    String.ofList protocol ∉ knownProtocols

theorem accepted_append_iff {cs ds : List Char} (hne : cs ≠ [])
    (hds : ∀ c ∈ ds, isSpace c = false) : Accepted (cs ++ ds) ↔ Accepted cs := by
  have hall : (∀ c ∈ cs ++ ds, isSpace c = false) ↔ ∀ c ∈ cs, isSpace c = false := by
    rw [List.forall_mem_append]
    exact and_iff_left hds
  unfold Accepted
  rw [List.head?_append_of_ne_nil _ hne, hall]
  exact and_congr_left' (iff_of_true (by simp [hne]) hne)

theorem isHostChar_sharp_digits {ds : List Char} (hds : ∀ c ∈ ds, c.isDigit = true) :
    ∀ c ∈ '#' :: ds, isHostChar c = true := by
  intro c hc
  rcases List.mem_cons.mp hc with rfl | hc
  · decide
  · exact isHostChar_of_word (isWord_of_digit (hds c hc))

/-- The separator has no `#`. -/
theorem separator_append_eq {xs ys ds : List Char} (h : separator ++ ys = xs ++ '#' :: ds) :
    ∃ zs, xs = separator ++ zs ∧ ys = zs ++ '#' :: ds := by
  match xs with
  | [] => simp [separator] at h
  | [a] => simp [separator] at h
  | [a, b] => simp [separator] at h
  | a :: b :: c :: zs =>
    simp only [separator, List.cons_append, List.nil_append, List.cons.injEq] at h
    obtain ⟨rfl, rfl, rfl, hzs⟩ := h
    exact ⟨zs, rfl, hzs⟩

/-- A fragment behind a text that names a port, or no unknown protocol, changes neither, unless
    the text stops at the separator. -/
theorem unported_append_sharp {cs ds : List Char} (hcs : ¬ Unported cs)
    (hds : ∀ c ∈ ds, c.isDigit = true) : Unported (cs ++ '#' :: ds) ↔ BareProtocol cs := by
  constructor
  · intro h
    obtain ⟨protocol, host, left, heq, hne, hword, hunknown, hhost, hchars, hlast, hport⟩ := h
    refine ⟨protocol, ?_, hne, hword, hunknown⟩
    rcases List.append_eq_append_iff.mp heq with ⟨more, rfl, hmore⟩ | ⟨more, rfl, hmore⟩
    · -- the protocol would reach into the fragment
      cases more with
      | nil => simp [separator] at hmore
      | cons c more =>
          obtain ⟨rfl, -⟩ := List.cons.inj hmore
          exact absurd (hword '#' (by simp)) (by decide)
    · obtain ⟨authority, rfl, hauthority⟩ := separator_append_eq hmore
      cases authority with
      | nil => rw [List.append_nil]
      | cons c authority =>
          -- the text has the unknown protocol, and the beginning of the host, of its own
          exfalso
          apply hcs
          rcases List.append_eq_append_iff.mp hauthority with ⟨rest, hrest, rfl⟩ | ⟨rest, rfl, -⟩
          · refine ⟨protocol, host, rest, by rw [hrest], hne, hword, hunknown, hhost, hchars,
              fun d hd => hlast d ?_, fun hahead => hport ?_⟩
            · obtain ⟨rest, rfl⟩ := List.head?_eq_some_iff.mp hd
              rfl
            · obtain ⟨d, e, rest, rfl, hd, he⟩ := hahead
              exact ⟨d, e, rest ++ '#' :: ds, rfl, hd, he⟩
          · refine ⟨protocol, c :: authority, [], by simp, hne, hword, hunknown, by simp,
              fun d hd => hchars d (List.mem_append_left _ hd), by simp, ?_⟩
            rintro ⟨d, e, left, heq, -⟩
            cases heq
  · intro h
    obtain ⟨protocol, rfl, hne, hword, hunknown⟩ := h
    refine ⟨protocol, '#' :: ds, [], by simp, hne, hword, hunknown, by simp,
      isHostChar_sharp_digits hds, by simp, ?_⟩
    rintro ⟨d, e, left, heq, -⟩
    cases heq

end Url

section

variable [Platform]

namespace Backend

/-- The text is one that a label can be made of. -/
def Replicable : Backend → Prop
  | .endpoint ep => (Platform.addressToString ep.address).toList.head? ≠ some ':'
  | .url u => ¬ Url.BareProtocol u.toString.toList

end Backend

namespace BackendCHTraits

theorem toList_label (b : Backend) (i : Nat) :
    (label b i).toList = b.toString.toList ++ '#' :: (toString i).toList := by
  simp [label]

/-- A label parses exactly if the backend is replicable. -/
theorem label_parses_iff [PlainAddresses] (b : Backend) (i : Nat) :
    (∃ u, Backend.ofUrlString (label b i) = .ok u) ↔ b.Replicable := by
  have hdigits : ∀ c ∈ (toString i).toList, c.isDigit = true := fun c => Text.isDigit_of_mem
  have hspace : ∀ c ∈ '#' :: (toString i).toList, isSpace c = false := fun c hc =>
    (Url.isHostChar_eq_true.mp (Url.isHostChar_sharp_digits hdigits c hc)).2.1
  rw [Backend.exists_ofUrlString, toList_label]
  cases b with
  | endpoint ep =>
      have hported : ¬ Url.Unported ((Backend.endpoint ep).toString.toList ++
          '#' :: (toString i).toList) := by
        refine Url.not_unported_of_no_slash fun hmem => ?_
        rcases List.mem_append.mp hmem with hmem | hmem
        · exact Backend.slash_not_mem_endpoint ep hmem
        · exact absurd (Url.isHostChar_sharp_digits hdigits _ hmem) (by decide)
      rw [and_iff_left hported,
        Url.accepted_append_iff (by simp [Backend.toList_toString_endpoint]) hspace]
      exact Backend.accepted_endpoint ep
  | url u =>
      have hu : ∃ url, Url.ofString u.wholeUrl = .ok url :=
        ⟨u, Url.ofString_wholeUrl u⟩
      obtain ⟨haccepted, hported⟩ := Url.exists_ofString.mp hu
      have hlabel := Url.unported_append_sharp hported hdigits
      show Url.Accepted (u.wholeUrl.toList ++ _) ∧ ¬ Url.Unported (u.wholeUrl.toList ++ _) ↔ _
      rw [hlabel, and_iff_right ((Url.accepted_append_iff haccepted.1 hspace).mpr haccepted)]
      rfl

/-- A replication gives the hashes of all labels. -/
def Replicates (b : Backend) (n : Nat) : Prop :=
  replicate b n = .ok ((List.range n).map fun i => Platform.hash (label b i))

theorem replicate_eq_ok_iff [PlainAddresses] {b : Backend} {n : Nat} {hashes : List HashType} :
    replicate b n = .ok hashes ↔ (n = 0 ∨ n < 2 ^ 31 ∧ b.Replicable) ∧
      hashes = (List.range n).map fun i => Platform.hash (label b i) := by
  rw [replicate_eq_ok, ← and_assoc]
  refine and_congr_left' ?_
  simp only [label_parses_iff]
  constructor
  · intro h
    rcases Nat.eq_zero_or_pos n with hzero | hpos
    · exact Or.inl hzero
    · exact Or.inr ⟨h.1, h.2 0 hpos⟩
  · intro h
    rcases h with rfl | ⟨hn, hb⟩
    · exact ⟨by decide, fun i hi => absurd hi (Nat.not_lt_zero i)⟩
    · exact ⟨hn, fun _ _ => hb⟩

end BackendCHTraits

/-! ## The endpoints that the ring accepts -/

omit [Platform] in
/-- Insertions of nodes that can be replicated succeed. -/
theorem Router.exists_emplaceAll {NodeType : Type} {traits : HashTraits NodeType}
    {r : Router NodeType} {nodes : List NodeType}
    (h : ∀ node ∈ nodes, ∃ hashes,
      traits.replicate node (extraReplicas r.replicas) = .ok hashes) :
    ∃ t, nodes.foldlM (fun r node => r.emplaceNode traits node) r = .ok t := by
  induction nodes generalizing r with
  | nil => exact ⟨r, rfl⟩
  | cons node nodes ih =>
      obtain ⟨hashes, hhashes⟩ := h node List.mem_cons_self
      obtain ⟨u, hu⟩ : ∃ u, r.emplaceNode traits node = .ok u :=
        ⟨_, Except.bind_eq_ok.mpr ⟨hashes, hhashes, rfl⟩⟩
      obtain ⟨t, ht⟩ := ih (r := u) fun x hx => by
        rw [replicas_emplaceNode hu]
        exact h x (List.mem_cons_of_mem _ hx)
      exact ⟨t, by rw [List.foldlM_cons]; exact Except.bind_eq_ok.mpr ⟨u, hu, ht⟩⟩

namespace ConsistentHashSelector

open BackendCHTraits (traits)

theorem exists_configure {replicas : Nat} {config : Node} (missed : String) :
    (∃ s, configure replicas config = .ok s) ↔
      ∃ bs, configuredBackends missed config = .ok bs ∧
        ∀ b ∈ bs, ∃ hashes, traits.replicate b (Router.extraReplicas replicas) = .ok hashes := by
  constructor
  · intro h
    obtain ⟨s, hs⟩ := h
    obtain ⟨bs, hbs, hring⟩ := configure_eq_ok hs
    exact ⟨bs, configuredBackends_missed hbs missed, Router.replicate_of_emplaceAll rfl hring⟩
  · intro h
    obtain ⟨bs, hbs, hall⟩ := h
    obtain ⟨t, ht⟩ := Router.exists_emplaceAll (r := Router.new replicas) hall
    obtain ⟨items, hitems, hread⟩ := Except.bind_eq_ok.mp
      (configuredBackends_missed hbs "Consistent hash endpoints node is missed")
    exact ⟨⟨t⟩, Except.bind_eq_ok.mpr ⟨items, hitems, Except.bind_eq_ok.mpr
      ⟨t, Except.foldlM_bind_of_mapM hread ht, rfl⟩⟩⟩

end ConsistentHashSelector

namespace Selector

open BackendCHTraits (Replicates)

theorem exists_configure_roundRobin {replicas : Nat} {config : Node} (missed : String) :
    (∃ s, configure .roundRobin replicas config = .ok s) ↔
      ∃ bs, configuredBackends missed config = .ok bs := by
  constructor
  · intro h
    obtain ⟨s, hs⟩ := h
    obtain ⟨s, hs, -⟩ := Except.map_eq_ok.mp hs
    obtain ⟨bs, hbs, -⟩ := RoundRobinSelector.configure_eq_ok hs
    exact ⟨bs, hbs missed⟩
  · intro h
    obtain ⟨bs, hbs⟩ := h
    have hs : RoundRobinSelector.configure config = .ok ⟨0, bs⟩ :=
      Except.bind_eq_ok.mpr ⟨bs, configuredBackends_missed hbs _, rfl⟩
    exact ⟨_, Except.map_eq_ok.mpr ⟨_, hs, rfl⟩⟩

theorem exists_configure_consistentHash [PlainAddresses] {replicas : Nat} {config : Node}
    (missed : String) : (∃ s, configure .consistentHash replicas config = .ok s) ↔
      ∃ bs, configuredBackends missed config = .ok bs ∧ ∀ b ∈ bs,
        Router.extraReplicas replicas = 0 ∨
          Router.extraReplicas replicas < 2 ^ 31 ∧ b.Replicable := by
  have hselector : (∃ s, configure .consistentHash replicas config = .ok s) ↔
      ∃ s, ConsistentHashSelector.configure replicas config = .ok s := by
    constructor
    · intro h
      obtain ⟨s, hs⟩ := h
      obtain ⟨c, hc, -⟩ := Except.map_eq_ok.mp hs
      exact ⟨c, hc⟩
    · intro h
      obtain ⟨c, hc⟩ := h
      exact ⟨_, Except.map_eq_ok.mpr ⟨c, hc, rfl⟩⟩
  rw [hselector, ConsistentHashSelector.exists_configure missed]
  simp only [BackendCHTraits.traits_replicate, BackendCHTraits.replicate_eq_ok_iff,
    exists_and_left, exists_eq, and_true]

/-- A backend can be replicated exactly where no replica is asked for, or its labels parse and
    the loop's counter can number them; and the ring accepts the endpoints that the other
    selectors accept exactly where all of them can be replicated. -/
theorem replicates_iff [PlainAddresses] :
    (∀ b n, Replicates b n ↔ n = 0 ∨ n < 2 ^ 31 ∧ b.Replicable) ∧
    ∀ replicas config,
      ((∃ s, configure .consistentHash replicas config = .ok s) ↔
        ∃ s, configure .roundRobin replicas config = .ok s) ↔
      ∀ missed bs, configuredBackends missed config = .ok bs → ∀ b ∈ bs,
        Router.extraReplicas replicas = 0 ∨
          Router.extraReplicas replicas < 2 ^ 31 ∧ b.Replicable := by
  refine ⟨fun b n => ?_, fun replicas config => ?_⟩
  · unfold Replicates
    rw [BackendCHTraits.replicate_eq_ok_iff]
    exact and_iff_left rfl
  · rw [exists_configure_consistentHash "", exists_configure_roundRobin ""]
    constructor
    · intro h missed bs hbs
      obtain ⟨bs', hbs', hall⟩ := h.mpr ⟨bs, configuredBackends_missed hbs ""⟩
      obtain rfl := Except.ok.inj ((configuredBackends_missed hbs' missed).symm.trans hbs)
      exact hall
    · intro hall
      refine ⟨fun h => ⟨h.choose, h.choose_spec.1⟩, fun h => ?_⟩
      obtain ⟨bs, hbs⟩ := h
      exact ⟨bs, hbs, hall "" bs hbs⟩

end Selector

end

namespace Selector

section

open Reference BackendCHTraits

/-- Two replicas of port 80 of the local host, and a ring with three positions for it. -/
theorem replicates_port80 : Replicates port80 2 ∧
    ∃ s, configure .consistentHash 3 oneEntry = .ok s := by
  have hb : port80.Replicable := by
    show (addressToString localhost).toList.head? ≠ some ':'
    decide
  refine ⟨(replicates_iff.1 port80 2).mpr (Or.inr ⟨by decide, hb⟩), ?_⟩
  refine ((replicates_iff.2 3 oneEntry).mpr fun missed bs hbs b hmem => ?_).mpr
    ⟨.roundRobin ⟨0, [port80]⟩, rfl⟩
  obtain rfl : [port80] = bs := Except.ok.inj hbs
  obtain rfl := List.mem_singleton.mp hmem
  exact Or.inr ⟨by decide, hb⟩

end

end Selector

/-! ## An IPv6 endpoint -/

namespace LoopbackReference

/-- The reference platform with the loopback address of IPv6 for its only address. -/
scoped instance platform : Platform where
  Address := Unit
  decEqAddress := inferInstance
  addressFromString s := if s = "::1" then some () else none
  addressToString _ := "::1"
  readInteger := Reference.readInteger
  hash := Reference.hash
  Double := ℚ
  doubleArithmetic := Reference.rationals
  sort lt l := l.insertionSort (Reference.notBelow lt)
  PairingHeap := ListHeap
  heapOps _ _ := inferInstance

def loopback : Backend := .endpoint ⟨(), Backend.narrowPort 80⟩
def loopbackEntry : Node := Reference.balancing [Reference.ipEntry "::1" "80"]

/-- Replica 0 of `::1:80` has the label `::1:80#0`, which is no URL: the ring rejects a
    configuration that the other selectors accept. -/
theorem not_replicates_loopback :
    Selector.configure .roundRobin 2 loopbackEntry = .ok (.roundRobin ⟨0, [loopback]⟩) ∧
      BackendCHTraits.replicate loopback 1 =
        .error (.runtimeError "Invalid url: ::1:80#0") ∧
      Selector.configure .consistentHash 2 loopbackEntry =
        .error (.runtimeError "Invalid url: ::1:80#0") := by
  exact ⟨by rfl, by rfl, by rfl⟩

end LoopbackReference

end LoadBalancer
