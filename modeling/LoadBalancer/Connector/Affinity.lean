/-
  The hash ring and the address hash behind the connector: where a client is sent.

  `attempts_sticky`: over backends without a collision, the backend that a client is sent to is
  the first on the ring among the configured ones without a refusal that the connector retries
  (one that refuses a resolved URL stays on the ring). The order in which clients are accepted,
  selected for and refused plays no part, and neither does the run: a client that is sent to a
  backend in one run is sent there in any other in which at least the same backends have
  retried refusals, but not this one.

  `attempts_addressed`: the address hash takes its place in the list of the configured backends
  without a retried refusal, so that a client keeps its backend as long as there is no further
  one.
-/
import LoadBalancer.Connector.Refusals
import LoadBalancer.Selectors.IpHashIndex

namespace LoadBalancer

open Transition

section

variable [Platform]

namespace Selector

open BackendCHTraits (ringPositions)

/-- Backends without a common position have distinct texts: the first position of a backend is
    the hash of its text. -/
theorem nodup_names_of_ringPositions {replicas : Nat} {bs : List Backend}
    (hpos : (bs.flatMap (ringPositions replicas)).Nodup) : (bs.map Backend.toString).Nodup := by
  obtain ⟨-, hdisjoint⟩ := List.nodup_flatMap.mp hpos
  refine List.pairwise_map.mpr (hdisjoint.imp ?_)
  intro x y hxy hname
  have hx : Platform.hash x.toString ∈ ringPositions replicas x := List.mem_cons_self
  have hy : Platform.hash x.toString ∈ ringPositions replicas y := by
    rw [hname]
    exact List.mem_cons_self
  exact hxy hx hy

/-- Among fewer backends the first owner stays the first, if it is still there. -/
theorem FirstOwner.anti {replicas : Nat} {L M : Backend → Prop} {client : Endpoint} {b : Backend}
    (h : FirstOwner replicas L client b) (hsub : ∀ x, M x → L x) (hb : M b) :
    FirstOwner replicas M client b := by
  obtain ⟨p, hp, -, hleast⟩ := h
  refine ⟨p, hp, hb, hleast.anti ?_ ⟨b, hb, hp⟩⟩
  intro q hq
  obtain ⟨x, hx, hposition⟩ := hq
  exact ⟨x, hsub x hx, hposition⟩

end Selector

namespace System

open BackendCHTraits (ringPositions)
open Selector (FirstOwner)

/-- The next selection sends client `c` to `b`. -/
def SendsTo (sys : System) (c : Nat) (b : Backend) : Prop :=
  ∃ t client, sys.step (.client c .selects) = some t ∧ t.clients[c]? = some client ∧
    client.phase = .attempt b

theorem sendsTo_iff {sys : System} {c : Nat} {client : Client} {b : Backend}
    (hclient : sys.clients[c]? = some client) (hready : client.phase = .ready) :
    sys.SendsTo c b ↔ (sys.selector.selectBackend client.endpoint).1 = .returned b := by
  obtain ⟨hlt, -⟩ := List.getElem?_eq_some_iff.mp hclient
  have hstep : sys.step (.client c .selects) = some
      { selector := (Client.makeAndRunSession sys.selector client).1
        clients := sys.clients.set c (Client.makeAndRunSession sys.selector client).2 } := by
    simp [step, hclient, Client.step, hready]
  have hphase : sys.SendsTo c b ↔
      (Client.makeAndRunSession sys.selector client).2.phase = .attempt b := by
    constructor
    · intro h
      obtain ⟨t, after, ht, hafter, hb⟩ := h
      obtain rfl := Option.some.inj (hstep.symm.trans ht)
      rw [List.getElem?_set_self hlt] at hafter
      rw [Option.some.inj hafter]
      exact hb
    · intro h
      exact ⟨_, _, hstep, List.getElem?_set_self hlt, h⟩
  rw [hphase]
  rcases hselect : sys.selector.selectBackend client.endpoint with ⟨result, t⟩
  unfold Client.makeAndRunSession
  rw [hselect]
  cases result with
  | returned x =>
      constructor
      · intro h
        have hattempting := congrArg Phase.attempting h
        rw [Phase.attempting_attempt, Phase.attempting_attempt] at hattempting
        rw [Option.some.inj hattempting]
      · intro h
        rw [Outcome.returned.inj h]
  | thrown e => cases b <;> simp [Phase.attempt]
  | undefined => cases b <;> simp [Phase.attempt]

end System

namespace Selector

/-- A hash ring stays one, whatever is asked of it. -/
theorem consistentHash_uses {c : ConsistentHashSelector} {uses : List Use} {t : Selector}
    (hrun : Run UseStep (.consistentHash c) uses t) : ∃ d, t = .consistentHash d := by
  refine hrun.invariant (I := fun t => ∃ d, t = .consistentHash d) ?_ ⟨c, rfl⟩
  intro u use v hu hstep
  obtain ⟨d, rfl⟩ := hu
  rcases ring_useStep hstep with rfl | ⟨b, rfl⟩
  · exact ⟨d, rfl⟩
  · exact ⟨_, rfl⟩

end Selector

namespace System

open BackendCHTraits (ringPositions)
open Selector (FirstOwner)

variable [LawfulPairingHeap] [LawfulSort]

section

variable {replicas : Nat} {config : Node} {missed : String} {bs : List Backend} {s : Selector}

/-- The hash ring sends a client to the first of the configured backends without a refusal that the
    connector retries. -/
theorem sendsTo_iff_firstOwner (hr : 1 ≤ replicas) (hsize : replicas < 2 ^ 64)
    (h : Selector.configure .consistentHash replicas config = .ok s)
    (hbs : configuredBackends missed config = .ok bs)
    (hpos : (bs.flatMap (ringPositions replicas)).Nodup) {es : List Event} {sys : System}
    (hrun : Run (Steps step) (initial s) es sys) {c : Nat} {client : Client}
    (hclient : sys.clients[c]? = some client) (hready : client.phase = .ready) (b : Backend) :
    sys.SendsTo c b ↔
      FirstOwner replicas (fun x => x ∈ bs ∧ x ∉ (initial s).retriedRefusals es)
        client.endpoint b := by
  have hnames := Selector.nodup_names_of_ringPositions hpos
  obtain ⟨hapart, hholds⟩ := Selector.apart_configure hr hsize h hbs hnames fun _ => hpos
  have hheld : (fun x => sys.selector.Holds x) =
      fun x => x ∈ bs ∧ x ∉ (initial s).retriedRefusals es := by
    funext x
    rw [holds_unrefused hapart hholds hrun x]
  obtain ⟨c₀, rfl, -⟩ := Selector.consistentHash_configure hr hsize h hbs
  obtain ⟨ring, hring⟩ := Selector.consistentHash_uses (run_uses hrun)
  rw [sendsTo_iff hclient hready, ← hheld, hring]
  exact ((apart_run hapart hrun).ring ring hring).1.select_iff

/-- Where the hash ring sends a client depends on the retried refusals so far and on nothing else
    of the run, and further ones move a client only once one is by its own backend. -/
theorem attempts_sticky (hr : 1 ≤ replicas) (hsize : replicas < 2 ^ 64)
    (h : Selector.configure .consistentHash replicas config = .ok s)
    (hbs : configuredBackends missed config = .ok bs)
    (hpos : (bs.flatMap (ringPositions replicas)).Nodup) {es fs : List Event}
    {sys sys' : System} (hrun : Run (Steps step) (initial s) es sys)
    (hrun' : Run (Steps step) (initial s) fs sys') {c c' : Nat} {client client' : Client}
    (hclient : sys.clients[c]? = some client) (hready : client.phase = .ready)
    (hclient' : sys'.clients[c']? = some client') (hready' : client'.phase = .ready)
    (hsource : client'.endpoint = client.endpoint)
    (hmore : ∀ x ∈ (initial s).retriedRefusals es, x ∈ (initial s).retriedRefusals fs) :
    (∀ b, sys.SendsTo c b ↔
      FirstOwner replicas (fun x => x ∈ bs ∧ x ∉ (initial s).retriedRefusals es)
        client.endpoint b) ∧
    ∀ b, b ∉ (initial s).retriedRefusals fs → sys.SendsTo c b → sys'.SendsTo c' b := by
  have hsent := sendsTo_iff_firstOwner hr hsize h hbs hpos hrun hclient hready
  refine ⟨hsent, fun b hb hsends => ?_⟩
  have hfirst := (hsent b).mp hsends
  rw [sendsTo_iff_firstOwner hr hsize h hbs hpos hrun' hclient' hready', hsource]
  refine hfirst.anti ?_ ⟨hfirst.listed.1, hb⟩
  intro x hx
  exact ⟨hx.1, fun hrefused => hx.2 (hmore x hrefused)⟩

end

/-! ## The address hash -/

end System

namespace IpHashSelector

/-- The backends that are not among those that refused, in their order. -/
def unrefused (bs refused : List Backend) : List Backend :=
  bs.filter fun b => !refused.contains b

theorem unrefused_snoc (bs refused : List Backend) (b : Backend) :
    unrefused bs (refused ++ [b]) = (unrefused bs refused).filter fun x => x ≠ b := by
  unfold unrefused
  rw [List.filter_filter]
  refine List.filter_congr fun x _ => ?_
  simp [Bool.and_comm]

theorem unrefused_congr {refused refused' : List Backend} (h : ∀ x, x ∈ refused ↔ x ∈ refused')
    (bs : List Backend) : unrefused bs refused = unrefused bs refused' :=
  List.filter_congr fun x _ => by simp [h x]

/-- Uses take the excluded backends out of the vector, and leave the others as they are. -/
theorem backends_uses {bs : List Backend} {uses : List Use} {t : Selector}
    (hrun : Run Selector.UseStep (.ipHash ⟨bs⟩) uses t) :
    t = .ipHash ⟨unrefused bs (uses.filterMap Use.excluded)⟩ := by
  induction hrun with
  | nil => simp [unrefused]
  | @snoc t u uses use hrun hstep ih =>
      subst ih
      rw [List.filterMap_append]
      cases hused : use.excluded with
      | some b =>
          have hlast : [use].filterMap Use.excluded = [b] := by simp [hused]
          rw [Selector.eq_of_excluded hstep hused, hlast, unrefused_snoc]
          rfl
      | none =>
          have hlast : [use].filterMap Use.excluded = [] := by simp [hused]
          rw [hlast, List.append_nil]
          cases use with
          | call call =>
              cases call with
              | exclude b result => cases hused
              | select client result =>
                  obtain rfl : _ = u := congrArg Prod.snd hstep
                  exact congrArg Selector.ipHash (selectBackend_snd _ client)
          | _ => exact Eq.symm hstep

/-- A selection reads the vector at the place of the hash; nothing is there in an empty one. -/
theorem selectBackend_eq_returned {bs : List Backend} {client : Endpoint} {b : Backend} :
    (Selector.selectBackend client (.ipHash ⟨bs⟩)).1 = .returned b ↔
      bs[index client bs.length]? = some b := by
  show (selectBackend ⟨bs⟩ client).1 = .returned b ↔ _
  unfold selectBackend
  cases bs with
  | nil => simp
  | cons x rest => exact Outcome.access_eq_returned

end IpHashSelector

namespace System

open IpHashSelector (unrefused index)

/-- Where the address hash sends a client depends on the set of backends whose refusals the
    connector retried and on nothing else of the run. -/
theorem attempts_addressed {replicas : Nat} {config : Node} {missed : String} {bs : List Backend}
    {s : Selector} (h : Selector.configure .ipHash replicas config = .ok s)
    (hbs : configuredBackends missed config = .ok bs) {es fs : List Event} {sys sys' : System}
    (hrun : Run (Steps step) (initial s) es sys) (hrun' : Run (Steps step) (initial s) fs sys')
    {c c' : Nat} {client client' : Client} (hclient : sys.clients[c]? = some client)
    (hready : client.phase = .ready) (hclient' : sys'.clients[c']? = some client')
    (hready' : client'.phase = .ready) (hsource : client'.endpoint = client.endpoint)
    (hsame : ∀ x, x ∈ (initial s).retriedRefusals es ↔ x ∈ (initial s).retriedRefusals fs)
    (b : Backend) :
    (sys.SendsTo c b ↔
      (unrefused bs ((initial s).retriedRefusals es))[index client.endpoint
        (unrefused bs ((initial s).retriedRefusals es)).length]? = some b) ∧
      (sys.SendsTo c b ↔ sys'.SendsTo c' b) := by
  obtain ⟨ip, hip, rfl⟩ := Except.map_eq_ok.mp h
  obtain ⟨bs', hbs', rfl⟩ := IpHashSelector.configure_eq_ok hip
  obtain rfl := Except.ok.inj (hbs.symm.trans (hbs' missed))
  have hselector := IpHashSelector.backends_uses (run_uses hrun)
  have hselector' := IpHashSelector.backends_uses (run_uses hrun')
  rw [retriedRefusals_uses hrun] at hselector
  rw [retriedRefusals_uses hrun', ← IpHashSelector.unrefused_congr hsame] at hselector'
  have hsent : ∀ b, sys.SendsTo c b ↔
      (unrefused bs ((initial (.ipHash ⟨bs⟩)).retriedRefusals es))[index client.endpoint
        (unrefused bs ((initial (.ipHash ⟨bs⟩)).retriedRefusals es)).length]? = some b := by
    intro b
    rw [sendsTo_iff hclient hready, hselector]
    exact IpHashSelector.selectBackend_eq_returned
  refine ⟨hsent b, ?_⟩
  rw [hsent b, sendsTo_iff hclient' hready', hselector', hsource]
  exact IpHashSelector.selectBackend_eq_returned.symm

end System

end

namespace System

section

open Reference Selector

def oneAccepted : List Event := [.accepts somebody]

/-- The backend of another client refuses before the same client is accepted. -/
def otherRefused : List Event :=
  [.accepts ⟨localhost, Backend.narrowPort 8000⟩, .client 0 .selects,
    .client 0 (.connects .connectionRefused), .accepts somebody]

def afterOneAccepted : System :=
  (oneAccepted.foldlM step (initial twoRing)).getD (initial twoRing)

def afterOtherRefused : System :=
  (otherRefused.foldlM step (initial twoRing)).getD (initial twoRing)

theorem attempts_sticky_otherRefused :
    (initial twoRing).retriedRefusals otherRefused = [port81] ∧ afterOneAccepted.SendsTo 0 port80 ∧
      afterOtherRefused.SendsTo 1 port80 := by
  have h : configure .consistentHash 2 twoEntries = .ok twoRing := by rfl
  have hbs : configuredBackends "" twoEntries = .ok [port80, port81] := by rfl
  have hrun : Run (Steps step) (initial twoRing) oneAccepted afterOneAccepted :=
    .of_foldlM (by rfl)
  have hrun' : Run (Steps step) (initial twoRing) otherRefused afterOtherRefused :=
    .of_foldlM (by rfl)
  have hrefused : (initial twoRing).retriedRefusals otherRefused = [port81] := by rfl
  have hnone : (initial twoRing).retriedRefusals oneAccepted = [] := by rfl
  have hsent : afterOneAccepted.SendsTo 0 port80 := ⟨_, _, rfl, rfl, rfl⟩
  have hclient : afterOneAccepted.clients[0]? = some (.new somebody) := by rfl
  have hclient' : afterOtherRefused.clients[1]? = some (.new somebody) := by rfl
  obtain ⟨-, hkept⟩ := attempts_sticky (by decide) (by decide) h hbs (by decide) hrun hrun' hclient
    rfl hclient' rfl rfl (by simp [hnone])
  refine ⟨hrefused, hsent, hkept port80 ?_ hsent⟩
  rw [hrefused]
  decide

def twoHashed : Selector := .ipHash ⟨[port80, port81]⟩

/-- One attempt is refused. -/
def firstRefused : List Event :=
  [.accepts somebody, .client 0 .selects, .client 0 (.connects .connectionRefused)]

/-- Two attempts at one backend are refused before the same client is accepted again. -/
def bothRefused : List Event :=
  [.accepts somebody, .accepts somebody, .client 0 .selects, .client 1 .selects,
    .client 1 (.connects .connectionRefused), .client 0 (.connects .connectionRefused),
    .accepts somebody]

def afterFirstRefused : System :=
  (firstRefused.foldlM step (initial twoHashed)).getD (initial twoHashed)

def afterBothRefused : System :=
  (bothRefused.foldlM step (initial twoHashed)).getD (initial twoHashed)

theorem attempts_addressed_bothRefused :
    (initial twoHashed).retriedRefusals firstRefused = [port80] ∧
      (initial twoHashed).retriedRefusals bothRefused = [port80, port80] ∧
      afterFirstRefused.SendsTo 0 port81 ∧ afterBothRefused.SendsTo 2 port81 := by
  have h : configure .ipHash 1 twoEntries = .ok twoHashed := by rfl
  have hbs : configuredBackends "" twoEntries = .ok [port80, port81] := by rfl
  have hrun : Run (Steps step) (initial twoHashed) firstRefused afterFirstRefused :=
    .of_foldlM (by rfl)
  have hrun' : Run (Steps step) (initial twoHashed) bothRefused afterBothRefused :=
    .of_foldlM (by rfl)
  have honce : (initial twoHashed).retriedRefusals firstRefused = [port80] := by rfl
  have hboth : (initial twoHashed).retriedRefusals bothRefused = [port80, port80] := by rfl
  have hsent : afterFirstRefused.SendsTo 0 port81 := ⟨_, _, rfl, rfl, rfl⟩
  have hclient : afterFirstRefused.clients[0]? =
      some { Client.new somebody with attempts := [port80] } := by rfl
  have hclient' : afterBothRefused.clients[2]? = some (.new somebody) := by rfl
  obtain ⟨-, hsame⟩ := attempts_addressed h hbs hrun hrun' hclient rfl hclient' rfl rfl
    (by simp [honce, hboth]) port81
  exact ⟨honce, hboth, hsent, hsame.mp hsent⟩

end

end System

end LoadBalancer
