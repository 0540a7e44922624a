/-
  Which backends are held after a run, and why a client leaves a backend.

  * `holds_iff_not_refused`: over backends that the selector can tell apart, those held after a
    run are the configured ones without a refusal in it that the connector retries. An
    exclusion takes the backend that refused and no other, and nothing else takes one away. So
    a handler fails for want of backends only after a retried refusal of every configured one.
  * `history_run`: a client goes on to another backend only after a retried refusal of the last
    one, and its pending attempt or session is with the last.
-/
import LoadBalancer.Connector.Counters
import LoadBalancer.Connector.Uses

namespace LoadBalancer

open Transition

section

variable [Platform]

namespace Selector

open BackendCHTraits (ringPositions)

/-- The selector can tell the backends `bs` apart, and holds no others. -/
structure Apart (replicas : Nat) (bs : List Backend) (s : Selector) : Prop where
  inv : s.Inv
  addressable : s.Addressable
  names : (bs.map Backend.toString).Nodup
  ring : ∀ c, s = .consistentHash c →
    CanonicalRing replicas c.ring ∧ (bs.flatMap (ringPositions replicas)).Nodup
  held : ∀ y, s.Holds y → y ∈ bs

section Lawful

variable [LawfulPairingHeap]

theorem apart_configure [LawfulSort] {type : SelectorType} {replicas : Nat} {config : Node}
    {missed : String} {bs : List Backend} {s : Selector} (hr : 1 ≤ replicas)
    (hsize : replicas < 2 ^ 64) (h : configure type replicas config = .ok s)
    (hbs : configuredBackends missed config = .ok bs) (hnames : (bs.map Backend.toString).Nodup)
    (hpos : type = .consistentHash → (bs.flatMap (ringPositions replicas)).Nodup) :
    Apart replicas bs s ∧ ∀ b, s.Holds b ↔ b ∈ bs := by
  obtain ⟨htype, hs, bs', hbs', hholds, haddr⟩ := configure_spec h
  obtain rfl : bs = bs' := Except.ok.inj (hbs.symm.trans (hbs' missed))
  refine ⟨⟨hs, haddr.mpr ?_, hnames, fun c hc => ?_, fun y => (hholds y).mp⟩, hholds⟩
  · refine System.distinguishable_of_nodup hnames fun hring => ?_
    subst hring
    obtain ⟨-, -, -, hpositions⟩ := consistentHash_configure hr hsize h hbs
    rw [List.flatMap_congr hpositions]
    exact hpos rfl
  · subst hc
    obtain rfl : SelectorType.consistentHash = type := htype
    obtain ⟨c', hc', hring⟩ := canonicalRing_configure hr hsize h hbs (hpos rfl)
    cases hc'
    exact ⟨hring, hpos rfl⟩

/-- An exclusion of one of the backends takes that one. -/
theorem Apart.holds_excludeBackend {replicas : Nat} {bs : List Backend} {s : Selector}
    (hs : Apart replicas bs s) {x : Backend} (hx : x ∈ bs) (y : Backend) :
    (s.excludeBackend x).2.Holds y ↔ s.Holds y ∧ y ≠ x := by
  have hname : ∀ {y}, s.Holds y → (x.toString = y.toString ↔ y = x) := by
    intro y hy
    exact ⟨fun h => List.inj_on_of_nodup_map hs.names (hs.held y hy) hx h.symm, fun h => h ▸ rfl⟩
  cases s with
  | roundRobin s => exact RoundRobinSelector.mem_excludeBackend
  | ipHash s => exact IpHashSelector.mem_excludeBackend
  | weightedRoundRobin s =>
      have hnd : s.held.Nodup := hs.addressable
      show y ∈ (s.excludeBackend x).2.held ↔ y ∈ s.held ∧ y ≠ x
      rw [(WeightedRoundRobinSelector.excludeBackend_spec hs.inv x).1, hnd.mem_erase_iff, and_comm]
  | consistentHash c =>
      obtain ⟨hc, hpos⟩ := hs.ring c rfl
      refine hc.holds_eraseNode.trans (and_congr_right fun hy => not_congr ?_)
      have hown : Platform.hash x.toString ∈ ringPositions replicas x := List.mem_cons_self
      constructor
      · intro hp
        exact List.eq_of_nodup_flatMap hpos (hs.held y hy) hx hp hown
      · intro h
        exact h ▸ hown
  | leastConnections s =>
      refine (HeapPool.holds_excludeBackend_iff ⟨hs.inv, hs.addressable⟩).trans ?_
      exact and_congr_right fun hy => not_congr (hname hy)
  | leastResponseTime s =>
      refine (HeapPool.holds_excludeBackend_iff ⟨hs.inv, hs.addressable⟩).trans ?_
      exact and_congr_right fun hy => not_congr (hname hy)

omit [LawfulPairingHeap] in
/-- What is held can be selected. -/
theorem Apart.selectable {replicas : Nat} {bs : List Backend} {s : Selector}
    (hs : Apart replicas bs s) {b : Backend} (hb : s.Holds b) : s.Selectable b := by
  cases s with
  | consistentHash c => exact Router.onRing_of_canonical (hs.ring c rfl).1.canonical hb
  | _ => exact hb

omit [LawfulPairingHeap] in
/-- A use that excludes a backend is a call of `ExcludeBackend`. -/
theorem eq_of_excluded {s t : Selector} {use : Use} {b : Backend} (h : UseStep s use t)
    (hused : use.excluded = some b) : t = (s.excludeBackend b).2 := by
  cases use with
  | call call =>
      cases call with
      | select client result => simp [Use.excluded] at hused
      | exclude x result =>
          obtain rfl : x = b := Option.some.inj hused
          exact (congrArg Prod.snd h).symm
  | _ => cases hused

/-- A use that excludes nothing changes scheduling state only. -/
theorem sameBackends_useStep {s t : Selector} {use : Use} (hs : s.Inv) (h : UseStep s use t)
    (hexcluded : use.excluded = none) : SameBackends s t := by
  cases use with
  | call call =>
      cases call with
      | select client result =>
          obtain rfl : _ = t := congrArg Prod.snd h
          exact sameBackends_selectBackend hs client
      | exclude b result => cases hexcluded
  | increaseConnectionCount b =>
      obtain rfl : _ = t := h
      exact sameBackends_increaseConnectionCount s b
  | decreaseConnectionCount b =>
      obtain rfl : _ = t := h
      exact sameBackends_decreaseConnectionCount s b
  | addResponseTime b r =>
      obtain rfl : _ = t := h
      exact sameBackends_addResponseTime s b r

omit [LawfulPairingHeap] in
/-- A use of a hash ring leaves it, or erases a node. -/
theorem ring_useStep {c : ConsistentHashSelector} {use : Use} {t : Selector}
    (h : UseStep (.consistentHash c) use t) :
    t = .consistentHash c ∨ ∃ b, t = .consistentHash ⟨c.ring.eraseNode BackendCHTraits.traits b⟩ := by
  cases use with
  | call call => exact consistentHash_callStep h
  | _ =>
      obtain rfl : _ = t := h
      exact Or.inl rfl

theorem apart_useStep {replicas : Nat} {bs : List Backend} {s t : Selector} {use : Use}
    (hs : Apart replicas bs s) (h : UseStep s use t) : Apart replicas bs t := by
  have hlater : Later s t := by
    cases hused : use.excluded with
    | none => exact (sameBackends_useStep hs.inv h hused).later hs.inv
    | some b =>
        cases use with
        | call call => exact later_callStep hs.inv h
        | _ => cases hused
  refine ⟨hlater.inv, hlater.addressable hs.addressable, hs.names, fun c hc => ?_,
    fun y hy => hs.held y (hlater.holds y hy)⟩
  subst hc
  cases s with
  | consistentHash d =>
      obtain ⟨hring, hpos⟩ := hs.ring d rfl
      rcases ring_useStep h with hsame | ⟨b, herased⟩
      · cases hsame
        exact ⟨hring, hpos⟩
      · cases herased
        exact ⟨hring.eraseNode b, hpos⟩
  | _ => cases hlater.type

/-- Uses take away the backends that they exclude, and no others. -/
theorem holds_run {replicas : Nat} {bs : List Backend} {s t : Selector} {uses : List Use}
    (hs : Apart replicas bs s) (hrun : Run UseStep s uses t)
    (hexcluded : ∀ x ∈ uses.filterMap Use.excluded, x ∈ bs) (y : Backend) :
    t.Holds y ↔ s.Holds y ∧ y ∉ uses.filterMap Use.excluded := by
  induction hrun with
  | nil => simp
  | @snoc t u uses use hrun hstep ih =>
      have ht : Apart replicas bs t := hrun.invariant (fun _ _ _ hu hstep => apart_useStep hu hstep) hs
      rw [List.filterMap_append] at hexcluded ⊢
      have hold := ih fun x hx => hexcluded x (List.mem_append_left _ hx)
      cases hused : use.excluded with
      | none =>
          rw [(sameBackends_useStep ht.inv hstep hused).holds y, hold]
          simp [hused]
      | some x =>
          have hx : x ∈ bs := hexcluded x (List.mem_append_right _ (by simp [hused]))
          rw [eq_of_excluded hstep hused, ht.holds_excludeBackend hx y, hold]
          simp [hused, and_assoc]

end Lawful

end Selector

/-! ## Refusals that the connector retries -/

theorem Phase.attempt_ne_ready {b : Backend} : attempt b ≠ .ready := by
  cases b <;> simp [attempt]

theorem Phase.after_session_ne_ready {result : Outcome Unit} {b : Backend} {v : Visitor}
    {state : SessionState} : after result (.session b v state) ≠ .ready := by
  cases result <;> simp [after]

namespace Client

theorem attempting_of_retriedRefusal {client : Client} {e : ClientEvent} {b : Backend}
    (h : client.retriedRefusal e = some b) : client.phase.attempting = some b := by
  unfold retriedRefusal at h
  split at h
  · split at h
    · next url hurl =>
      rw [hurl]
      exact h
    · cases h
  · split at h
    · next ep hep =>
      rw [hep]
      exact h
    · cases h
  · cases h

theorem step_of_retriedRefusal {s : Selector} {client : Client} {e : ClientEvent} {b : Backend}
    (h : client.retriedRefusal e = some b) :
    client.step s e = some (excludeAndRetry s client b) := by
  unfold retriedRefusal at h
  split at h
  · split at h
    · next url hurl =>
      obtain rfl := Option.some.inj h
      simp only [step, hurl]
    · cases h
  · split at h
    · next ep hep =>
      obtain rfl := Option.some.inj h
      simp only [step, hep]
    · cases h
  · cases h

/-- Only a retried refusal makes a client ready to select again. -/
theorem retriedRefusal_of_ready {s t : Selector} {client client' : Client} {e : ClientEvent}
    (h : client.step s e = some (t, client')) (hready : client'.phase = .ready) :
    ∃ b, client.retriedRefusal e = some b := by
  cases hrefusal : client.retriedRefusal e with
  | some b => exact ⟨b, rfl⟩
  | none =>
      exfalso
      cases e with
      | selects =>
          simp only [step, makeAndRunSession] at h
          split at h
          · split at h
            all_goals cases h
            · exact Phase.attempt_ne_ready hready
            · cases hready
            · cases hready
          · cases h
      | resolves ec =>
          simp only [step] at h
          split at h
          · next url hurl =>
            cases ec with
            | connectionRefused => simp [retriedRefusal, hurl] at hrefusal
            | _ =>
                cases h
                cases hready
          · cases h
      | connects ec =>
          simp only [step] at h
          split at h
          · next ep hep =>
            cases ec with
            | connectionRefused => simp [retriedRefusal, hep] at hrefusal
            | success =>
                cases h
                exact Phase.after_session_ne_ready hready
            | other value =>
                cases h
                cases hready
          · next url hurl =>
            cases ec with
            | success =>
                cases h
                exact Phase.after_session_ne_ready hready
            | _ =>
                cases h
                cases hready
          · cases h
      | completes ec now =>
          simp only [step] at h
          split at h
          · next b v op running =>
            have hphase := congrArg (fun p => p.2.phase) (Option.some.inj h)
            exact Phase.after_session_ne_ready (hphase.trans hready)
          · cases h
      | destroys =>
          simp only [step] at h
          split at h
          · next b v cancelled =>
            have hphase := congrArg (fun p => p.2.phase) (Option.some.inj h)
            exact Phase.after_session_ne_ready (hphase.trans hready)
          · cases h

/-- What a client's history tells, where the refusals by the backends `refused` were retried. -/
structure History (refused : List Backend) (client : Client) : Prop where
  left : ∀ b ∈ client.attempts.dropLast, b ∈ refused
  ready : client.phase = .ready → ∀ b ∈ client.attempts, b ∈ refused
  last : ∀ b, client.phase.backend = some b → client.attempts.getLast? = some b

theorem history_new (refused : List Backend) (endpoint : Endpoint) :
    History refused (new endpoint) := by
  refine ⟨by simp [new], by simp [new], fun b hb => by cases hb⟩

theorem History.mono {refused : List Backend} {client : Client} (h : History refused client)
    (more : List Backend) : History (refused ++ more) client where
  left b hb := List.mem_append_left _ (h.left b hb)
  ready hready b hb := List.mem_append_left _ (h.ready hready b hb)
  last := h.last

/-- A step that keeps the attempts and the backend, and leaves the client not ready. -/
theorem History.keep {refused : List Backend} {client client' : Client} (h : History refused client)
    (hattempts : client'.attempts = client.attempts) (hready : client'.phase ≠ .ready)
    (hbackend : ∀ b, client'.phase.backend = some b → client.phase.backend = some b) :
    History refused client' := by
  refine ⟨?_, fun hphase => absurd hphase hready, fun b hb => ?_⟩
  · rw [hattempts]
    exact h.left
  · rw [hattempts]
    exact h.last b (hbackend b hb)

theorem history_refused {refused : List Backend} {client : Client} {b : Backend}
    (h : History refused client) (hb : client.phase.backend = some b) (result : Outcome Unit) :
    History (refused ++ [b]) { client with phase := .after result .ready } := by
  refine ⟨fun x hx => List.mem_append_left _ (h.left x hx), fun _ x hx => ?_, fun x hx => ?_⟩
  · -- it is the last attempt, or it was left before
    have hsplit := List.dropLast_append_getLast? b (h.last b hb)
    rw [← hsplit] at hx
    rcases List.mem_append.mp hx with hx | hx
    · exact List.mem_append_left _ (h.left x hx)
    · exact List.mem_append_right _ hx
  · cases Phase.backend_after hx

theorem history_step {refused : List Backend} {s t : Selector} {client client' : Client}
    {e : ClientEvent} (hold : History refused client)
    (h : client.step s e = some (t, client')) :
    History (refused ++ (client.retriedRefusal e).toList) client' := by
  cases hrefusal : client.retriedRefusal e with
  | some b =>
      rw [step_of_retriedRefusal hrefusal] at h
      obtain rfl : _ = client' := congrArg Prod.snd (Option.some.inj h)
      have hbackend := Phase.backend_of_attempting (attempting_of_retriedRefusal hrefusal)
      exact history_refused hold hbackend _
  | none =>
      have hready : client'.phase ≠ .ready := by
        intro hready
        obtain ⟨b, hb⟩ := retriedRefusal_of_ready h hready
        rw [hrefusal] at hb
        cases hb
      rw [Option.toList_none, List.append_nil]
      cases stepCase_of_step h with
      | @selected b ready =>
          refine ⟨?_, fun hphase => absurd hphase hready, fun x hx => ?_⟩
          · simpa using hold.ready ready
          · have hb := Phase.backend_of_attempting (Phase.attempting_attempt b)
            simpa using hb.symm.trans hx
      | unselected ready unselected halted =>
          refine hold.keep rfl hready fun x hx => ?_
          rcases halted with rfl | ⟨e, -, rfl⟩ <;> cases hx
      | refused => exact hold.keep rfl hready fun x hx => by cases Phase.backend_after hx
      | resolved resolving =>
          refine hold.keep rfl hready fun x hx => ?_
          rw [resolving]
          exact hx
      | connected attempting =>
          refine hold.keep rfl hready fun x hx => ?_
          rw [Phase.backend_of_attempting attempting]
          exact Phase.backend_after hx
      | dropped attempting =>
          refine hold.keep rfl hready fun x hx => ?_
          rw [Phase.backend_of_attempting attempting]
          exact hx
      | handled running =>
          refine hold.keep rfl hready fun x hx => ?_
          have hb := Phase.backend_after hx
          rw [running]
          exact hb
      | destroyed cancelled =>
          refine hold.keep rfl hready fun x hx => ?_
          have hb := Phase.backend_after hx
          rw [cancelled]
          exact hb

end Client

namespace System

open BackendCHTraits (ringPositions)

theorem retriedRefusals_snoc {sys t : System} {es : List Event} (hrun : Run (Steps step) sys es t)
    (e : Event) : sys.retriedRefusals (es ++ [e]) =
      sys.retriedRefusals es ++ (t.retriedRefusal e).toList :=
  observations_snoc hrun e

/-- In every run, each client has left the backends before its last attempt after refusals that
    the connector retries, and its pending attempt or session is with the last. -/
theorem history_run {s : Selector} {es : List Event} {t : System}
    (hrun : Run (Steps step) (initial s) es t) :
    ∀ client ∈ t.clients, Client.History ((initial s).retriedRefusals es) client := by
  induction hrun with
  | nil => simp [initial]
  | @snoc u v es e hrun hstep ih =>
      intro client hmem
      rw [retriedRefusals_snoc hrun]
      cases e with
      | accepts endpoint =>
          rw [step_accepts hstep] at hmem
          rcases List.mem_append.mp hmem with hmem | hmem
          · exact (ih client hmem).mono _
          · rw [List.mem_singleton.mp hmem]
            exact Client.history_new _ endpoint
      | client c ce =>
          obtain ⟨old, hold, hrest⟩ := Option.bind_eq_some_iff.mp hstep
          obtain ⟨⟨sel, new⟩, hnew, hv⟩ := Option.bind_eq_some_iff.mp hrest
          obtain rfl := Option.some.inj hv
          rcases List.mem_or_eq_of_mem_set hmem with hmem | rfl
          · exact (ih client hmem).mono _
          · simp only [retriedRefusal, hold, Option.bind_some]
            exact Client.history_step (ih old (List.mem_of_getElem? hold)) hnew

variable [LawfulPairingHeap]

/-- Retried refusals come only from backends that the first selector held. -/
theorem holds_of_mem_retriedRefusals {s : Selector} (hs : s.Inv) {es : List Event} {t : System}
    (hrun : Run (Steps step) (initial s) es t) :
    ∀ x ∈ (initial s).retriedRefusals es, s.Holds x := by
  induction hrun with
  | nil => simp [retriedRefusals, observations]
  | @snoc u v es e hrun hstep ih =>
      intro x hx
      rw [retriedRefusals_snoc hrun] at hx
      rcases List.mem_append.mp hx with hx | hx
      · exact ih x hx
      · cases e with
        | accepts endpoint => cases hx
        | client c ce =>
            obtain ⟨client, hclient, hrefusal⟩ := Option.bind_eq_some_iff.mp (Option.mem_toList.mp hx)
            have hbackend :=
              Phase.backend_of_attempting (Client.attempting_of_retriedRefusal hrefusal)
            exact holds_backend_run (inv_initial hs) (by simp [initial]) hrun client
              (List.mem_of_getElem? hclient) x hbackend

section

variable {replicas : Nat} {bs : List Backend} {s : Selector} {es : List Event} {t : System}

/-- Over backends that the selector can tell apart, those of the retried refusals are gone, and
    no others. -/
theorem holds_unrefused (hapart : Selector.Apart replicas bs s) (hholds : ∀ b, s.Holds b ↔ b ∈ bs)
    (hrun : Run (Steps step) (initial s) es t) (b : Backend) :
    t.selector.Holds b ↔ b ∈ bs ∧ b ∉ (initial s).retriedRefusals es := by
  have hexcluded : ∀ x ∈ ((initial s).uses es).filterMap Use.excluded, x ∈ bs := by
    rw [retriedRefusals_uses hrun]
    exact fun x hx => (hholds x).mp (holds_of_mem_retriedRefusals hapart.inv hrun x hx)
  rw [Selector.holds_run hapart (run_uses hrun) hexcluded b, retriedRefusals_uses hrun]
  exact and_congr_left fun _ => hholds b

theorem apart_run (hapart : Selector.Apart replicas bs s)
    (hrun : Run (Steps step) (initial s) es t) : Selector.Apart replicas bs t.selector :=
  (run_uses hrun).invariant (fun _ _ _ hu hstep => Selector.apart_useStep hu hstep) hapart

/-- A handler fails only where nothing is left to select. -/
theorem refused_of_halted (hapart : Selector.Apart replicas bs s)
    (hholds : ∀ b, s.Holds b ↔ b ∈ bs) (hrun : Run (Steps step) (initial s) es t)
    {client : Client} (hmem : client ∈ t.clients) (hhalted : client.Halted) {b : Backend}
    (hb : b ∈ bs) : b ∈ (initial s).retriedRefusals es := by
  by_contra hnot
  have hheld := (holds_unrefused hapart hholds hrun b).mpr ⟨hb, hnot⟩
  have hnone : (initial s).HaltedWithoutBackend := by simp [HaltedWithoutBackend, initial]
  exact haltedWithoutBackend_run (inv_initial hapart.inv) hnone hrun client hmem hhalted b
    ((apart_run hapart hrun).selectable hheld)

end

/-- After any run over backends that the selector can tell apart, those held are the configured
    ones that have refused no attempt that the connector retries; and a handler has failed only
    if all of them have. -/
theorem holds_iff_not_refused [LawfulSort] {type : SelectorType} {replicas : Nat} {config : Node}
    {missed : String} {bs : List Backend} {s : Selector} {es : List Event} {t : System}
    (hr : 1 ≤ replicas) (hsize : replicas < 2 ^ 64)
    (h : Selector.configure type replicas config = .ok s)
    (hbs : configuredBackends missed config = .ok bs) (hnames : (bs.map Backend.toString).Nodup)
    (hpos : type = .consistentHash → (bs.flatMap (ringPositions replicas)).Nodup)
    (hrun : Run (Steps step) (initial s) es t) :
    (∀ b, t.selector.Holds b ↔ b ∈ bs ∧ b ∉ (initial s).retriedRefusals es) ∧
      ∀ client ∈ t.clients, client.Halted → ∀ b ∈ bs, b ∈ (initial s).retriedRefusals es := by
  obtain ⟨hapart, hholds⟩ := Selector.apart_configure hr hsize h hbs hnames hpos
  refine ⟨holds_unrefused hapart hholds hrun, fun client hmem hhalted b hb => ?_⟩
  exact refused_of_halted hapart hholds hrun hmem hhalted hb

end System

end

namespace System

section

open Reference Selector

/-- A client is refused by its first backend, another one is dropped by its own. -/
def oneRefused : List Event :=
  [.accepts somebody, .client 0 .selects, .accepts somebody, .client 1 .selects,
    .client 0 (.connects .connectionRefused), .client 1 (.connects (.other 113)),
    .client 0 .selects]

def afterOneRefused : System :=
  (oneRefused.foldlM step (initial twoCounted)).getD (initial twoCounted)

theorem run_oneRefused : Run (Steps step) (initial twoCounted) oneRefused afterOneRefused :=
  .of_foldlM (by rfl)

theorem history_oneRefused :
    afterOneRefused.clients.map Client.attempts = [[port80, port81], [port81]] ∧
      ∀ client ∈ afterOneRefused.clients,
        Client.History ((initial twoCounted).retriedRefusals oneRefused) client :=
  ⟨by rfl, history_run run_oneRefused⟩

theorem holds_iff_not_refused_oneRefused :
    (initial twoCounted).retriedRefusals oneRefused = [port80] ∧
      (∀ b, afterOneRefused.selector.Holds b ↔
        b ∈ [port80, port81] ∧ b ∉ (initial twoCounted).retriedRefusals oneRefused) ∧
      ∀ client ∈ afterOneRefused.clients, client.Halted →
        ∀ b ∈ [port80, port81], b ∈ (initial twoCounted).retriedRefusals oneRefused := by
  have h : configure .leastConnections 1 twoEntries = .ok twoCounted := by rfl
  have hbs : configuredBackends "" twoEntries = .ok [port80, port81] := by rfl
  have hnames : ([port80, port81].map Backend.toString).Nodup := by decide
  exact ⟨by rfl, holds_iff_not_refused (by decide) (by decide) h hbs hnames (fun h => by cases h)
    run_oneRefused⟩

end

end System

end LoadBalancer
