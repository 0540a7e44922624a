/-
  Failover: what the connector does when a backend refuses, and how often a client retries.

  * `failover_iff`: a refused TCP connect excludes the backend and selects again exactly for IP
    endpoints; a client is left without a session only after another error or an exhausted
    selector, in exactly the runs without a refused connect to a resolved URL.
  * `attempts_bounded`: with distinguishable backends a client tries each backend once at most.
    The connector refines `Failover`, where a candidate is live while it can be selected.
-/
import LoadBalancer.Connector.System
import LoadBalancer.Lib.Failover
import LoadBalancer.Lib.ListSet

namespace LoadBalancer

open Transition

section

variable [Platform]

/-! ## Refused connections -/

/-- The backend whose TCP connect is pending. -/
def Phase.tcpConnecting : Phase → Option Backend
  | .connecting ep => some (.endpoint ep)
  | .connectingResolved url => some (.url url)
  | _ => none

namespace Client

/-- A refused connect calls `ExcludeBackend` for the backend and, unless that throws, the client
    is before `MakeAndRunSession` again, with the same socket. -/
def FailsOver (s : Selector) (client : Client) (backend : Backend) : Prop :=
  client.step s (.connects .connectionRefused) = some ((s.excludeBackend backend).2,
    { client with phase := .after (s.excludeBackend backend).1 .ready })

theorem failsOver_iff {s : Selector} {client : Client} {b : Backend}
    (h : client.phase.tcpConnecting = some b) :
    FailsOver s client b ↔ b.isIpEndpoint = true := by
  unfold FailsOver
  cases hphase : client.phase with
  | connecting ep =>
      rw [hphase] at h
      obtain rfl : Backend.endpoint ep = b := Option.some.inj h
      simp [step, hphase, Backend.isIpEndpoint, excludeAndRetry]
  | connectingResolved url =>
      rw [hphase] at h
      obtain rfl : Backend.url url = b := Option.some.inj h
      have hdropped : ∀ result : Outcome Unit,
          Phase.dropped (.url url) .connectionRefused ≠ .after result .ready := by
        intro result
        cases result <;> simp [Phase.after]
      simp [step, hphase, Backend.isIpEndpoint, hdropped]
  | _ => rw [hphase] at h; cases h

end Client

namespace Client

/-- The client was left after its backend refused the connection. -/
def RefusedDropped (client : Client) : Prop :=
  ∃ b, client.phase = .dropped b .connectionRefused

/-- A step drops a client after a refusal exactly when it is a refused connect to a resolved
    URL; a dropped client makes no step. -/
theorem refusedDropped_stepCase {s t : Selector} {client client' : Client} {e : ClientEvent}
    (h : StepCase s client e t client') : ¬ client.RefusedDropped ∧
      (client'.RefusedDropped ↔
        e = .connects .connectionRefused ∧ ∃ url, client.phase = .connectingResolved url) := by
  have hattempting : ∀ b, client.phase.attempting = some b → ¬ client.RefusedDropped := by
    intro b hb hex
    obtain ⟨b', h⟩ := hex
    simp [h, Phase.attempting] at hb
  cases h with
  | @selected b ready => cases b <;> simp [RefusedDropped, ready, Phase.attempt]
  | unselected ready _ halted =>
      rcases halted with rfl | ⟨e, -, rfl⟩ <;> simp [RefusedDropped, ready]
  | @refused e b attempting retried =>
      refine ⟨hattempting b attempting, ?_⟩
      constructor
      · simp [RefusedDropped]
      · intro hex
        obtain ⟨rfl, url, hurl⟩ := hex
        simp [Client.retried, hurl] at retried
  | resolved resolving => simp [RefusedDropped, resolving]
  | @connected b attempting =>
      refine ⟨hattempting b attempting, ?_⟩
      simp [RefusedDropped, runSession, notify]
  | @dropped e b ec attempting notRetried refused =>
      refine ⟨hattempting b attempting, ?_⟩
      rw [← refused]
      simp [RefusedDropped]
  | handled running => simp [RefusedDropped, notify, running]
  | destroyed cancelled => simp [RefusedDropped, notify, cancelled]

end Client

namespace System

/-- No pending connect to a resolved URL is refused. -/
def noUrlRefused (sys : System) : Event → Prop
  | .client c e =>
    ¬ (e = .connects .connectionRefused ∧
      ∃ client url, sys.clients[c]? = some client ∧ client.phase = .connectingResolved url)
  | .accepts _ => True

def RefusedDropped (sys : System) : Prop :=
  ∃ client ∈ sys.clients, client.RefusedDropped

theorem refusedDropped_step {sys t : System} {e : Event} (h : sys.step e = some t) :
    t.RefusedDropped ↔ sys.RefusedDropped ∨ ¬ sys.noUrlRefused e := by
  cases e with
  | accepts endpoint =>
      rw [step_accepts h]
      simp [RefusedDropped, Client.RefusedDropped, Client.new, noUrlRefused, or_and_right,
        exists_or]
  | client c e =>
      obtain ⟨client, s, client', hclient, hcase, rfl⟩ := step_client h
      obtain ⟨hold, hnew⟩ := Client.refusedDropped_stepCase hcase
      have hurl : ¬ sys.noUrlRefused (.client c e) ↔
          e = .connects .connectionRefused ∧ ∃ url, client.phase = .connectingResolved url := by
        simp [noUrlRefused, hclient]
      rw [hurl, ← hnew, or_comm]
      exact List.exists_mem_set hclient hold

/-- A run drops no client after a refusal exactly when it refuses no connect to a resolved
    URL. -/
theorem not_refusedDropped_iff {sys t : System} {es : List Event}
    (hsys : ¬ sys.RefusedDropped) (hrun : Run (Steps step) sys es t) :
    ¬ t.RefusedDropped ↔ Run (Under noUrlRefused (Steps step)) sys es t := by
  constructor
  · intro ht
    induction hrun with
    | nil => exact .nil _
    | snoc hrun hstep ih =>
        rw [refusedDropped_step hstep, not_or, not_not] at ht
        exact .snoc (ih ht.1) ⟨ht.2, hstep⟩
  · intro hunder
    have hkeeps : ∀ (u : System) e v, ¬ u.RefusedDropped →
        Under noUrlRefused (Steps step) u e v → ¬ v.RefusedDropped := by
      intro u e v hu hstep
      rw [refusedDropped_step hstep.2, not_or, not_not]
      exact ⟨hu, hstep.1⟩
    exact hunder.invariant hkeeps hsys

end System

/-! ## Handlers that fail -/

namespace Client

/-- An exception left the client's handler, or it ran into undefined behaviour. -/
def Halted (client : Client) : Prop :=
  client.phase = .undefined ∨ ∃ e, client.phase = .failed e

variable [LawfulPairingHeap]

/-- A handler fails only when it leaves a selector with nothing to select. -/
theorem not_selectable_of_halted {s t : Selector} {client client' : Client} {e : ClientEvent}
    (hs : s.Inv) (hclient : client.WellFormed s.type) (h : StepCase s client e t client')
    (hhalted : client'.Halted) (b : Backend) : ¬ t.Selectable b := by
  intro hb
  cases h with
  | @selected x ready => cases x <;> simp [Halted, Phase.attempt] at hhalted
  | unselected ready unselected =>
      have hbefore := ((Selector.sameBackends_selectBackend hs client.endpoint).selectable b).mp hb
      obtain ⟨x, hx⟩ := Selector.selectBackend_returns hs hbefore client.endpoint
      exact unselected x hx
  | refused attempting retried =>
      rw [Halted, Selector.excludeBackend_returns hs hb] at hhalted
      simp [Phase.after] at hhalted
  | resolved => simp [Halted] at hhalted
  | connected =>
      rw [Halted, runSession, notify_eq hs (Visitor.belongsTo_make _ _)] at hhalted
      simp at hhalted
  | dropped => simp [Halted] at hhalted
  | handled running =>
      rw [Halted, notify_eq hs (hclient _ _ _ running)] at hhalted
      simp at hhalted
  | destroyed cancelled =>
      rw [Halted, notify_eq hs (hclient _ _ _ cancelled)] at hhalted
      simp at hhalted

end Client

namespace System

/-- A client whose handler failed came upon a selector with nothing to select. -/
def HaltedWithoutBackend (sys : System) : Prop :=
  ∀ client ∈ sys.clients, client.Halted → ∀ b, ¬ sys.selector.Selectable b

variable [LawfulPairingHeap]

theorem haltedWithoutBackend_step {sys t : System} {e : Event} (hsys : sys.Inv)
    (hhalted : sys.HaltedWithoutBackend) (h : sys.step e = some t) : t.HaltedWithoutBackend := by
  have hlater := later_step hsys h
  refine forall_clients_step h ?_ (fun endpoint => ?_) ?_
  · intro client hmem hc b hb
    exact hhalted client hmem hc b (hlater.selectable b hb)
  · simp [Client.Halted, Client.new]
  · intro c ce client client' _ hclient hcase
    have hwf := hsys.clients client (List.mem_of_getElem? hclient)
    exact Client.not_selectable_of_halted hsys.selector hwf hcase

theorem haltedWithoutBackend_run {sys t : System} {es : List Event} (hsys : sys.Inv)
    (hhalted : sys.HaltedWithoutBackend) (hrun : Run (Steps step) sys es t) :
    t.HaltedWithoutBackend := by
  induction hrun with
  | nil => exact hhalted
  | snoc hrun hstep ih => exact haltedWithoutBackend_step (inv_run hsys hrun) ih hstep

end System

/-! ## Clients left without a session -/

namespace Phase

/-- A client is served: after its last event, or before the first one, it is about to select, the
    operation that the event started is pending, or it has a session. -/
def Served : Option ClientEvent → Phase → Prop
  | none, phase => phase = .ready
  | some .selects, phase => ∃ b, phase = .attempt b
  | some (.resolves .success), phase => ∃ url, phase = .connectingResolved url
  | some (.connects .success), phase => ∃ b v state, phase = .session b v state
  -- no operation is pending after a refusal, so only a further selection helps
  | some (.resolves .connectionRefused), phase => phase = .ready
  | some (.connects .connectionRefused), phase => phase = .ready
  | some (.completes _ _), phase => ∃ b v state, phase = .session b v state
  | some .destroys, phase => ∃ b v state, phase = .session b v state
  | some (.resolves (.other _)), _ => False
  | some (.connects (.other _)), _ => False

/-- The last event was another error than a refused connection, and its handler returned. -/
def GaveUp (last : Option ClientEvent) (phase : Phase) : Prop :=
  ∃ b value, phase = .dropped b (.other value) ∧
    (last = some (.resolves (.other value)) ∨ last = some (.connects (.other value)))

end Phase

namespace Client

/-- What a client can be after its last event. -/
def Settled (last : Option ClientEvent) (phase : Phase) : Prop :=
  phase.Served last ∨ phase.GaveUp last ∨ (phase = .undefined ∨ ∃ e, phase = .failed e) ∨
    ∃ b, phase = .dropped b .connectionRefused

theorem settled_after {last : Option ClientEvent} {next : Phase} (h : next.Served last)
    (result : Outcome Unit) : Settled last (.after result next) := by
  cases result with
  | returned => exact Or.inl h
  | thrown e => exact Or.inr (Or.inr (Or.inl (Or.inr ⟨e, rfl⟩)))
  | undefined => exact Or.inr (Or.inr (Or.inl (Or.inl rfl)))

theorem settled_excludeAndRetry {e : ClientEvent} (he : Phase.ready.Served (some e)) (s : Selector)
    (client : Client) (b : Backend) : Settled (some e) (excludeAndRetry s client b).2.phase :=
  settled_after he _

theorem settled_notify {e : ClientEvent}
    (he : ∀ b v state, (Phase.session b v state).Served (some e)) (s : Selector) (client : Client)
    (b : Backend) (v : Visitor) (call : Notification × SessionState) (now : Int) :
    Settled (some e) (notify s client b v call now).2.phase :=
  settled_after (he _ _ _) _

theorem settled_step {s t : Selector} {client client' : Client} {e : ClientEvent}
    (h : client.step s e = some (t, client')) : Settled (some e) client'.phase := by
  have hsession : ∀ b v state, ∃ b' v' state',
      Phase.session b v state = .session b' v' state' := fun b v state => ⟨b, v, state, rfl⟩
  cases e with
  | selects =>
      simp only [step, makeAndRunSession] at h
      split at h
      · split at h
        all_goals cases h
        · next _ _ b _ => exact Or.inl ⟨b, rfl⟩
        · next _ _ e _ => exact Or.inr (Or.inr (Or.inl (Or.inr ⟨e, rfl⟩)))
        · exact Or.inr (Or.inr (Or.inl (Or.inl rfl)))
      · cases h
  | resolves ec =>
      simp only [step] at h
      split at h
      · next url _ =>
        cases ec with
        | success =>
            cases h
            exact Or.inl ⟨url, rfl⟩
        | connectionRefused =>
            cases h
            exact settled_excludeAndRetry (by rfl) s client _
        | other value =>
            cases h
            exact Or.inr (Or.inl ⟨_, value, rfl, Or.inl rfl⟩)
      · cases h
  | connects ec =>
      simp only [step] at h
      split at h
      · next ep _ =>
        cases ec with
        | success =>
            cases h
            exact settled_notify (by exact hsession) s client _ _ _ _
        | connectionRefused =>
            cases h
            exact settled_excludeAndRetry (by rfl) s client _
        | other value =>
            cases h
            exact Or.inr (Or.inl ⟨_, value, rfl, Or.inr rfl⟩)
      · next url _ =>
        cases ec with
        | success =>
            cases h
            exact settled_notify (by exact hsession) s client _ _ _ _
        | connectionRefused =>
            cases h
            exact Or.inr (Or.inr (Or.inr ⟨_, rfl⟩))
        | other value =>
            cases h
            exact Or.inr (Or.inl ⟨_, value, rfl, Or.inr rfl⟩)
      · cases h
  | completes ec now =>
      simp only [step] at h
      split at h
      · have hphase := congrArg (fun p => p.2.phase) (Option.some.inj h)
        exact hphase ▸ settled_notify (by exact hsession) s client _ _ _ _
      · cases h
  | destroys =>
      simp only [step] at h
      split at h
      · have hphase := congrArg (fun p => p.2.phase) (Option.some.inj h)
        exact hphase ▸ settled_notify (by exact hsession) s client _ _ _ _
      · cases h

/-- A client dropped after a refusal is not served, and it met no other error. -/
theorem not_served_of_refusedDropped {client : Client} (h : client.RefusedDropped)
    (last : Option ClientEvent) : ¬ client.phase.Served last ∧ ¬ client.phase.GaveUp last ∧
      ¬ client.Halted := by
  obtain ⟨b, hphase⟩ := h
  refine ⟨fun hserved => ?_, ?_, ?_⟩
  · rw [hphase] at hserved
    match last with
    | none => cases hserved
    | some .selects =>
        obtain ⟨x, hx⟩ := hserved
        cases x <;> cases hx
    | some (.resolves .success) =>
        obtain ⟨url, hurl⟩ := hserved
        cases hurl
    | some (.connects .success) | some (.completes _ _) | some .destroys =>
        obtain ⟨x, v, state, hx⟩ := hserved
        cases hx
    | some (.resolves .connectionRefused) | some (.connects .connectionRefused) => cases hserved
    | some (.resolves (.other _)) | some (.connects (.other _)) => exact hserved
  · simp [Phase.GaveUp, hphase]
  · simp [Halted, hphase]

end Client

namespace System

/-- The last event of client `c`. -/
def lastEvent (c : Nat) (es : List Event) : Option ClientEvent :=
  (es.filterMap (Event.of some c)).getLast?

/-- A client that is not served met another error than a refused connection, or came upon a
    selector with nothing to select. -/
def LeftProperly (es : List Event) (sys : System) : Prop :=
  ∀ c (client : Client), sys.clients[c]? = some client → client.phase.Served (lastEvent c es) ∨
    client.phase.GaveUp (lastEvent c es) ∨
    client.Halted ∧ ∀ b, ¬ sys.selector.Selectable b

theorem settled_run {s : Selector} {t : System} {es : List Event}
    (hrun : Run (Steps step) (initial s) es t) {c : Nat} {client : Client}
    (hclient : t.clients[c]? = some client) :
    Client.Settled (lastEvent c es) client.phase := by
  have htracked : t.Tracked some (fun xs phase => Client.Settled xs.getLast? phase) es := by
    refine tracked_run (Or.inl rfl) (fun _ h => ?_) hrun
    rw [Option.toList_some, List.getLast?_concat]
    exact Client.settled_step h
  have hsettled := htracked c
  rw [hclient] at hsettled
  exact hsettled

variable [LawfulPairingHeap]

/-- Clients are left properly where none is dropped after a refusal. -/
theorem leftProperly_iff {s : Selector} {t : System} {es : List Event} (hs : s.Inv)
    (hrun : Run (Steps step) (initial s) es t) : LeftProperly es t ↔ ¬ t.RefusedDropped := by
  have hinit : (initial s).HaltedWithoutBackend := by simp [HaltedWithoutBackend, initial]
  have hhalted := haltedWithoutBackend_run (inv_initial hs) hinit hrun
  constructor
  · intro hproper hdropped
    obtain ⟨client, hmem, hdropped⟩ := hdropped
    obtain ⟨c, hc⟩ := List.mem_iff_getElem?.mp hmem
    obtain ⟨hserved, hgaveUp, hnot⟩ :=
      Client.not_served_of_refusedDropped hdropped (lastEvent c es)
    rcases hproper c client hc with h | h | h
    · exact hserved h
    · exact hgaveUp h
    · exact hnot h.1
  · intro hnone c client hc
    have hmem := List.mem_of_getElem? hc
    rcases settled_run hrun hc with h | h | h | h
    · exact Or.inl h
    · exact Or.inr (Or.inl h)
    · exact Or.inr (Or.inr ⟨h, hhalted client hmem h⟩)
    · exact absurd ⟨client, hmem, h⟩ hnone

/-- A refused TCP connect fails over exactly for IP endpoints. And in every run, clients are
    left without a session only after another error or for want of a backend, exactly if the
    run refuses no connect to a resolved URL. -/
theorem failover_iff [LawfulSort] {type : SelectorType} {replicas : Nat} {config : Node}
    {s : Selector} (h : Selector.configure type replicas config = .ok s) :
    (∀ (u : Selector) (client : Client) b, client.phase.tcpConnecting = some b →
      (Client.FailsOver u client b ↔ b.isIpEndpoint = true)) ∧
    ∀ es t, Run (Steps step) (initial s) es t →
      (LeftProperly es t ↔ Run (Under noUrlRefused (Steps step)) (initial s) es t) := by
  refine ⟨fun u client b hb => Client.failsOver_iff hb, fun es t hrun => ?_⟩
  have hnone : ¬ (initial s).RefusedDropped := by simp [RefusedDropped, initial]
  rw [← not_refusedDropped_iff hnone hrun]
  exact leftProperly_iff (Selector.configure_spec h).2.1 hrun

end System

end

/-! ## A refused connect to a resolved URL -/

section

open Reference

/-- A URL backend, and a round robin over it. -/
def localUrl : Url :=
  ⟨"http://localhost:8080", ⟨"http", "localhost", "8080", "", "", ""⟩, by rfl⟩

def urlConfig : Node := balancing [urlEntry "http://localhost:8080"]

def urlRobin : Selector := .roundRobin ⟨0, [.url localUrl]⟩

/-- A client is accepted, its backend resolved, and the connect refused. -/
def urlRefused : List Event :=
  [.accepts Selector.somebody, .client 0 .selects, .client 0 (.resolves .success),
    .client 0 (.connects .connectionRefused)]

def afterUrlRefused : System :=
  (urlRefused.foldlM System.step (.initial urlRobin)).getD (.initial urlRobin)

namespace System

theorem run_urlRefused : Run (Steps step) (initial urlRobin) urlRefused afterUrlRefused :=
  .of_foldlM (by rfl)

theorem failover_urlRefused : LeftProperly urlRefused afterUrlRefused ↔
    Run (Under noUrlRefused (Steps step)) (initial urlRobin) urlRefused afterUrlRefused := by
  have h : Selector.configure .roundRobin 1 urlConfig = .ok urlRobin := by rfl
  exact (failover_iff h).2 _ _ run_urlRefused

/-- The client is left although its backend only refused, and the backend is still held. -/
theorem no_failover_urlRefused :
    Selector.configure .roundRobin 1 urlConfig = .ok urlRobin ∧
      Run (Steps step) (initial urlRobin) urlRefused afterUrlRefused ∧
      afterUrlRefused.clients =
        [⟨Selector.somebody, .dropped (.url localUrl) .connectionRefused, [.url localUrl]⟩] ∧
      afterUrlRefused.selector = urlRobin ∧ ¬ LeftProperly urlRefused afterUrlRefused := by
  have h : Selector.configure .roundRobin 1 urlConfig = .ok urlRobin := by rfl
  refine ⟨h, run_urlRefused, by rfl, by rfl, fun hproper => ?_⟩
  have hnone := (leftProperly_iff (Selector.configure_spec h).2.1 run_urlRefused).mp hproper
  exact hnone ⟨_, List.mem_cons_self, .url localUrl, by rfl⟩

end System

end

/-! ## The number of attempts -/

section

variable [Platform]

def Phase.status : Phase → Failover.Status Backend
  | .ready => .idle
  | .connecting ep => .trying (.endpoint ep)
  | .resolving url => .trying (.url url)
  | .connectingResolved url => .trying (.url url)
  | _ => .done

namespace Phase

@[simp] theorem status_attempt (b : Backend) : (attempt b).status = .trying b := by
  cases b <;> rfl

theorem status_of_attempting {phase : Phase} {b : Backend} (h : phase.attempting = some b) :
    phase.status = .trying b := by
  cases phase with
  | connecting ep => exact congrArg Failover.Status.trying (Option.some.inj h)
  | resolving url => exact congrArg Failover.Status.trying (Option.some.inj h)
  | connectingResolved url => exact congrArg Failover.Status.trying (Option.some.inj h)
  | _ => cases h

theorem status_after_session (result : Outcome Unit) (b : Backend) (v : Visitor)
    (state : SessionState) : (after result (.session b v state)).status = .done := by
  cases result <;> rfl

end Phase

namespace System

/-- The clients and the candidates of the abstract failover: a backend is live while it can
    be selected. -/
def failover (sys : System) : Failover.State Nat Backend where
  live := { b | sys.selector.Selectable b }
  status i := (sys.clients[i]?.map fun client => client.phase.status).getD .idle
  tried i := (sys.clients[i]?.map Client.attempts).getD []

variable [LawfulPairingHeap]

/-- A client's step, as a move of the abstract failover. -/
theorem move_stepCase {s t : Selector} {client client' : Client} {e : ClientEvent}
    (hs : s.Inv) (haddr : s.Addressable) (h : Client.StepCase s client e t client')
    {f g : Failover.State Nat Backend} {i : Nat} (hlive : f.live = { b | s.Selectable b })
    (hlive' : g.live = { b | t.Selectable b }) (hstatus : f.status i = client.phase.status)
    (hstatus' : g.status i = client'.phase.status) (htried : f.tried i = client.attempts)
    (htried' : g.tried i = client'.attempts) : Failover.Move f g i := by
  cases h with
  | @selected b ready selected =>
      have hb : b ∈ f.live := by
        rw [hlive]
        exact Selector.selectable_of_selectBackend hs selected
      refine .take (by rw [hstatus, ready]; rfl) hb ?_ (by rw [htried', htried])
      rw [hstatus']
      exact Phase.status_attempt b
  | unselected ready _ halted =>
      refine .stop ?_ (by rw [htried', htried])
      rw [hstatus']
      rcases halted with rfl | ⟨e, -, rfl⟩ <;> rfl
  | @refused e b attempting retried =>
      cases hresult : (s.excludeBackend b).1 with
      | returned =>
          have hgone : b ∉ g.live := by
            rw [hlive']
            exact (Selector.excluded_excludeBackend hs b).gone haddr
          refine .refused ?_ hgone (by rw [hstatus', hresult]; rfl) (by rw [htried', htried])
          rw [hstatus]
          exact Phase.status_of_attempting attempting
      | _ => exact .stop (by rw [hstatus', hresult]; rfl) (by rw [htried', htried])
  | resolved resolving =>
      exact .stay (by rw [hstatus', hstatus, resolving]; rfl) (by rw [htried', htried])
  | dropped => exact .stop (by rw [hstatus']; rfl) (by rw [htried', htried])
  | connected =>
      exact .stop (by rw [hstatus']; exact Phase.status_after_session _ _ _ _)
        (by rw [htried', htried]; rfl)
  | handled =>
      exact .stop (by rw [hstatus']; exact Phase.status_after_session _ _ _ _)
        (by rw [htried', htried]; rfl)
  | destroyed =>
      exact .stop (by rw [hstatus']; exact Phase.status_after_session _ _ _ _)
        (by rw [htried', htried]; rfl)

/-- The connector refines the abstract failover, step by step. -/
theorem step_failover {sys t : System} {e : Event} (hsys : sys.Inv)
    (haddr : sys.selector.Addressable) (h : sys.step e = some t) :
    ∃ i, Failover.Step sys.failover i t.failover := by
  have hlive : t.failover.live ⊆ sys.failover.live := (later_step hsys h).selectable
  cases e with
  | accepts endpoint =>
      obtain rfl := step_accepts h
      have hother : ∀ j, j ≠ sys.clients.length →
          (sys.clients ++ [Client.new endpoint])[j]? = sys.clients[j]? := by
        intro j hj
        rcases Nat.lt_or_gt_of_ne hj with hlt | hgt
        · exact List.getElem?_append_left hlt
        · rw [List.getElem?_eq_none (by simp; omega), List.getElem?_eq_none (by omega)]
      refine ⟨sys.clients.length, hlive, ?_, ?_, .stay ?_ ?_⟩
      · intro j hj
        simp only [failover, hother j hj]
      · intro j hj
        simp only [failover, hother j hj]
      · simp [failover, Client.new, Phase.status]
      · simp [failover, Client.new]
  | client c e =>
      obtain ⟨client, s, client', hclient, hcase, rfl⟩ := step_client h
      have hnew : (sys.clients.set c client')[c]? = some client' := by
        obtain ⟨hlt, -⟩ := List.getElem?_eq_some_iff.mp hclient
        exact List.getElem?_set_self hlt
      have hother : ∀ j, j ≠ c → (sys.clients.set c client')[j]? = sys.clients[j]? :=
        fun j hj => List.getElem?_set_ne (Ne.symm hj)
      refine ⟨c, hlive, ?_, ?_, move_stepCase hsys.selector haddr hcase rfl rfl ?_ ?_ ?_ ?_⟩
      · intro j hj
        simp only [failover, hother j hj]
      · intro j hj
        simp only [failover, hother j hj]
      · simp [failover, hclient]
      · simp [failover, hnew]
      · simp [failover, hclient]
      · simp [failover, hnew]

theorem run_failover {sys t : System} {es : List Event} (hsys : sys.Inv)
    (haddr : sys.selector.Addressable) (hrun : Run (Steps step) sys es t) :
    ∃ is, Run Failover.Step sys.failover is t.failover := by
  have hstep : ∀ s e u, Inv s ∧ s.selector.Addressable → Steps step s e u →
      Inv u ∧ u.selector.Addressable :=
    fun s e u hs h => ⟨inv_step hs.1 h, (later_step hs.1 h).addressable hs.2⟩
  refine Run.simulate failover ?_ (hrun.under_invariant hstep ⟨hsys, haddr⟩)
  intro s e u h
  exact Or.inr (step_failover h.1.1 h.1.2 h.2)

omit [LawfulPairingHeap] in
/-- Backends with distinct names, and distinct ring positions where there is a ring, are
    distinguishable. -/
theorem distinguishable_of_nodup {type : SelectorType} {replicas : Nat} {bs : List Backend}
    (hnames : (bs.map Backend.toString).Nodup) (hring : type = .consistentHash →
      (bs.flatMap (Router.positions BackendCHTraits.traits replicas)).Nodup) :
    Selector.Distinguishable replicas bs type := by
  cases type with
  | weightedRoundRobin => exact List.Nodup.of_map _ hnames
  | consistentHash => exact Router.keepsPrimary_of_nodup (hring rfl)
  | leastConnections => exact hnames
  | leastResponseTime => exact hnames
  | roundRobin => trivial
  | ipHash => trivial

/-- In every run, the backends that one client is sent to are pairwise distinct, so that it
    makes at most as many attempts as there are backends. -/
theorem attempts_bounded [LawfulSort] {type : SelectorType} {replicas : Nat} {config : Node}
    {s : Selector} {missed : String} {bs : List Backend} {es : List Event} {t : System}
    (h : Selector.configure type replicas config = .ok s)
    (hbs : configuredBackends missed config = .ok bs)
    (hnames : (bs.map Backend.toString).Nodup)
    (hring : type = .consistentHash →
      (bs.flatMap (Router.positions BackendCHTraits.traits replicas)).Nodup)
    (hrun : Run (Steps step) (initial s) es t) :
    ∀ client ∈ t.clients, client.attempts.Nodup ∧ client.attempts.length ≤ bs.length := by
  obtain ⟨-, hs, bs', hbs', hholds, haddr⟩ := Selector.configure_spec h
  obtain rfl : bs = bs' := Except.ok.inj (hbs.symm.trans (hbs' missed))
  have haddressable := haddr.mpr (distinguishable_of_nodup hnames hring)
  obtain ⟨is, hfailover⟩ := run_failover (inv_initial hs) haddressable hrun
  intro client hclient
  obtain ⟨i, hi⟩ := List.mem_iff_getElem?.mp hclient
  have hinit : ∀ j, (initial s).failover.tried j = [] := by simp [failover, initial]
  have htried : t.failover.tried i = client.attempts := by simp [failover, hi]
  obtain ⟨hnodup, hmem⟩ := Failover.tried_nodup hinit hfailover i
  rw [htried] at hnodup hmem
  refine ⟨hnodup, (List.subperm_of_subset hnodup fun b hb => ?_).length_le⟩
  exact (hholds b).mp (Selector.Selectable.holds (hmem b hb))

end System

end

/-! ## A client that is refused by every backend -/

section

open Reference

namespace System

/-- A client is refused by both backends of a weighted round robin. -/
def refusedTwice : List Event :=
  [.accepts Selector.somebody, .client 0 .selects, .client 0 (.connects .connectionRefused),
    .client 0 .selects, .client 0 (.connects .connectionRefused)]

def afterRefusedTwice : System :=
  (refusedTwice.foldlM step (initial Selector.twoWeighted)).getD (initial Selector.twoWeighted)

theorem attempts_bounded_refusedTwice :
    afterRefusedTwice.clients = [⟨Selector.somebody, .failed allBackendsExcluded,
      [Selector.port80, Selector.port81]⟩] ∧
    ∀ client ∈ afterRefusedTwice.clients, client.attempts.Nodup ∧ client.attempts.length ≤ 2 := by
  have h : Selector.configure .weightedRoundRobin 1 Selector.twoEntries =
      .ok Selector.twoWeighted := by rfl
  have hbs : configuredBackends "" Selector.twoEntries =
      .ok [Selector.port80, Selector.port81] := by rfl
  have hnames : ([Selector.port80, Selector.port81].map Backend.toString).Nodup := by decide
  have hrun : Run (Steps step) (initial Selector.twoWeighted) refusedTwice afterRefusedTwice :=
    .of_foldlM (by rfl)
  exact ⟨by rfl, attempts_bounded h hbs hnames (fun hring => by cases hring) hrun⟩

end System

end

end LoadBalancer
