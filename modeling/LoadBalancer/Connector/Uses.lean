/-
  What the connector asks of its selector.

  A step of the connector makes one use of the selector at most, and a run of the connector,
  however its clients interleave, makes a run of these uses (`run_uses`). So what holds in all
  runs of a selector holds under all interleavings of its clients. The backends that the
  clients were sent to are those that the selections returned (`attempts_run`), and the
  backends that are excluded are those of the refusals that the connector retries
  (`retriedRefusals_uses`): `connection_refused` from resolving a host or from connecting to an
  IP endpoint. From connecting to a resolved URL it is not retried, and nothing is excluded.
-/
import LoadBalancer.Connector.Failover
import LoadBalancer.Connector.LateExclusion
import LoadBalancer.Lib.Observation

namespace LoadBalancer

open Transition

variable [Platform]

namespace Use

/-- The backend that the use returns. -/
def selected : Use → Option Backend
  | .call (.select _ (.returned b)) => some b
  | _ => none

/-- The backend that the use excludes. -/
def excluded : Use → Option Backend
  | .call (.exclude b _) => some b
  | _ => none

end Use

/-- What a notification asks of the selector. -/
def Visitor.use (notification : Notification) (now : Int) : Visitor → Option Use
  | .none => Option.none
  | .leastConnectionsCallbacks backend =>
    match notification with
    | .onConnect => some (.increaseConnectionCount backend)
    | .onDisconnect => some (.decreaseConnectionCount backend)
    | _ => Option.none
  | .leastResponseTimeCallbacks backend responseBegin =>
    match notification with
    | .onResponseReceive => some (.addResponseTime backend (now - responseBegin))
    | _ => Option.none

namespace Client

/-- The backend of an attempt that the event ends in a refusal that the connector retries. -/
def retriedRefusal (client : Client) : ClientEvent → Option Backend
  | .resolves .connectionRefused =>
    match client.phase with
    | .resolving url => some (.url url)
    | _ => none
  | .connects .connectionRefused =>
    match client.phase with
    | .connecting ep => some (.endpoint ep)
    | _ => none
  | _ => none

/-- What a step of a client asks of the selector. -/
def use (s : Selector) (client : Client) : ClientEvent → Option Use
  | .selects => some (.call (.select client.endpoint (s.selectBackend client.endpoint).1))
  | .connects .success =>
    client.phase.tcpConnecting.bind fun b => (Visitor.make s.type b).use HttpSession.run.1 0
  | .completes ec now =>
    match client.phase with
    | .session _ visitor (.running operation) =>
      visitor.use (HttpSession.handle operation ec).1 now
    | _ => none
  | .destroys =>
    match client.phase with
    | .session _ visitor .cancelled => visitor.use HttpSession.destroy.1 0
    | _ => none
  | e => (client.retriedRefusal e).map fun b => .call (.exclude b (s.excludeBackend b).1)

end Client

/-! ## One step -/

namespace Visitor

theorem run_notify (n : Notification) (now : Int) (s : Selector) (v : Visitor) :
    Run Selector.UseStep s (v.use n now).toList (v.notify n now s).2.2 := by
  cases v with
  | none => exact .nil s
  | leastConnectionsCallbacks b =>
      cases n with
      | onConnect => exact .one rfl
      | onDisconnect => exact .one rfl
      | _ => exact .nil s
  | leastResponseTimeCallbacks b begin =>
      cases n with
      | onResponseReceive => exact .one rfl
      | _ => exact .nil s

/-- A notification neither selects nor excludes. -/
theorem selected_use (n : Notification) (now : Int) (v : Visitor) :
    (v.use n now).bind Use.selected = Option.none ∧
      (v.use n now).bind Use.excluded = Option.none := by
  cases v with
  | none => exact ⟨rfl, rfl⟩
  | leastConnectionsCallbacks b => cases n <;> exact ⟨rfl, rfl⟩
  | leastResponseTimeCallbacks b begin => cases n <;> exact ⟨rfl, rfl⟩

end Visitor

namespace Client

/-- What a step of a client does: it makes the use, the client's history grows by what the use
    selected, and what it excluded had refused the client's attempt. -/
structure Made (s : Selector) (client : Client) (e : ClientEvent) (t : Selector)
    (client' : Client) : Prop where
  run : Run Selector.UseStep s (client.use s e).toList t
  attempts : client'.attempts = client.attempts ++ ((client.use s e).bind Use.selected).toList
  retriedRefusal : (client.use s e).bind Use.excluded = client.retriedRefusal e

theorem made_of_none {s : Selector} {client client' : Client} {e : ClientEvent}
    (huse : client.use s e = none) (hrefusal : client.retriedRefusal e = none)
    (h : client'.attempts = client.attempts) : Made s client e s client' := by
  refine ⟨?_, ?_, ?_⟩
  · rw [huse]
    exact .nil s
  · simp [huse, h]
  · rw [huse, hrefusal]
    rfl

theorem made_notify {s : Selector} {client : Client} {e : ClientEvent} {b : Backend}
    {v : Visitor} {call : Notification × SessionState} {now : Int}
    (huse : client.use s e = v.use call.1 now) (hrefusal : client.retriedRefusal e = none) :
    Made s client e (notify s client b v call now).1 (notify s client b v call now).2 := by
  obtain ⟨hselected, hexcluded⟩ := v.selected_use call.1 now
  refine ⟨?_, ?_, ?_⟩
  · rw [huse]
    exact v.run_notify call.1 now s
  · rw [huse, hselected]
    exact (List.append_nil _).symm
  · rw [huse, hexcluded, hrefusal]

theorem made_excludeAndRetry {s : Selector} {client : Client} {e : ClientEvent} {b : Backend}
    (huse : client.use s e =
      (client.retriedRefusal e).map fun b => .call (.exclude b (s.excludeBackend b).1))
    (hrefusal : client.retriedRefusal e = some b) :
    Made s client e (excludeAndRetry s client b).1 (excludeAndRetry s client b).2 := by
  rw [hrefusal] at huse
  refine ⟨?_, ?_, ?_⟩
  · rw [huse]
    exact .one rfl
  · rw [huse]
    exact (List.append_nil _).symm
  · rw [huse, hrefusal]
    rfl

theorem made_makeAndRunSession (s : Selector) (client : Client) :
    Made s client .selects (makeAndRunSession s client).1 (makeAndRunSession s client).2 := by
  rcases hselect : s.selectBackend client.endpoint with ⟨result, t⟩
  have huse : client.use s .selects = some (.call (.select client.endpoint result)) := by
    simp only [use, hselect]
  have hstep : Selector.UseStep s (.call (.select client.endpoint result)) t := hselect
  unfold makeAndRunSession
  rw [hselect]
  cases result with
  | returned b =>
      refine ⟨?_, ?_, ?_⟩
      all_goals rw [huse]
      · exact .one hstep
      · rfl
      · rfl
  | _ =>
      refine ⟨?_, ?_, ?_⟩
      all_goals rw [huse]
      · exact .one hstep
      · exact (List.append_nil _).symm
      · rfl

/-- An error that is not retried asks nothing. -/
theorem use_of_retriedRefusal_none {s : Selector} {client : Client} {e : ClientEvent}
    (huse : client.use s e =
      (client.retriedRefusal e).map fun b => .call (.exclude b (s.excludeBackend b).1))
    (hrefusal : client.retriedRefusal e = none) : client.use s e = none := by
  rw [huse, hrefusal]
  rfl

theorem made_step {s t : Selector} {client client' : Client} {e : ClientEvent}
    (h : client.step s e = some (t, client')) : Made s client e t client' := by
  cases e with
  | selects =>
      simp only [step] at h
      split at h
      · have hmade := made_makeAndRunSession s client
        rw [Option.some.inj h] at hmade
        exact hmade
      · cases h
  | resolves ec =>
      simp only [step] at h
      split at h
      · next url hurl =>
        cases ec with
        | success =>
            cases h
            exact made_of_none rfl rfl rfl
        | connectionRefused =>
            cases h
            exact made_excludeAndRetry rfl (by simp [retriedRefusal, hurl])
        | other value =>
            cases h
            exact made_of_none rfl rfl rfl
      · cases h
  | connects ec =>
      simp only [step] at h
      split at h
      · next ep hep =>
        cases ec with
        | success =>
            cases h
            exact made_notify (by simp [use, hep, Phase.tcpConnecting]) rfl
        | connectionRefused =>
            cases h
            exact made_excludeAndRetry rfl (by simp [retriedRefusal, hep])
        | other value =>
            cases h
            exact made_of_none rfl rfl rfl
      · next url hurl =>
        cases ec with
        | success =>
            cases h
            exact made_notify (by simp [use, hurl, Phase.tcpConnecting]) rfl
        | connectionRefused =>
            cases h
            have hrefusal : client.retriedRefusal (.connects .connectionRefused) = none := by
              simp [retriedRefusal, hurl]
            exact made_of_none (use_of_retriedRefusal_none rfl hrefusal) hrefusal rfl
        | other value =>
            cases h
            exact made_of_none rfl rfl rfl
      · cases h
  | completes ec now =>
      simp only [step] at h
      split at h
      · next b v op running =>
        have huse : client.use s (.completes ec now) = v.use (HttpSession.handle op ec).1 now := by
          simp only [use, running]
        have hmade := made_notify (b := b) huse rfl
        rw [Option.some.inj h] at hmade
        exact hmade
      · cases h
  | destroys =>
      simp only [step] at h
      split at h
      · next b v cancelled =>
        have huse : client.use s .destroys = v.use HttpSession.destroy.1 0 := by
          simp only [use, cancelled]
        have hmade := made_notify (b := b) huse rfl
        rw [Option.some.inj h] at hmade
        exact hmade
      · cases h

end Client

/-! ## Runs -/

namespace System

def use (sys : System) : Event → Option Use
  | .client c e => sys.clients[c]?.bind fun client => client.use sys.selector e
  | .accepts _ => none

def retriedRefusal (sys : System) : Event → Option Backend
  | .client c e => sys.clients[c]?.bind fun client => client.retriedRefusal e
  | .accepts _ => none

/-- What a run asks of the selector, in order. -/
def uses (sys : System) (es : List Event) : List Use := observations step use sys es

/-- The backends of the refusals in a run that the connector retries. -/
def retriedRefusals (sys : System) (es : List Event) : List Backend :=
  observations step retriedRefusal sys es

/-- The attempts of all clients. -/
def attempts (sys : System) : List Backend := sys.clients.flatMap Client.attempts

theorem made_client {sys t : System} {c : Nat} {e : ClientEvent}
    (h : sys.step (.client c e) = some t) : ∃ client s client', sys.clients[c]? = some client ∧
      Client.Made sys.selector client e s client' ∧
      t = { selector := s, clients := sys.clients.set c client' } := by
  obtain ⟨client, hclient, h⟩ := Option.bind_eq_some_iff.mp h
  obtain ⟨⟨s, client'⟩, hstep, h⟩ := Option.bind_eq_some_iff.mp h
  exact ⟨client, s, client', hclient, Client.made_step hstep, (Option.some.inj h).symm⟩

theorem run_use {sys t : System} {e : Event} (h : sys.step e = some t) :
    Run Selector.UseStep sys.selector (sys.use e).toList t.selector := by
  cases e with
  | accepts endpoint =>
      rw [step_accepts h]
      exact .nil _
  | client c e =>
      obtain ⟨client, s, client', hclient, hmade, rfl⟩ := made_client h
      simp only [use, hclient, Option.bind_some]
      exact hmade.run

/-- A step leaves the selector alone, or makes one use of it. -/
theorem use_cases {sys t : System} {e : Event} (h : sys.step e = some t) :
    (sys.use e = none ∧ t.selector = sys.selector) ∨
      ∃ use, sys.use e = some use ∧ Selector.UseStep sys.selector use t.selector := by
  have hrun := run_use h
  cases huse : sys.use e with
  | none =>
      rw [huse] at hrun
      exact Or.inl ⟨rfl, hrun.eq_of_nil⟩
  | some use =>
      rw [huse] at hrun
      have hone : Run Selector.UseStep sys.selector ([] ++ [use]) t.selector := hrun
      obtain ⟨u, hnil, hstep⟩ := hone.last
      obtain rfl := hnil.eq_of_nil
      exact Or.inr ⟨use, rfl, hstep⟩

/-- A run of the connector makes a run of uses of its selector. -/
theorem run_uses {sys t : System} {es : List Event} (hrun : Run (Steps step) sys es t) :
    Run Selector.UseStep sys.selector (sys.uses es) t.selector :=
  run_observed (I := fun _ => True) (fun _ _ _ _ _ => trivial) (fun _ _ _ _ h => run_use h)
    trivial hrun

theorem excluded_use {sys t : System} {e : Event} (h : sys.step e = some t) :
    (sys.use e).bind Use.excluded = sys.retriedRefusal e := by
  cases e with
  | accepts endpoint => rfl
  | client c e =>
      obtain ⟨client, s, client', hclient, hmade, -⟩ := made_client h
      simp only [use, retriedRefusal, hclient, Option.bind_some]
      exact hmade.retriedRefusal

/-- The backends that the uses exclude are those of the retried refusals. -/
theorem retriedRefusals_uses {sys t : System} {es : List Event} (hrun : Run (Steps step) sys es t) :
    (sys.uses es).filterMap Use.excluded = sys.retriedRefusals es := by
  rw [uses, filterMap_observations]
  exact observations_congr (fun _ _ _ h => excluded_use h) hrun

theorem attempts_step {sys t : System} {e : Event} (h : sys.step e = some t) :
    t.attempts.Perm (sys.attempts ++ ((sys.use e).bind Use.selected).toList) := by
  cases e with
  | accepts endpoint =>
      rw [step_accepts h]
      simp [attempts, use, Client.new]
  | client c e =>
      obtain ⟨client, s, client', hclient, hmade, rfl⟩ := made_client h
      simp only [attempts, use, hclient, Option.bind_some]
      exact List.flatMap_set_perm hclient hmade.attempts

/-- The attempts that a run makes are what its selections return. -/
theorem attempts_run {sys t : System} {es : List Event} (hrun : Run (Steps step) sys es t) :
    t.attempts.Perm (sys.attempts ++ (sys.uses es).filterMap Use.selected) := by
  induction hrun with
  | nil => simp [uses, observations]
  | @snoc u v es e hrun hstep ih =>
      rw [uses, filterMap_observations] at ih ⊢
      rw [observations_snoc hrun, ← List.append_assoc]
      exact (attempts_step hstep).trans (ih.append_right _)

end System

end LoadBalancer
