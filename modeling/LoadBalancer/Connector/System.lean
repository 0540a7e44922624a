/-
  `Connector` with its clients: every interleaving of the completion handlers.

  A client is in one phase at a time. A step is one handler, or the part of a handler up to
  its next selector call: a refused connection is one step (`ExcludeBackend`) that leaves the
  client `ready`, and `MakeAndRunSession` is the next (`SelectBackend` and the start of the
  attempt). So each step makes one selector call at most, as the selector's mutex allows, and
  the steps of different clients interleave freely.

  `attempts` is the history of backends a client was sent to; no step reads it. The query of the
  client's remote endpoint succeeds here; `Application` lets it throw.
-/
import LoadBalancer.Connector.StateNotifier

namespace LoadBalancer

open Transition

variable [Platform]

inductive Phase where
  /-- `MakeAndRunSession` is about to select a backend -/
  | ready
  /-- `async_connect` to an endpoint is pending -/
  | connecting (ep : Endpoint)
  /-- `async_resolve` is pending -/
  | resolving (url : Url)
  /-- `async_connect` over the results of the resolver is pending -/
  | connectingResolved (url : Url)
  | session (backend : Backend) (visitor : Visitor) (state : SessionState)
  /-- the handler returned without a session -/
  | dropped (backend : Backend) (ec : ErrorCode)
  /-- an exception left the handler -/
  | failed (e : Exception)
  /-- the handler ran into undefined behaviour -/
  | undefined

namespace Phase

/-- The attempt that `MakeAndRunSession` starts. -/
def attempt : Backend → Phase
  | .endpoint ep => .connecting ep
  | .url url => .resolving url

/-- The backend of a pending attempt. -/
def attempting : Phase → Option Backend
  | .connecting ep => some (.endpoint ep)
  | .resolving url => some (.url url)
  | .connectingResolved url => some (.url url)
  | _ => none

/-- The phase after a selector call that should lead to `next`. -/
def after (result : Outcome Unit) (next : Phase) : Phase :=
  match result with
  | .returned () => next
  | .thrown e => .failed e
  | .undefined => .undefined

@[simp] theorem after_eq_dropped {result : Outcome Unit} {next : Phase} {b : Backend}
    {ec : ErrorCode} : after result next = .dropped b ec ↔
      result = .returned () ∧ next = .dropped b ec := by
  cases result <;> simp [after]

@[simp] theorem attempting_attempt (b : Backend) : (attempt b).attempting = some b := by
  cases b <;> rfl

end Phase

structure Client where
  endpoint : Endpoint
  phase : Phase
  attempts : List Backend

inductive ClientEvent where
  /-- `MakeAndRunSession` -/
  | selects
  /-- the handler of `async_resolve` -/
  | resolves (ec : ErrorCode)
  /-- the handler of either `async_connect` -/
  | connects (ec : ErrorCode)
  /-- the handler of the session's operation, at time `now` -/
  | completes (ec : ErrorCode) (now : Int)
  /-- the destructor of the session -/
  | destroys

namespace Client

def new (endpoint : Endpoint) : Client :=
  { endpoint := endpoint, phase := .ready, attempts := [] }

def makeAndRunSession (s : Selector) (client : Client) : Selector × Client :=
  match s.selectBackend client.endpoint with
  | (.returned backend, s) =>
    (s, { client with
          phase := .attempt backend
          attempts := client.attempts ++ [backend] })
  | (.thrown e, s) => (s, { client with phase := .failed e })
  | (.undefined, s) => (s, { client with phase := .undefined })

/-- `ExcludeBackend`, before `MakeAndRunSession` is called again. -/
def excludeAndRetry (s : Selector) (client : Client) (backend : Backend) : Selector × Client :=
  ((s.excludeBackend backend).2,
    { client with phase := .after (s.excludeBackend backend).1 .ready })

/-- A call of the session: the notification it sends and the state it leaves. -/
def notify (s : Selector) (client : Client) (backend : Backend) (visitor : Visitor)
    (call : Notification × SessionState) (now : Int) : Selector × Client :=
  ((visitor.notify call.1 now s).2.2,
    { client with
      phase := .after (visitor.notify call.1 now s).2.1
        (.session backend (visitor.notify call.1 now s).1 call.2) })

/-- `MakeSession` and `Run`; `OnConnect` does not read the clock. -/
def runSession (s : Selector) (client : Client) (backend : Backend) : Selector × Client :=
  notify s client backend (Visitor.make s.type backend) HttpSession.run 0

def step (s : Selector) (client : Client) : ClientEvent → Option (Selector × Client)
  | .selects =>
    match client.phase with
    | .ready => some (makeAndRunSession s client)
    | _ => none
  | .resolves ec =>
    match client.phase with
    | .resolving url =>
      match ec with
      | .success => some (s, { client with phase := .connectingResolved url })
      | .connectionRefused => some (excludeAndRetry s client (.url url))
      | ec => some (s, { client with phase := .dropped (.url url) ec })
    | _ => none
  | .connects ec =>
    match client.phase with
    | .connecting ep =>
      match ec with
      | .success => some (runSession s client (.endpoint ep))
      | .connectionRefused => some (excludeAndRetry s client (.endpoint ep))
      | ec => some (s, { client with phase := .dropped (.endpoint ep) ec })
    | .connectingResolved url =>
      match ec with
      | .success => some (runSession s client (.url url))
      -- this handler does not look at the error
      | ec => some (s, { client with phase := .dropped (.url url) ec })
    | _ => none
  | .completes ec now =>
    match client.phase with
    | .session backend visitor (.running operation) =>
      some (notify s client backend visitor (HttpSession.handle operation ec) now)
    | _ => none
  | .destroys =>
    match client.phase with
    | .session backend visitor .cancelled =>
      some (notify s client backend visitor HttpSession.destroy 0)
    | _ => none

end Client

structure System where
  selector : Selector
  clients : List Client

inductive Event where
  /-- the acceptor hands over the socket of a new client -/
  | accepts (endpoint : Endpoint)
  | client (c : Nat) (e : ClientEvent)

namespace System

def initial (s : Selector) : System := { selector := s, clients := [] }

def step (sys : System) : Event → Option System
  | .accepts endpoint => some { sys with clients := sys.clients ++ [Client.new endpoint] }
  | .client c e => do
    let client ← sys.clients[c]?
    let (s, client) ← client.step sys.selector e
    return { selector := s, clients := sys.clients.set c client }

end System

/-! ## What a step can be -/

namespace Client

/-- The attempt succeeds, or its failure is one that the connector retries. -/
def retried (client : Client) : ClientEvent → Prop
  | .resolves ec => ec = .success ∨ ec = .connectionRefused
  | .connects ec =>
    ec = .success ∨ ec = .connectionRefused ∧ ∃ ep, client.phase = .connecting ep
  | _ => True

inductive StepCase (s : Selector) (client : Client) : ClientEvent → Selector → Client → Prop where
  | selected {b : Backend} (ready : client.phase = .ready)
      (selected : (s.selectBackend client.endpoint).1 = .returned b) :
      StepCase s client .selects (s.selectBackend client.endpoint).2
        { client with phase := .attempt b, attempts := client.attempts ++ [b] }
  | unselected {phase : Phase} (ready : client.phase = .ready)
      (unselected : ∀ b, (s.selectBackend client.endpoint).1 ≠ .returned b)
      (halted : phase = .undefined ∨
        ∃ e, (s.selectBackend client.endpoint).1 = .thrown e ∧ phase = .failed e) :
      StepCase s client .selects (s.selectBackend client.endpoint).2 { client with phase := phase }
  | refused {e : ClientEvent} {b : Backend} (attempting : client.phase.attempting = some b)
      (retried : client.retried e) :
      StepCase s client e (s.excludeBackend b).2
        { client with phase := .after (s.excludeBackend b).1 .ready }
  | resolved {url : Url} (resolving : client.phase = .resolving url) :
      StepCase s client (.resolves .success) s { client with phase := .connectingResolved url }
  | connected {b : Backend} (attempting : client.phase.attempting = some b) :
      StepCase s client (.connects .success) (runSession s client b).1 (runSession s client b).2
  | dropped {e : ClientEvent} {b : Backend} {ec : ErrorCode}
      (attempting : client.phase.attempting = some b) (notRetried : ¬ client.retried e)
      (refused : ec = .connectionRefused ↔
        e = .connects .connectionRefused ∧ ∃ url, client.phase = .connectingResolved url) :
      StepCase s client e s { client with phase := .dropped b ec }
  | handled {b : Backend} {v : Visitor} {op : Operation} {ec : ErrorCode} {now : Int}
      (running : client.phase = .session b v (.running op)) :
      StepCase s client (.completes ec now)
        (notify s client b v (HttpSession.handle op ec) now).1
        (notify s client b v (HttpSession.handle op ec) now).2
  | destroyed {b : Backend} {v : Visitor} (cancelled : client.phase = .session b v .cancelled) :
      StepCase s client .destroys (notify s client b v HttpSession.destroy 0).1
        (notify s client b v HttpSession.destroy 0).2

theorem stepCase_makeAndRunSession {s : Selector} {client : Client}
    (ready : client.phase = .ready) : StepCase s client .selects
      (makeAndRunSession s client).1 (makeAndRunSession s client).2 := by
  rcases hselect : s.selectBackend client.endpoint with ⟨result, t⟩
  have hresult : (s.selectBackend client.endpoint).1 = result := congrArg Prod.fst hselect
  have ht : t = (s.selectBackend client.endpoint).2 := (congrArg Prod.snd hselect).symm
  unfold makeAndRunSession
  rw [hselect, ht]
  cases result with
  | returned b => exact .selected ready hresult
  | thrown e => exact .unselected ready (by simp [hresult]) (Or.inr ⟨e, hresult, rfl⟩)
  | undefined => exact .unselected ready (by simp [hresult]) (Or.inl rfl)

theorem stepCase_of_step {s t : Selector} {client client' : Client} {e : ClientEvent}
    (h : client.step s e = some (t, client')) : StepCase s client e t client' := by
  cases e with
  | selects =>
      simp only [step] at h
      split at h
      · next ready =>
        have hcase := stepCase_makeAndRunSession (s := s) ready
        rw [Option.some.inj h] at hcase
        exact hcase
      · cases h
  | resolves ec =>
      simp only [step] at h
      split at h
      · next url hurl =>
        have attempting : client.phase.attempting = some (.url url) := by rw [hurl]; rfl
        cases ec with
        | success =>
            cases h
            exact .resolved hurl
        | connectionRefused =>
            cases h
            exact .refused attempting (Or.inr rfl)
        | other value =>
            cases h
            exact .dropped attempting (by simp [retried]) (by simp)
      · cases h
  | connects ec =>
      simp only [step] at h
      split at h
      · next ep hep =>
        have attempting : client.phase.attempting = some (.endpoint ep) := by rw [hep]; rfl
        cases ec with
        | success =>
            cases h
            exact .connected attempting
        | connectionRefused =>
            cases h
            exact .refused attempting (Or.inr ⟨rfl, ep, hep⟩)
        | other value =>
            cases h
            exact .dropped attempting (by simp [retried]) (by simp)
      · next url hurl =>
        have attempting : client.phase.attempting = some (.url url) := by rw [hurl]; rfl
        cases ec with
        | success =>
            cases h
            exact .connected attempting
        | connectionRefused =>
            cases h
            exact .dropped attempting (by simp [retried, hurl]) (by simp [hurl])
        | other value =>
            cases h
            exact .dropped attempting (by simp [retried]) (by simp)
      · cases h
  | completes ec now =>
      simp only [step] at h
      split at h
      · next b v op running =>
        have hcase : StepCase s client (.completes ec now) _ _ := .handled running
        rw [Option.some.inj h] at hcase
        exact hcase
      · cases h
  | destroys =>
      simp only [step] at h
      split at h
      · next b v cancelled =>
        have hcase : StepCase s client .destroys _ _ := .destroyed cancelled
        rw [Option.some.inj h] at hcase
        exact hcase
      · cases h

end Client

namespace System

/-- A step of a client replaces the client and the selector, and nothing else. -/
theorem step_client {sys t : System} {c : Nat} {e : ClientEvent}
    (h : sys.step (.client c e) = some t) :
    ∃ client s client', sys.clients[c]? = some client ∧
      Client.StepCase sys.selector client e s client' ∧
      t = { selector := s, clients := sys.clients.set c client' } := by
  obtain ⟨client, hclient, h⟩ := Option.bind_eq_some_iff.mp h
  obtain ⟨⟨s, client'⟩, hstep, h⟩ := Option.bind_eq_some_iff.mp h
  exact ⟨client, s, client', hclient, Client.stepCase_of_step hstep, (Option.some.inj h).symm⟩

theorem step_accepts {sys t : System} {endpoint : Endpoint}
    (h : sys.step (.accepts endpoint) = some t) :
    t = { sys with clients := sys.clients ++ [Client.new endpoint] } :=
  (Option.some.inj h).symm

/-- What holds of every client before a step, of a new one and of the one that steps, holds of
    every client after it. -/
theorem forall_clients_step {sys t : System} {e : Event} {P : Client → Prop}
    (h : sys.step e = some t) (hold : ∀ client ∈ sys.clients, P client)
    (hnew : ∀ endpoint, P (Client.new endpoint))
    (hstep : ∀ c ce client client', e = .client c ce → sys.clients[c]? = some client →
      Client.StepCase sys.selector client ce t.selector client' → P client') :
    ∀ client ∈ t.clients, P client := by
  intro other hmem
  cases e with
  | accepts endpoint =>
      rw [step_accepts h] at hmem
      rcases List.mem_append.mp hmem with hmem | hmem
      · exact hold other hmem
      · rw [List.mem_singleton.mp hmem]
        exact hnew endpoint
  | client c ce =>
      obtain ⟨client, s, client', hclient, hcase, rfl⟩ := step_client h
      rcases List.mem_or_eq_of_mem_set hmem with hmem | rfl
      · exact hold other hmem
      · exact hstep c ce client other rfl hclient hcase

end System

/-! ## The selector and the visitors -/

namespace Client

/-- The visitor of a session is the one that `MakeSession` gave it. -/
def WellFormed (type : SelectorType) (client : Client) : Prop :=
  ∀ b v state, client.phase = .session b v state → v.BelongsTo type b

theorem wellFormed_of_no_session {type : SelectorType} {client : Client}
    (h : ∀ b v state, client.phase ≠ .session b v state) : client.WellFormed type :=
  fun b v state hphase => absurd hphase (h b v state)

/-- A call of a well-formed session returns, and the session goes on with its visitor. -/
theorem notify_eq {s : Selector} (hs : s.Inv) {client : Client} {b : Backend} {v : Visitor}
    (hv : v.BelongsTo s.type b) (call : Notification × SessionState) (now : Int) :
    (notify s client b v call now).2 =
      { client with phase := .session b (v.notify call.1 now s).1 call.2 } := by
  simp only [notify, Visitor.notify_returns hs hv, Phase.after]

theorem wellFormed_notify {s : Selector} (hs : s.Inv) {client : Client} {b : Backend}
    {v : Visitor} (hv : v.BelongsTo s.type b) (call : Notification × SessionState) (now : Int) :
    (notify s client b v call now).2.WellFormed s.type := by
  rw [notify_eq hs hv]
  intro b' v' state hphase
  cases hphase
  exact Visitor.belongsTo_notify hv _ _ _

variable [LawfulPairingHeap]

/-- A step keeps the backends of the selector, but for an exclusion. -/
theorem later_stepCase {s t : Selector} {client client' : Client} {e : ClientEvent}
    (hs : s.Inv) (h : StepCase s client e t client') : Selector.Later s t := by
  cases h with
  | selected => exact (Selector.sameBackends_selectBackend hs _).later hs
  | unselected => exact (Selector.sameBackends_selectBackend hs _).later hs
  | refused => exact (Selector.excluded_excludeBackend hs _).later
  | resolved => exact .refl hs
  | connected => exact (Visitor.sameBackends_notify _ _ _ _).later hs
  | dropped => exact .refl hs
  | handled => exact (Visitor.sameBackends_notify _ _ _ _).later hs
  | destroyed => exact (Visitor.sameBackends_notify _ _ _ _).later hs

omit [LawfulPairingHeap] in
theorem wellFormed_stepCase {s t : Selector} {client client' : Client} {e : ClientEvent}
    (hs : s.Inv) (hclient : client.WellFormed s.type) (h : StepCase s client e t client') :
    client'.WellFormed s.type := by
  cases h with
  | @selected b =>
      apply wellFormed_of_no_session
      intro b' v state
      cases b <;> simp [Phase.attempt]
  | unselected ready unselected halted =>
      apply wellFormed_of_no_session
      intro b v state
      rcases halted with rfl | ⟨e, -, rfl⟩ <;> simp
  | @refused e b =>
      apply wellFormed_of_no_session
      intro b' v state
      cases (s.excludeBackend b).1 <;> simp [Phase.after]
  | resolved => exact wellFormed_of_no_session fun b v state => by simp
  | connected => exact wellFormed_notify hs (Visitor.belongsTo_make _ _) _ _
  | dropped => exact wellFormed_of_no_session fun b v state => by simp
  | handled running => exact wellFormed_notify hs (hclient _ _ _ running) _ _
  | destroyed cancelled => exact wellFormed_notify hs (hclient _ _ _ cancelled) _ _

end Client

namespace System

structure Inv (sys : System) : Prop where
  selector : sys.selector.Inv
  clients : ∀ client ∈ sys.clients, client.WellFormed sys.selector.type

theorem inv_initial {s : Selector} (hs : s.Inv) : (initial s).Inv :=
  ⟨hs, fun _ h => absurd h List.not_mem_nil⟩

variable [LawfulPairingHeap]

theorem later_step {sys t : System} {e : Event} (hsys : sys.Inv) (h : sys.step e = some t) :
    Selector.Later sys.selector t.selector := by
  cases e with
  | accepts endpoint =>
      rw [step_accepts h]
      exact .refl hsys.selector
  | client c e =>
      obtain ⟨client, s, client', -, hcase, rfl⟩ := step_client h
      exact Client.later_stepCase hsys.selector hcase

theorem inv_step {sys t : System} {e : Event} (hsys : sys.Inv) (h : sys.step e = some t) :
    t.Inv := by
  have hlater := later_step hsys h
  refine ⟨hlater.inv, ?_⟩
  rw [hlater.type]
  refine forall_clients_step h hsys.clients (fun endpoint => ?_) ?_
  · exact Client.wellFormed_of_no_session fun b v state => by simp [Client.new]
  · intro c ce client client' _ hclient hcase
    have hold := hsys.clients client (List.mem_of_getElem? hclient)
    exact Client.wellFormed_stepCase hsys.selector hold hcase

theorem inv_run {sys t : System} {es : List Event} (hsys : sys.Inv)
    (hrun : Run (Steps step) sys es t) : t.Inv :=
  hrun.invariant (fun _ _ _ h hstep => inv_step h hstep) hsys

theorem later_run {sys t : System} {es : List Event} (hsys : sys.Inv)
    (hrun : Run (Steps step) sys es t) : Selector.Later sys.selector t.selector := by
  induction hrun with
  | nil => exact .refl hsys.selector
  | snoc hrun hstep ih => exact ih.trans (later_step (inv_run hsys hrun) hstep)

end System

/-! ## The events of one client -/

/-- What is read off an event of client `c`. -/
def Event.of {α : Type*} (read : ClientEvent → Option α) (c : Nat) : Event → Option α
  | .client c' e => if c' = c then read e else none
  | .accepts _ => none

theorem filterMap_of_snoc {α : Type*} (read : ClientEvent → Option α) (c : Nat) (es : List Event)
    (e : Event) : (es ++ [e]).filterMap (Event.of read c) =
      es.filterMap (Event.of read c) ++ (e.of read c).toList := by
  cases he : e.of read c <;> simp [he]

namespace System

/-- Every client's phase and what is read off its events are in the relation `P`; a client yet
    to come has no events. -/
def Tracked {α : Type*} (read : ClientEvent → Option α) (P : List α → Phase → Prop)
    (sys : System) (es : List Event) : Prop :=
  ∀ c, match sys.clients[c]? with
    | some client => P (es.filterMap (Event.of read c)) client.phase
    | none => es.filterMap (Event.of read c) = []

theorem tracked_step {α : Type*} {read : ClientEvent → Option α} {P : List α → Phase → Prop}
    (hnew : P [] .ready)
    (hstep : ∀ {xs : List α} {s t : Selector} {client client' : Client} {e : ClientEvent},
      P xs client.phase → client.step s e = some (t, client') →
        P (xs ++ (read e).toList) client'.phase)
    {sys t : System} {es : List Event} {e : Event} (hsys : sys.Tracked read P es)
    (h : sys.step e = some t) : t.Tracked read P (es ++ [e]) := by
  intro c
  have hc := hsys c
  rw [filterMap_of_snoc]
  cases e with
  | accepts endpoint =>
      rw [step_accepts h, List.getElem?_append]
      have hnone : (Event.accepts endpoint).of read c = none := rfl
      rw [hnone, Option.toList_none, List.append_nil]
      split at hc
      · next client hclient =>
        rw [if_pos (List.getElem?_eq_some_iff.mp hclient).1, hclient]
        exact hc
      · next hbeyond =>
        rw [if_neg (Nat.not_lt.mpr (List.getElem?_eq_none_iff.mp hbeyond)), hc]
        cases c - sys.clients.length with
        | zero => exact hnew
        | succ i => rfl
  | client c' ce =>
      obtain ⟨client, hclient, h⟩ := Option.bind_eq_some_iff.mp h
      obtain ⟨⟨s, client'⟩, hnext, h⟩ := Option.bind_eq_some_iff.mp h
      rw [← Option.some.inj h]
      by_cases hsame : c' = c
      · subst hsame
        rw [hclient] at hc
        have hread : (Event.client c' ce).of read c' = read ce := if_pos rfl
        rw [hread, List.getElem?_set_self (List.getElem?_eq_some_iff.mp hclient).1]
        exact hstep hc hnext
      · have hread : (Event.client c' ce).of read c = none := if_neg hsame
        rw [hread, Option.toList_none, List.append_nil, List.getElem?_set_ne hsame]
        exact hc

/-- What a step of a client keeps, a run keeps of every client. -/
theorem tracked_run {α : Type*} {read : ClientEvent → Option α} {P : List α → Phase → Prop}
    (hnew : P [] .ready)
    (hstep : ∀ {xs : List α} {s t : Selector} {client client' : Client} {e : ClientEvent},
      P xs client.phase → client.step s e = some (t, client') →
        P (xs ++ (read e).toList) client'.phase)
    {s : Selector} {t : System} {es : List Event} (hrun : Run (Steps step) (initial s) es t) :
    t.Tracked read P es := by
  induction hrun with
  | nil => exact fun c => rfl
  | snoc _ hnext ih => exact tracked_step hnew hstep ih hnext

end System

end LoadBalancer
