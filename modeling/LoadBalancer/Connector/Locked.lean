/-
  The connector over a selector whose calls run under the selector's mutex.

  In `System` each selector call is one step. Here a handler makes its call through the body of
  `Selectors.Locked`, while the handlers of other clients run too. `locked_reachable_iff`: with no
  call going on, both reach the same states, so the step of `System` assumes nothing of the mutex
  that the code does not do. `locked_calls`: the selector is touched under the mutex only, no call
  is stuck, and the clients outside of calls are those of a run of `System`.
-/
import LoadBalancer.Connector.System
import LoadBalancer.Lib.Mutex
import LoadBalancer.Lib.Observation
import LoadBalancer.Selectors.Locked

namespace LoadBalancer

open Transition Mutex

section

variable [Platform]

/-! ## The call of a handler -/

/-- What a call of a notification ends with. -/
def Reply.outcome : Reply → Outcome Unit
  | .done result => result
  | .backend _ => .undefined

/-- The visitor after a notification, and the selector call that it makes. -/
def Visitor.request (notification : Notification) (now : Int) :
    Visitor → Visitor × Option Request
  | .none => (.none, Option.none)
  | .leastConnectionsCallbacks backend =>
    (.leastConnectionsCallbacks backend,
      match notification with
      | .onConnect => some (.increase backend)
      | .onDisconnect => some (.decrease backend)
      | _ => Option.none)
  | .leastResponseTimeCallbacks backend responseBegin =>
    match notification with
    | .onRequestSent => (.leastResponseTimeCallbacks backend now, Option.none)
    | .onResponseReceive =>
      (.leastResponseTimeCallbacks backend responseBegin,
        some (.addResponseTime backend (now - responseBegin)))
    | _ => (.leastResponseTimeCallbacks backend responseBegin, Option.none)

namespace Client

/-- `MakeAndRunSession`, around its call of `SelectBackend`. -/
def asksSelection (client : Client) : Request × (Reply → Client) :=
  (.select client.endpoint, fun
    | .backend (.returned b) =>
      { client with phase := .attempt b, attempts := client.attempts ++ [b] }
    | .backend (.thrown e) => { client with phase := .failed e }
    | _ => { client with phase := .undefined })

/-- A handler around its call of `ExcludeBackend`. -/
def asksExclusion (client : Client) (backend : Backend) : Request × (Reply → Client) :=
  (.exclude backend, fun reply => { client with phase := .after reply.outcome .ready })

/-- A call of the session around the selector call of its notification. -/
def asksNotification (client : Client) (backend : Backend) (visitor : Visitor)
    (call : Notification × SessionState) (now : Int) : Client ⊕ (Request × (Reply → Client)) :=
  match visitor.request call.1 now with
  | (visitor, none) => .inl { client with phase := .session backend visitor call.2 }
  | (visitor, some request) =>
    .inr (request, fun reply =>
      { client with phase := .after reply.outcome (.session backend visitor call.2) })

/-- What a handler does: it goes to another phase, or makes one call and goes on with the
    reply. -/
def asks (type : SelectorType) (client : Client) :
    ClientEvent → Option (Client ⊕ (Request × (Reply → Client)))
  | .selects =>
    match client.phase with
    | .ready => some (.inr client.asksSelection)
    | _ => none
  | .resolves ec =>
    match client.phase with
    | .resolving url =>
      match ec with
      | .success => some (.inl { client with phase := .connectingResolved url })
      | .connectionRefused => some (.inr (client.asksExclusion (.url url)))
      | ec => some (.inl { client with phase := .dropped (.url url) ec })
    | _ => none
  | .connects ec =>
    match client.phase with
    | .connecting ep =>
      match ec with
      | .success =>
        some (client.asksNotification (.endpoint ep) (.make type (.endpoint ep)) HttpSession.run 0)
      | .connectionRefused => some (.inr (client.asksExclusion (.endpoint ep)))
      | ec => some (.inl { client with phase := .dropped (.endpoint ep) ec })
    | .connectingResolved url =>
      match ec with
      | .success =>
        some (client.asksNotification (.url url) (.make type (.url url)) HttpSession.run 0)
      | ec => some (.inl { client with phase := .dropped (.url url) ec })
    | _ => none
  | .completes ec now =>
    match client.phase with
    | .session backend visitor (.running operation) =>
      some (client.asksNotification backend visitor (HttpSession.handle operation ec) now)
    | _ => none
  | .destroys =>
    match client.phase with
    | .session backend visitor .cancelled =>
      some (client.asksNotification backend visitor HttpSession.destroy 0)
    | _ => none

/-- A handler with its call made at once. -/
def answered (s : Selector) : Client ⊕ (Request × (Reply → Client)) → Selector × Client
  | .inl client => (s, client)
  | .inr (request, next) => ((s.call request).2, next (s.call request).1)

theorem answered_selection (s : Selector) (client : Client) :
    answered s (.inr client.asksSelection) = makeAndRunSession s client := by
  unfold makeAndRunSession
  simp only [answered, asksSelection, Selector.call]
  rcases s.selectBackend client.endpoint with ⟨result, t⟩
  cases result <;> rfl

theorem answered_notification (s : Selector) (client : Client) (b : Backend) (v : Visitor)
    (call : Notification × SessionState) (now : Int) :
    answered s (client.asksNotification b v call now) = notify s client b v call now := by
  obtain ⟨notification, state⟩ := call
  cases v with
  | none => rfl
  | leastConnectionsCallbacks backend => cases notification <;> rfl
  | leastResponseTimeCallbacks backend responseBegin => cases notification <;> rfl

/-- A step of a client is its handler with the call made at once. -/
theorem step_eq_answered {type : SelectorType} {s : Selector} (hs : s.type = type)
    (client : Client) (e : ClientEvent) :
    client.step s e = (client.asks type e).map (answered s) := by
  subst hs
  cases e with
  | selects =>
      simp only [step, asks]
      cases client.phase <;> first | rfl | exact congrArg some (answered_selection s client).symm
  | resolves ec =>
      simp only [step, asks]
      cases client.phase with
      | resolving url => cases ec <;> rfl
      | _ => rfl
  | connects ec =>
      simp only [step, asks]
      cases client.phase with
      | connecting ep =>
          cases ec with
          | success => exact congrArg some (answered_notification s client _ _ _ _).symm
          | _ => rfl
      | connectingResolved url =>
          cases ec with
          | success => exact congrArg some (answered_notification s client _ _ _ _).symm
          | _ => rfl
      | _ => rfl
  | completes ec now =>
      simp only [step, asks]
      cases client.phase with
      | session b v state =>
          cases state with
          | running op => exact congrArg some (answered_notification s client _ _ _ _).symm
          | _ => rfl
      | _ => rfl
  | destroys =>
      simp only [step, asks]
      cases client.phase with
      | session b v state =>
          cases state with
          | cancelled => exact congrArg some (answered_notification s client _ _ _ _).symm
          | _ => rfl
      | _ => rfl

end Client

theorem Selector.type_call (s : Selector) (op : Request) : (s.call op).2.type = s.type := by
  cases op with
  | select client => cases s <;> rfl
  | exclude b => cases s <;> rfl
  | increase b => cases s <;> rfl
  | decrease b => cases s <;> rfl
  | addResponseTime b responseTime => cases s <;> rfl

/-! ## The system -/

/-- The handlers of the clients over a selector of a type and its mutex. -/
def Connector.program (type : SelectorType) :
    Program type.Object Selector Client ClientEvent Endpoint Request Reply where
  new := Client.new
  next := Client.asks type
  call := fun op s => s.call op
  body := Selector.body type
  abs := SelectorType.Object.toSelector
  recursive := type.recursive
  guarded := Selector.guarded_body type
  meaning := Selector.run_body

namespace System

def ofCoarse (y : Coarse Selector Client) : System :=
  { selector := y.shared, clients := y.threads }

def coarseEvent : Event → CoarseEvent ClientEvent Endpoint
  | .accepts endpoint => .spawns endpoint
  | .client c e => .steps c e

def ofCoarseEvent : CoarseEvent ClientEvent Endpoint → Event
  | .spawns endpoint => .accepts endpoint
  | .steps c e => .client c e

/-- The program with atomic calls is `System`. -/
theorem step_ofCoarse {type : SelectorType} {y : Coarse Selector Client}
    (hy : y.shared.type = type) (e : CoarseEvent ClientEvent Endpoint) :
    (ofCoarse y).step (ofCoarseEvent e) = ((Connector.program type).coarse y e).map ofCoarse := by
  cases e with
  | spawns endpoint => rfl
  | steps c e =>
      simp only [step, ofCoarseEvent, ofCoarse, Program.coarse, Connector.program]
      cases y.threads[c]? with
      | none => rfl
      | some client =>
          simp only [Option.bind_eq_bind, Option.bind_some, Client.step_eq_answered hy]
          cases client.asks type e with
          | none => rfl
          | some asked =>
              cases asked with
              | inl client' => rfl
              | inr call => rfl

theorem type_coarse {type : SelectorType} {y y' : Coarse Selector Client}
    {e : CoarseEvent ClientEvent Endpoint}
    (h : (Connector.program type).coarse y e = some y') : y'.shared.type = y.shared.type := by
  cases e with
  | spawns endpoint =>
      obtain rfl := Option.some.inj h
      rfl
  | steps c e =>
      simp only [Program.coarse, Connector.program] at h
      split at h
      · cases h
      · split at h
        · cases h
        · obtain rfl := Option.some.inj h
          rfl
        · obtain rfl := Option.some.inj h
          exact Selector.type_call _ _

theorem type_toSelector {type : SelectorType} (s : type.Object) : s.toSelector.type = type := by
  cases type <;> rfl

theorem run_ofCoarse {type : SelectorType} {s : type.Object} {y : Coarse Selector Client}
    {es : List (CoarseEvent ClientEvent Endpoint)}
    (hrun : Run (Steps (Connector.program type).coarse)
      ((Connector.program type).coarseInitial s) es y) :
    y.shared.type = type ∧
      Run (Steps step) (initial s.toSelector) (es.map ofCoarseEvent) (ofCoarse y) := by
  induction hrun with
  | nil => exact ⟨type_toSelector s, .nil _⟩
  | snoc _ hstep ih =>
      obtain ⟨htype, hrun⟩ := ih
      refine ⟨(type_coarse hstep).trans htype, ?_⟩
      rw [List.map_append]
      refine .snoc hrun ?_
      unfold Steps at hstep ⊢
      rw [step_ofCoarse htype, hstep]
      rfl

theorem coarse_run {type : SelectorType} {s : type.Object} {t : System} {es : List Event}
    (hrun : Run (Steps step) (initial s.toSelector) es t) :
    ∃ y es', Run (Steps (Connector.program type).coarse)
      ((Connector.program type).coarseInitial s) es' y ∧ ofCoarse y = t := by
  induction hrun with
  | nil => exact ⟨_, _, .nil _, rfl⟩
  | @snoc u t es e _ hstep ih =>
      obtain ⟨y, es', hy, rfl⟩ := ih
      have htype := (run_ofCoarse hy).1
      have hevent : ofCoarseEvent (coarseEvent e) = e := by cases e <;> rfl
      unfold Steps at hstep
      rw [← hevent, step_ofCoarse htype] at hstep
      obtain ⟨y', hy', rfl⟩ := Option.map_eq_some_iff.mp hstep
      exact ⟨y', _, .snoc hy hy', rfl⟩

/-- The clients and the selector, where no call is going on. -/
def ofFine {type : SelectorType} (x : Fine type.Object Client Request Reply) : System :=
  { selector := x.shared.toSelector, clients := x.threads.map Prod.fst }

/-- Where no selector call is going on, the handlers reach with the mutex exactly what they reach
    where each selector call is one step. -/
theorem locked_reachable_iff {type : SelectorType} {s : type.Object} {t : System} :
    (∃ es, Run (Steps step) (initial s.toSelector) es t) ↔
      ∃ events x, Run (Steps (Connector.program type).fine) (Program.fineInitial s) events x ∧
        x.Quiet ∧ ofFine x = t := by
  constructor
  · intro hreached
    obtain ⟨es, hrun⟩ := hreached
    obtain ⟨y, es', hy, rfl⟩ := coarse_run hrun
    obtain ⟨events, x, hx, hquiet, rfl⟩ := Program.reached_iff.mp ⟨es', hy⟩
    exact ⟨events, x, hx, hquiet, rfl⟩
  · intro hreached
    obtain ⟨events, x, hx, hquiet, rfl⟩ := hreached
    obtain ⟨es', hy⟩ := Program.reached_iff.mpr ⟨events, x, hx, hquiet, rfl⟩
    exact ⟨_, (run_ofCoarse hy).2⟩

/-- Whatever calls are going on: a run of `System` leads to the same selector, where the mutex
    is free, and to the same clients, where they are in no call; only the owner of the mutex is
    at an access of the selector; and every call can be run to its end. -/
theorem locked_calls {type : SelectorType} {s : type.Object}
    {events : List (FineEvent ClientEvent Endpoint)} {x : Fine type.Object Client Request Reply}
    (hrun : Run (Steps (Connector.program type).fine) (Program.fineInitial s) events x) :
    (∃ es t, Run (Steps step) (initial s.toSelector) es t ∧
      (x.owner = none → t.selector = x.shared.toSelector) ∧
      ∀ (c : Nat) (client : Client), x.threads[c]? = some (client, none) →
        t.clients[c]? = some client) ∧
    ∀ (c : Nat) (client : Client) (call : Mutex.Call type.Object Client Request Reply),
      x.threads[c]? = some (client, some call) →
        (∀ effect next, call.code = .access effect next → ∃ n, x.owner = some (c, n)) ∧
        ∃ es x', Run (Steps (Connector.program type).fine) x es x' ∧
          (∀ e ∈ es, e.continues = true) ∧ ∃ client', x'.threads[c]? = some (client', none) := by
  obtain ⟨es, y, hy, hrep⟩ := Program.refines _ hrun
  refine ⟨⟨_, ofCoarse y, (run_ofCoarse hy).2, hrep.free, ?_⟩, ?_⟩
  · intro c client hc
    obtain ⟨l, hl, -, hmatch⟩ := hrep.thread hc
    cases hmatch
    exact hl
  · intro c client call hc
    exact ⟨fun effect next hcode => hrep.owner_of_access hc hcode, hrep.completes hc⟩

end System

end

namespace System

section

open Reference Selector

def robinObject : SelectorType.Object .roundRobin := (⟨0, [port80, port81]⟩ : RoundRobinSelector)

/-- The first client is in its selection, and the second waits for the mutex. -/
def twoCalling : List (FineEvent ClientEvent Endpoint) :=
  [.spawns somebody, .spawns somebody, .begins 0 .selects, .begins 1 .selects, .acts 0, .acts 0]

def afterTwoCalling : Fine (SelectorType.Object .roundRobin) Client Request Reply :=
  (twoCalling.foldlM (Connector.program .roundRobin).fine
    (Program.fineInitial robinObject)).getD (Program.fineInitial robinObject)

theorem run_twoCalling : Run (Steps (Connector.program .roundRobin).fine)
    (Program.fineInitial robinObject) twoCalling afterTwoCalling :=
  .of_isSome (by rfl) _

theorem locked_calls_twoCalling :
    (Connector.program .roundRobin).fine afterTwoCalling (.acts 1) = none ∧
      ∀ (c : Nat) (client : Client) (call : Mutex.Call _ Client Request Reply),
        afterTwoCalling.threads[c]? = some (client, some call) →
          (∀ effect next, call.code = .access effect next →
            ∃ n, afterTwoCalling.owner = some (c, n)) ∧
          ∃ es x', Run (Steps (Connector.program .roundRobin).fine) afterTwoCalling es x' ∧
            (∀ e ∈ es, e.continues = true) ∧ ∃ client', x'.threads[c]? = some (client', none) :=
  ⟨by rfl, (locked_calls run_twoCalling).2⟩

end

end System

end LoadBalancer
