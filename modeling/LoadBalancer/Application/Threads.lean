/-
  The threads of `Application` and the clients of `System`.

  `reachable_iff`: with at least as many threads as clients, the system of an application reaches
  what `System` reaches. A thread of its own for each client is enough, and no number of threads
  adds an interleaving of the selector calls.

  `accounted_run`: a client whose handler is between two selector calls is in the hands of one
  thread, unless its handler threw where it asked for the endpoint of the client's socket.
-/
import LoadBalancer.Application
import LoadBalancer.Lib.Observation

namespace LoadBalancer

open Transition

section

variable [Platform]

/-! ## The handler that makes a step -/

/-- A step that starts a handler finds the client in no handler, and a handler goes on with the
    step that the client's phase asks for. -/
theorem Client.worker_of_step {s : Selector} {client : Client} {e : ClientEvent}
    {r : Selector × Client} (h : client.step s e = some r) (c : Nat) :
    client.phase.continuation = (if e.isCompletion then none else some e) ∧
      client.phase.worker c = if e.isCompletion then .idle else .handling c := by
  cases e with
  | selects =>
      simp only [step] at h
      split at h
      · next hphase => rw [hphase]; exact ⟨rfl, rfl⟩
      · cases h
  | resolves ec =>
      simp only [step] at h
      split at h
      · next url hphase => rw [hphase]; exact ⟨rfl, rfl⟩
      · cases h
  | connects ec =>
      simp only [step] at h
      split at h
      · next ep hphase => rw [hphase]; exact ⟨rfl, rfl⟩
      · next url hphase => rw [hphase]; exact ⟨rfl, rfl⟩
      · cases h
  | completes ec now =>
      simp only [step] at h
      split at h
      · next b v op hphase => rw [hphase]; exact ⟨rfl, rfl⟩
      · cases h
  | destroys =>
      simp only [step] at h
      split at h
      · next b v hphase => rw [hphase]; exact ⟨rfl, rfl⟩
      · cases h

theorem Client.step_of_continuation (s : Selector) {client : Client} {e : ClientEvent}
    (h : client.phase.continuation = some e) : ∃ r, client.step s e = some r := by
  unfold Phase.continuation at h
  split at h
  · next hphase =>
    obtain rfl := Option.some.inj h
    exact ⟨_, by simp only [step, hphase]; rfl⟩
  · next b v hphase =>
    obtain rfl := Option.some.inj h
    exact ⟨_, by simp only [step, hphase]; rfl⟩
  · cases h

/-- A handler that went on does not go on again. -/
theorem Client.continuation_of_continued {s s' : Selector} {client client' : Client}
    {e : ClientEvent} (hphase : client.phase.continuation = some e)
    (h : client.step s e = some (s', client')) : client'.phase.continuation = none := by
  unfold Phase.continuation at hphase
  split at hphase
  · next ready =>
    obtain rfl := Option.some.inj hphase
    cases Client.stepCase_of_step h with
    | @selected b => cases b <;> rfl
    | unselected _ _ halted => rcases halted with rfl | ⟨e, -, rfl⟩ <;> rfl
    | refused attempting => rw [ready] at attempting; cases attempting
    | dropped attempting => rw [ready] at attempting; cases attempting
  · next b v cancelled =>
    obtain rfl := Option.some.inj hphase
    cases Client.stepCase_of_step h with
    | refused attempting => rw [cancelled] at attempting; cases attempting
    | dropped attempting => rw [cancelled] at attempting; cases attempting
    | @destroyed b v =>
        simp only [Client.notify]
        cases (v.notify HttpSession.destroy.1 0 s).2.1 <;> rfl
  · cases hphase

theorem Phase.worker_eq_handling {phase : Phase} {c d : Nat} :
    phase.worker c = .handling d ↔ phase.continuation.isSome = true ∧ c = d := by
  cases phase with
  | session b v state => cases state <;> simp [worker, continuation]
  | _ => simp [worker, continuation]

theorem System.length_clients_step {sys t : System} {e : Event} (h : sys.step e = some t) :
    sys.clients.length ≤ t.clients.length := by
  cases e with
  | accepts endpoint =>
      rw [System.step_accepts h, List.length_append]
      exact Nat.le_add_right _ _
  | client c ce =>
      obtain ⟨client, s, client', -, -, rfl⟩ := System.step_client h
      exact Nat.le_of_eq List.length_set.symm

namespace Application

/-! ## Steps -/

/-- The state after a step of client `c` by worker `w`. -/
def performed (app : Application) (w c : Nat) (s : Selector) (client : Client) : Application :=
  { app with
    system := { selector := s, clients := app.system.clients.set c client }
    workers := app.workers.set w (client.phase.worker c) }

theorem perform_eq_some {app app' : Application} {w c : Nat} {e : ClientEvent} :
    app.perform w c e = some app' ↔ ∃ client s client', app.system.clients[c]? = some client ∧
      client.step app.system.selector e = some (s, client') ∧
      app' = app.performed w c s client' := by
  unfold perform System.step
  simp only [Option.pure_def, Option.bind_eq_bind]
  constructor
  · intro h
    obtain ⟨system, hsystem, h⟩ := Option.bind_eq_some_iff.mp h
    obtain ⟨client, hclient, hsystem⟩ := Option.bind_eq_some_iff.mp hsystem
    obtain ⟨⟨s, client'⟩, hstep, hsystem⟩ := Option.bind_eq_some_iff.mp hsystem
    obtain rfl := Option.some.inj hsystem
    obtain ⟨found, hfound, h⟩ := Option.bind_eq_some_iff.mp h
    obtain ⟨hlt, -⟩ := List.getElem?_eq_some_iff.mp hclient
    obtain rfl := Option.some.inj ((List.getElem?_set_self hlt).symm.trans hfound)
    exact ⟨client, s, _, hclient, hstep, (Option.some.inj h).symm⟩
  · intro h
    obtain ⟨client, s, client', hclient, hstep, rfl⟩ := h
    obtain ⟨hlt, -⟩ := List.getElem?_eq_some_iff.mp hclient
    simp only [hclient, hstep, Option.bind_some, List.getElem?_set_self hlt]
    rfl

/-- What a step does, and with which client. -/
inductive Acts (app : Application) : AppEvent → Application → Prop where
  | accepts {w : Nat} {endpoint : Endpoint} (idle : app.workers[w]? = some .idle)
      (running : app.stopped = false) :
      Acts app (.accepts w endpoint)
        { app with
          system := { app.system with clients := app.system.clients ++ [Client.new endpoint] }
          workers := app.workers.set w (.handling app.system.clients.length) }
  | starts {w c : Nat} {e : ClientEvent} {client client' : Client} {s : Selector}
      (idle : app.workers[w]? = some .idle) (running : app.stopped = false)
      (completion : e.isCompletion = true) (found : app.system.clients[c]? = some client)
      (stepped : client.step app.system.selector e = some (s, client')) :
      Acts app (.starts w c e) (app.performed w c s client')
  | resumes {w c : Nat} {e : ClientEvent} {client client' : Client} {s : Selector}
      (handling : app.workers[w]? = some (.handling c))
      (found : app.system.clients[c]? = some client)
      (continues : client.phase.continuation = some e)
      (stepped : client.step app.system.selector e = some (s, client')) :
      Acts app (.resumes w) (app.performed w c s client')
  | disconnected {w c : Nat} {client : Client} (handling : app.workers[w]? = some (.handling c))
      (found : app.system.clients[c]? = some client) (ready : client.phase = .ready) :
      Acts app (.disconnected w)
        { app with workers := app.workers.set w (.unwinding .notConnected) }
  | terminates {w : Nat} {e : Exception} (unwinding : app.workers[w]? = some (.unwinding e)) :
      Acts app (.terminates w)
        { app with
          workers := app.workers.set w (.terminated e)
          stopped := true
          exitCode := exitFailure }
  | interrupts {w : Nat} (idle : app.workers[w]? = some .idle) (running : app.stopped = false) :
      Acts app (.interrupts w) { app with stopped := true }
  | exits {w : Nat} (idle : app.workers[w]? = some .idle) (stopped : app.stopped = true) :
      Acts app (.exits w) { app with workers := app.workers.set w .exited }

theorem acts_of_step {app app' : Application} {event : AppEvent}
    (h : app.step event = some app') : app.Acts event app' := by
  cases event with
  | accepts w endpoint =>
      simp only [step] at h
      split at h
      · next idle running =>
        rw [← Option.some.inj h]
        exact .accepts idle running
      · cases h
  | starts w c e =>
      simp only [step] at h
      split at h
      · next idle running =>
        obtain ⟨completion, h⟩ := Option.ite_none_right_eq_some.mp h
        obtain ⟨client, s, client', found, stepped, rfl⟩ := perform_eq_some.mp h
        exact .starts idle running completion found stepped
      · cases h
  | resumes w =>
      simp only [step] at h
      split at h
      · next c handling =>
        obtain ⟨client, found, h⟩ := Option.bind_eq_some_iff.mp h
        obtain ⟨e, continues, h⟩ := Option.bind_eq_some_iff.mp h
        obtain ⟨client₁, s, client', found₁, stepped, rfl⟩ := perform_eq_some.mp h
        obtain rfl := Option.some.inj (found.symm.trans found₁)
        exact .resumes handling found continues stepped
      · cases h
  | disconnected w =>
      simp only [step] at h
      split at h
      · next c handling =>
        obtain ⟨client, found, h⟩ := Option.bind_eq_some_iff.mp h
        split at h
        · next ready =>
          rw [← Option.some.inj h]
          exact .disconnected handling found ready
        · cases h
      · cases h
  | terminates w =>
      simp only [step] at h
      split at h
      · next e unwinding =>
        rw [← Option.some.inj h]
        exact .terminates unwinding
      · cases h
  | interrupts w =>
      simp only [step] at h
      split at h
      · next idle running =>
        rw [← Option.some.inj h]
        exact .interrupts idle running
      · cases h
  | exits w =>
      simp only [step] at h
      split at h
      · next idle stopped =>
        rw [← Option.some.inj h]
        exact .exits idle stopped
      · cases h

theorem step_of_acts {app app' : Application} {event : AppEvent} (h : app.Acts event app') :
    app.step event = some app' := by
  cases h with
  | accepts idle running => simp only [step, idle, running]; rfl
  | starts idle running completion found stepped =>
      simp only [step, idle, running, completion, if_true]
      exact perform_eq_some.mpr ⟨_, _, _, found, stepped, rfl⟩
  | resumes handling found continues stepped =>
      simp only [step, handling, found, continues, Option.bind_eq_bind, Option.bind_some]
      exact perform_eq_some.mpr ⟨_, _, _, found, stepped, rfl⟩
  | disconnected handling found ready =>
      simp only [step, handling, found, ready, Option.bind_eq_bind, Option.bind_some]
      rfl
  | terminates unwinding => simp only [step, unwinding]; rfl
  | interrupts idle running => simp only [step, idle, running]; rfl
  | exits idle stopped => simp only [step, idle, stopped]

/-! ## The system of an application -/

theorem system_performed {app : Application} {w c : Nat} {e : ClientEvent}
    {client client' : Client} {s : Selector} (found : app.system.clients[c]? = some client)
    (stepped : client.step app.system.selector e = some (s, client')) :
    app.system.step (.client c e) = some (app.performed w c s client').system := by
  simp only [System.step, found, stepped, Option.bind_eq_bind, Option.bind_some]
  rfl

/-- The step that the event makes in the system. -/
def systemEvent (app : Application) : AppEvent → Option Event
  | .accepts _ endpoint => some (.accepts endpoint)
  | .starts _ c e => some (.client c e)
  | .resumes w =>
    match app.workers[w]? with
    | some (.handling c) => do
      let client ← app.system.clients[c]?
      let e ← client.phase.continuation
      return .client c e
    | _ => none
  | _ => none

/-- A step of an application makes one step of its system or none. -/
theorem system_step {app app' : Application} {event : AppEvent}
    (h : app.step event = some app') :
    Run (Steps System.step) app.system (app.systemEvent event).toList app'.system := by
  cases acts_of_step h with
  | accepts => exact .one rfl
  | starts _ _ _ found stepped => exact .one (system_performed found stepped)
  | @resumes w c e client client' s handling found continues stepped =>
      have hevent : app.systemEvent (.resumes w) = some (.client c e) := by
        simp [systemEvent, handling, found, continues]
      rw [hevent]
      exact .one (system_performed found stepped)
  | disconnected => exact .nil _
  | terminates => exact .nil _
  | interrupts => exact .nil _
  | exits => exact .nil _

theorem run_system {app app' : Application} {events : List AppEvent}
    (hrun : Run (Steps step) app events app') :
    Run (Steps System.step) app.system (observations step systemEvent app events) app'.system :=
  run_observed (I := fun _ => True) (fun _ _ _ _ _ => trivial)
    (fun _ _ _ _ hstep => system_step hstep) trivial hrun

/-- Worker `c` runs the handlers of client `c` and no others, and the io_context runs. -/
structure OneEach (app : Application) : Prop where
  running : app.stopped = false
  own : ∀ (c : Nat) (client : Client), app.system.clients[c]? = some client →
    app.workers[c]? = some (client.phase.worker c)
  free : ∀ c : Nat, app.system.clients.length ≤ c → c < app.workers.length →
    app.workers[c]? = some .idle

theorem oneEach_start (s : Selector) (threads : Nat) : (start s threads).OneEach where
  running := rfl
  own := by
    intro c client h
    cases h
  free := by
    intro c _ hlt
    exact List.getElem?_replicate_of_lt (by simpa [start] using hlt)

theorem oneEach_performed {app : Application} (happ : app.OneEach) {c : Nat}
    {client : Client} (s : Selector) (client' : Client)
    (found : app.system.clients[c]? = some client) :
    (app.performed c c s client').OneEach where
  running := happ.running
  own := by
    intro d other hother
    obtain ⟨hlt, -⟩ := List.getElem?_eq_some_iff.mp (happ.own c client found)
    obtain ⟨hclients, -⟩ := List.getElem?_eq_some_iff.mp found
    by_cases hd : c = d
    · subst hd
      obtain rfl := Option.some.inj ((List.getElem?_set_self hclients).symm.trans hother)
      exact List.getElem?_set_self hlt
    · have hsame : app.system.clients[d]? = some other :=
        (List.getElem?_set_ne hd).symm.trans hother
      exact (List.getElem?_set_ne hd).trans (happ.own d other hsame)
  free := by
    intro d hd hlt
    simp only [performed, List.length_set] at hd hlt
    obtain ⟨hclients, -⟩ := List.getElem?_eq_some_iff.mp found
    exact (List.getElem?_set_ne (by omega)).trans (happ.free d hd hlt)

/-- With a worker to spare for a new client, the application makes the step of its system. -/
theorem oneEach_step {app : Application} (happ : app.OneEach) {e : Event} {t : System}
    (h : app.system.step e = some t) (hroom : t.clients.length ≤ app.workers.length) :
    ∃ event app', app.step event = some app' ∧ app'.system = t ∧ app'.OneEach ∧
      app'.workers.length = app.workers.length := by
  cases e with
  | accepts endpoint =>
      obtain rfl := System.step_accepts h
      rw [List.length_append, List.length_singleton] at hroom
      have hidle := happ.free _ (Nat.le_refl _) hroom
      refine ⟨_, _, step_of_acts (.accepts hidle happ.running), rfl, ⟨happ.running, ?_, ?_⟩,
        List.length_set⟩
      · intro c client hc
        rcases Nat.lt_or_ge c app.system.clients.length with hlt | hge
        · rw [List.getElem?_append_left hlt] at hc
          exact (List.getElem?_set_ne (by omega)).trans (happ.own c client hc)
        · rw [List.getElem?_append_right hge] at hc
          obtain ⟨hone, hnew⟩ := List.getElem?_eq_some_iff.mp hc
          obtain rfl : app.system.clients.length = c := by
            rw [List.length_singleton] at hone
            omega
          rw [← show Client.new endpoint = client by simpa using hnew]
          exact List.getElem?_set_self hroom
      · intro c hc hlt
        simp only [List.length_append, List.length_singleton, List.length_set] at hc hlt
        exact (List.getElem?_set_ne (by omega)).trans (happ.free c (by omega) hlt)
  | client c ce =>
      obtain ⟨client, found, h⟩ := Option.bind_eq_some_iff.mp h
      obtain ⟨⟨s, client'⟩, stepped, h⟩ := Option.bind_eq_some_iff.mp h
      obtain rfl := Option.some.inj h
      obtain ⟨hphase, hworker⟩ := Client.worker_of_step stepped c
      have hown := happ.own c client found
      have hnext := oneEach_performed happ s client' found
      rw [hworker] at hown
      cases hcompletion : ce.isCompletion with
      | true =>
          rw [hcompletion, if_pos rfl] at hown
          exact ⟨_, _, step_of_acts (.starts hown happ.running hcompletion found stepped), rfl,
            hnext, List.length_set⟩
      | false =>
          rw [hcompletion, if_neg Bool.false_ne_true] at hown hphase
          exact ⟨_, _, step_of_acts (.resumes hown found hphase stepped), rfl, hnext,
            List.length_set⟩

theorem oneEach_run {s : Selector} {t : System} {es : List Event}
    (hrun : Run (Steps System.step) (.initial s) es t) {threads : Nat}
    (hroom : t.clients.length ≤ threads) :
    ∃ events app, Run (Steps step) (start s threads) events app ∧ app.system = t ∧
      app.OneEach ∧ app.workers.length = threads := by
  induction hrun with
  | nil => exact ⟨[], _, .nil _, rfl, oneEach_start s threads, List.length_replicate⟩
  | @snoc u t es e run hstep ih =>
      have hle := System.length_clients_step hstep
      obtain ⟨events, app, hevents, rfl, happ, hthreads⟩ := ih (hle.trans hroom)
      obtain ⟨event, app', happ', hsystem, hnext, hlength⟩ :=
        oneEach_step happ hstep (by rw [hthreads]; exact hroom)
      exact ⟨_, app', .snoc hevents happ', hsystem, hnext, hlength.trans hthreads⟩

/-- Applications with at least as many threads as clients reach, in their systems, exactly what
    `System` reaches. -/
theorem reachable_iff {s : Selector} {t : System} {threads : Nat}
    (h : t.clients.length ≤ threads) :
    (∃ es, Run (Steps System.step) (.initial s) es t) ↔
      ∃ events app, Run (Steps step) (start s threads) events app ∧ app.system = t := by
  constructor
  · intro hreached
    obtain ⟨es, hrun⟩ := hreached
    obtain ⟨events, app, hevents, hsystem, -⟩ := oneEach_run hrun h
    exact ⟨events, app, hevents, hsystem⟩
  · intro hreached
    obtain ⟨events, app, hevents, rfl⟩ := hreached
    exact ⟨_, run_system hevents⟩

/-! ## The handler of a client -/

/-- The client whose handler throws where it asks for the endpoint of the client's socket. -/
def deserts (app : Application) : AppEvent → Option Nat
  | .disconnected w =>
    match app.workers[w]? with
    | some (.handling c) => some c
    | _ => none
  | _ => none

/-- The clients whose handlers are between two selector calls: one worker is in each of the
    handlers, but for the handlers that threw. -/
structure Accounted (app : Application) (deserted : List Nat) : Prop where
  between : ∀ (c : Nat) (client : Client), app.system.clients[c]? = some client →
    (client.phase.continuation.isSome = true ↔
      (∃ w : Nat, app.workers[w]? = some (.handling c)) ∨ c ∈ deserted)
  once : ∀ w w' c : Nat, app.workers[w]? = some (.handling c) →
    app.workers[w']? = some (.handling c) → w = w'
  handled : ∀ w c : Nat, app.workers[w]? = some (.handling c) →
    c < app.system.clients.length ∧ c ∉ deserted
  accepted : ∀ c ∈ deserted, c < app.system.clients.length

theorem accounted_start (s : Selector) (threads : Nat) : (start s threads).Accounted [] := by
  have hidle : ∀ w c : Nat, (start s threads).workers[w]? ≠ some (.handling c) := by
    intro w c h
    cases List.eq_of_mem_replicate (List.mem_of_getElem? h)
  exact
    { between := fun c client h => nomatch h
      once := fun w w' c h => absurd h (hidle w c)
      handled := fun w c h => absurd h (hidle w c)
      accepted := fun c h => nomatch h }

/-- A worker that is not in a handler, and none after the step, changes nothing here. -/
theorem accounted_workers {app : Application} {deserted : List Nat} (happ : app.Accounted deserted)
    {w : Nat} {old new : Worker} {app' : Application} (hw : app.workers[w]? = some old)
    (hold : ∀ c, old ≠ .handling c) (hnew : ∀ c, new ≠ .handling c)
    (hsystem : app'.system = app.system) (hworkers : app'.workers = app.workers.set w new) :
    app'.Accounted deserted := by
  have hsame : ∀ v c : Nat, app'.workers[v]? = some (.handling c) ↔
      app.workers[v]? = some (.handling c) := by
    intro v c
    rw [hworkers, List.getElem?_set_eq_some hw]
    constructor
    · intro h
      rcases h with ⟨-, h⟩ | ⟨-, h⟩
      · exact absurd h (hnew c)
      · exact h
    · intro h
      refine Or.inr ⟨?_, h⟩
      intro heq
      subst heq
      exact hold c (Option.some.inj (hw.symm.trans h))
  obtain ⟨hbetween, honce, hhandled, haccepted⟩ := happ
  refine ⟨?_, ?_, ?_, ?_⟩
  · simpa only [hsystem, hsame] using hbetween
  · simpa only [hsame] using honce
  · simpa only [hsystem, hsame] using hhandled
  · simpa only [hsystem] using haccepted

/-- The step of a client that no other worker has in a handler. -/
theorem accounted_performed {app : Application} {deserted : List Nat}
    (happ : app.Accounted deserted) {w c : Nat} {old : Worker} {client : Client} (s : Selector)
    (client' : Client) (hw : app.workers[w]? = some old)
    (found : app.system.clients[c]? = some client)
    (hold : ∀ d, old = .handling d → d = c)
    (honly : ∀ v : Nat, app.workers[v]? = some (.handling c) → v = w) (hlost : c ∉ deserted) :
    (app.performed w c s client').Accounted deserted := by
  have hworkers : ∀ v d : Nat, (app.performed w c s client').workers[v]? = some (.handling d) ↔
      (w = v ∧ client'.phase.worker c = .handling d) ∨
        (w ≠ v ∧ app.workers[v]? = some (.handling d)) :=
    fun v d => List.getElem?_set_eq_some hw
  refine ⟨?_, ?_, ?_, ?_⟩
  · intro d other hother
    rw [performed, List.getElem?_set_eq_some found] at hother
    rcases hother with ⟨rfl, rfl⟩ | ⟨hne, hother⟩
    · constructor
      · intro hcontinues
        exact Or.inl ⟨w, (hworkers w c).mpr
          (Or.inl ⟨rfl, Phase.worker_eq_handling.mpr ⟨hcontinues, rfl⟩⟩)⟩
      · intro h
        rcases h with ⟨v, hv⟩ | h
        · rcases (hworkers v c).mp hv with ⟨-, hv⟩ | ⟨hne, hv⟩
          · exact (Phase.worker_eq_handling.mp hv).1
          · exact absurd (honly v hv).symm hne
        · exact absurd h hlost
    · rw [happ.between d other hother]
      refine or_congr_left (exists_congr fun v => ?_)
      rw [hworkers]
      constructor
      · intro hv
        refine Or.inr ⟨?_, hv⟩
        rintro rfl
        exact hne (hold d (Option.some.inj (hw.symm.trans hv))).symm
      · intro hv
        rcases hv with ⟨-, hv⟩ | ⟨-, hv⟩
        · exact absurd (Phase.worker_eq_handling.mp hv).2 hne
        · exact hv
  · intro v v' d hv hv'
    rcases (hworkers v d).mp hv with ⟨rfl, hnow⟩ | ⟨-, hthen⟩
    · obtain ⟨-, rfl⟩ := Phase.worker_eq_handling.mp hnow
      rcases (hworkers v' c).mp hv' with ⟨rfl, -⟩ | ⟨-, hthen'⟩
      · rfl
      · exact (honly v' hthen').symm
    · rcases (hworkers v' d).mp hv' with ⟨rfl, hnow'⟩ | ⟨-, hthen'⟩
      · obtain ⟨-, rfl⟩ := Phase.worker_eq_handling.mp hnow'
        exact honly v hthen
      · exact happ.once v v' d hthen hthen'
  · intro v d hv
    rw [performed, List.length_set]
    rcases (hworkers v d).mp hv with ⟨-, hv⟩ | ⟨-, hv⟩
    · obtain ⟨-, rfl⟩ := Phase.worker_eq_handling.mp hv
      exact ⟨(List.getElem?_eq_some_iff.mp found).1, hlost⟩
    · exact happ.handled v d hv
  · intro d hd
    rw [performed, List.length_set]
    exact happ.accepted d hd

/-- A worker takes a new client. -/
theorem accounted_accepted {app : Application} {deserted : List Nat} (happ : app.Accounted deserted)
    {w : Nat} (endpoint : Endpoint) (idle : app.workers[w]? = some .idle) :
    ({ app with
      system := { app.system with clients := app.system.clients ++ [Client.new endpoint] }
      workers := app.workers.set w (.handling app.system.clients.length) } :
        Application).Accounted deserted := by
  have hworkers : ∀ v d : Nat,
      (app.workers.set w (.handling app.system.clients.length))[v]? = some (.handling d) ↔
        (w = v ∧ app.system.clients.length = d) ∨
          app.workers[v]? = some (.handling d) := by
    intro v d
    rw [List.getElem?_set_eq_some idle, Worker.handling.injEq]
    refine or_congr_right (and_iff_right_of_imp fun hv heq => ?_)
    rw [← heq, idle] at hv
    cases hv
  have hfresh : ∀ v : Nat, app.workers[v]? ≠ some (.handling app.system.clients.length) :=
    fun v hv => absurd (happ.handled v _ hv).1 (Nat.lt_irrefl _)
  refine ⟨?_, ?_, ?_, ?_⟩
  · intro c client hc
    simp only [hworkers]
    rcases Nat.lt_or_ge c app.system.clients.length with hlt | hge
    · rw [List.getElem?_append_left hlt] at hc
      simp [happ.between c client hc, Nat.ne_of_gt hlt]
    · rw [List.getElem?_append_right hge] at hc
      obtain ⟨hone, hnew⟩ := List.getElem?_eq_some_iff.mp hc
      obtain rfl : c = app.system.clients.length := by
        rw [List.length_singleton] at hone
        omega
      obtain rfl : Client.new endpoint = client := by simpa using hnew
      exact iff_of_true rfl (Or.inl ⟨w, Or.inl ⟨rfl, rfl⟩⟩)
  · intro v v' d hv hv'
    rw [hworkers] at hv hv'
    rcases hv with ⟨rfl, rfl⟩ | hv
    · rcases hv' with ⟨rfl, -⟩ | hv'
      · rfl
      · exact absurd hv' (hfresh v')
    · rcases hv' with ⟨rfl, rfl⟩ | hv'
      · exact absurd hv (hfresh v)
      · exact happ.once v v' d hv hv'
  · intro v d hv
    rw [List.length_append, List.length_singleton]
    rcases (hworkers v d).mp hv with ⟨-, rfl⟩ | hv
    · exact ⟨Nat.lt_succ_self _, fun hd => absurd (happ.accepted _ hd) (Nat.lt_irrefl _)⟩
    · obtain ⟨hlt, hlost⟩ := happ.handled v d hv
      exact ⟨Nat.lt_succ_of_lt hlt, hlost⟩
  · intro c hc
    rw [List.length_append, List.length_singleton]
    exact Nat.lt_succ_of_lt (happ.accepted c hc)

/-- A handler throws before it asks for a backend, and nobody goes on with its client. -/
theorem accounted_disconnected {app : Application} {deserted : List Nat}
    (happ : app.Accounted deserted) {w c : Nat}
    (handling : app.workers[w]? = some (.handling c)) :
    ({ app with workers := app.workers.set w (.unwinding .notConnected) } :
        Application).Accounted (deserted ++ [c]) := by
  have hworkers : ∀ v d : Nat,
      (app.workers.set w (.unwinding .notConnected))[v]? = some (.handling d) ↔
        w ≠ v ∧ app.workers[v]? = some (.handling d) := by
    intro v d
    rw [List.getElem?_set_eq_some handling]
    simp
  refine ⟨?_, ?_, ?_, ?_⟩
  · intro d other hother
    simp only [hworkers, List.mem_append, List.mem_singleton]
    rw [happ.between d other hother]
    constructor
    · intro h
      rcases h with ⟨v, hv⟩ | h
      · by_cases hvw : w = v
        · subst hvw
          exact Or.inr (Or.inr (Worker.handling.inj
            (Option.some.inj (hv.symm.trans handling))))
        · exact Or.inl ⟨v, hvw, hv⟩
      · exact Or.inr (Or.inl h)
    · intro h
      rcases h with ⟨v, -, hv⟩ | h | rfl
      · exact Or.inl ⟨v, hv⟩
      · exact Or.inr h
      · exact Or.inl ⟨w, handling⟩
  · intro v v' d hv hv'
    exact happ.once v v' d ((hworkers v d).mp hv).2 ((hworkers v' d).mp hv').2
  · intro v d hv
    obtain ⟨hne, hv⟩ := (hworkers v d).mp hv
    obtain ⟨hlt, hlost⟩ := happ.handled v d hv
    refine ⟨hlt, ?_⟩
    rw [List.mem_append, List.mem_singleton, not_or]
    refine ⟨hlost, ?_⟩
    rintro rfl
    exact hne (happ.once w v d handling hv)
  · intro d hd
    rcases List.mem_append.mp hd with hd | hd
    · exact happ.accepted d hd
    · rw [List.mem_singleton.mp hd]
      exact (happ.handled w c handling).1

theorem accounted_step {app app' : Application} {event : AppEvent} {deserted : List Nat}
    (happ : app.Accounted deserted) (h : app.step event = some app') :
    app'.Accounted (deserted ++ (app.deserts event).toList) := by
  have hquiet : ∀ {x : Application}, x.Accounted deserted →
      x.Accounted (deserted ++ (none : Option Nat).toList) := by
    intro x hx
    rwa [Option.toList_none, List.append_nil]
  cases acts_of_step h with
  | @accepts w endpoint idle running =>
      exact hquiet (accounted_accepted happ endpoint idle)
  | @starts w c e client client' s idle running completion found stepped =>
      refine hquiet ?_
      obtain ⟨hphase, -⟩ := Client.worker_of_step stepped c
      rw [completion, if_pos rfl] at hphase
      have hnone := (not_congr (happ.between c client found)).mp (by simp [hphase])
      rw [not_or, not_exists] at hnone
      exact accounted_performed happ s client' idle found (by simp)
        (fun v hv => absurd hv (hnone.1 v)) hnone.2
  | @resumes w c e client client' s handling found continues stepped =>
      refine hquiet ?_
      exact accounted_performed happ s client' handling found
        (fun d h => (Worker.handling.inj h).symm) (fun v hv => happ.once v w c hv handling)
        (happ.handled w c handling).2
  | @disconnected w c client handling found ready =>
      have hdeserts : app.deserts (.disconnected w) = some c := by simp only [deserts, handling]
      rw [hdeserts, Option.toList_some]
      exact accounted_disconnected happ handling
  | terminates unwinding =>
      refine hquiet ?_
      exact accounted_workers happ unwinding (by simp) (by simp) rfl rfl
  | interrupts idle running =>
      refine hquiet ?_
      exact ⟨happ.between, happ.once, happ.handled, happ.accepted⟩
  | exits idle stopped =>
      refine hquiet ?_
      exact accounted_workers happ idle (by simp) (by simp) rfl rfl

/-- In every run, a client whose handler is between two selector calls is in the hands of
    exactly one worker, unless its handler threw where it asked for the endpoint of the
    client's socket; and no worker has a client that is not between two calls. -/
theorem accounted_run {s : Selector} {threads : Nat} {events : List AppEvent} {app : Application}
    (hrun : Run (Steps step) (start s threads) events app) :
    app.Accounted (observations step deserts (start s threads) events) := by
  induction hrun with
  | nil => exact accounted_start s threads
  | snoc run hstep ih =>
      rw [observations_snoc run]
      exact accounted_step ih hstep

end Application

end

namespace Application

section

open Reference Selector

/-- Two clients, and the first is gone before its endpoint is asked for. -/
def lostClient : List AppEvent :=
  [.accepts 0 somebody, .accepts 1 somebody, .disconnected 0, .terminates 0]

def afterLostClient : Application :=
  (lostClient.foldlM step (start oneRobin 2)).getD (start oneRobin 2)

theorem run_lostClient : Run (Steps step) (start oneRobin 2) lostClient afterLostClient :=
  .of_foldlM (by rfl)

theorem reachable_lostClient :
    (∃ es, Run (Steps System.step) (.initial oneRobin) es afterLostClient.system) ↔
      ∃ events app, Run (Steps step) (start oneRobin 2) events app ∧
        app.system = afterLostClient.system :=
  reachable_iff (Nat.le_refl 2)

theorem accounted_lostClient :
    observations step deserts (start oneRobin 2) lostClient = [0] ∧
      afterLostClient.workers[1]? = some (.handling 1) ∧
      afterLostClient.Accounted (observations step deserts (start oneRobin 2) lostClient) :=
  ⟨by rfl, by rfl, accounted_run run_lostClient⟩

end

end Application

end LoadBalancer
