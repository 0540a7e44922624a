/-
  How `Application` ends: the steps after `Terminate`, and the exceptions that reach the threads.

  `shutdown`: after `Terminate` no handler starts, each thread makes at most two more steps, and
  an application that can make no step has ended all its threads, whatever they were doing.

  `Exits` holds of every state: which exceptions the threads met, and that the exit code is
  `EXIT_FAILURE` once one of them has reported its own. A thread that ends later does not
  overwrite the code of one that threw (`Exits.exitCode`).
-/
import LoadBalancer.Application.Threads

namespace LoadBalancer

open Transition

namespace Worker

/-- A bound on the steps that a worker still makes once the io_context is stopped. -/
def left : Worker → Nat
  | .handling _ => 2
  | .idle | .unwinding _ => 1
  | .terminated _ | .exited | .undefined => 0

/-- The thread has left `ThreadRoutine`, or its handler ran into undefined behaviour. -/
def Ended (w : Worker) : Prop := w.left = 0

theorem left_le (w : Worker) : w.left ≤ 2 := by
  cases w <;> simp [left]

/-- The worker met the exception `e`. -/
def Threw (e : Exception) (w : Worker) : Prop := w = .unwinding e ∨ w = .terminated e

end Worker

section

variable [Platform]

theorem Phase.left_worker {phase : Phase} (h : phase.continuation = none) (c : Nat) :
    (phase.worker c).left ≤ 1 := by
  cases phase with
  | ready => cases h
  | session b v state => cases state <;> simp_all [worker, continuation, Worker.left]
  | _ => simp [worker, continuation, Worker.left]

theorem Phase.threw_worker {phase : Phase} {c : Nat} {e : Exception} :
    (phase.worker c).Threw e ↔ phase = .failed e := by
  cases phase with
  | failed e' => simp [worker, Worker.Threw]
  | session b v state => cases state <;> simp [worker, continuation, Worker.Threw]
  | _ => simp [worker, continuation, Worker.Threw]

theorem Phase.worker_ne_terminated (phase : Phase) (c : Nat) (e : Exception) :
    phase.worker c ≠ .terminated e := by
  unfold worker
  split
  · simp
  · simp
  · split <;> simp

/-- The events that a stopped io_context leaves: the rest of a handler and the end of a
    thread. -/
def AppEvent.isLast : AppEvent → Bool
  | .resumes _ | .disconnected _ | .terminates _ | .exits _ => true
  | .accepts _ _ | .starts _ _ _ | .interrupts _ => false

namespace Application

def Ended (app : Application) : Prop := ∀ w ∈ app.workers, w.Ended

/-- The steps that are left once the io_context is stopped, at most. -/
def left (app : Application) : Nat := (app.workers.map Worker.left).sum

theorem left_le (app : Application) : app.left ≤ 2 * app.workers.length := by
  unfold left
  induction app.workers with
  | nil => exact Nat.le_refl 0
  | cons w ws ih =>
      have hw := w.left_le
      rw [List.map_cons, List.sum_cons, List.length_cons]
      omega

/-! ## After `Terminate` -/

/-- A stopped application whose handlers are in their clients' hands. -/
structure Stopped (app : Application) : Prop where
  stopped : app.stopped = true
  accounted : ∃ deserted, app.Accounted deserted

/-- No handler starts, no client is accepted, and the worker comes nearer to its end. -/
theorem stopped_step {app app' : Application} {event : AppEvent} (happ : app.Stopped)
    (h : app.step event = some app') :
    app'.Stopped ∧ event.isLast = true ∧ app'.left < app.left ∧
      app'.workers.length = app.workers.length ∧
      app'.system.clients.length = app.system.clients.length := by
  obtain ⟨deserted, haccounted⟩ := happ.accounted
  have hnext := accounted_step haccounted h
  have hfalls : ∀ {w : Nat} {old new : Worker}, app.workers[w]? = some old → new.left < old.left →
      ((app.workers.set w new).map Worker.left).sum < app.left := by
    intro w old new hw hlt
    have hsum : ((app.workers.set w new).map Worker.left).sum + old.left =
        (app.workers.map Worker.left).sum + new.left := List.sum_map_set Worker.left hw
    unfold left
    omega
  have hnot : app.stopped ≠ false := by simp [happ.stopped]
  cases acts_of_step h with
  | accepts idle running => exact absurd running hnot
  | starts idle running => exact absurd running hnot
  | @resumes w c e client client' s handling found continues stepped =>
      have hlater := Phase.left_worker (Client.continuation_of_continued continues stepped) c
      exact ⟨⟨happ.stopped, _, hnext⟩, rfl, hfalls handling (Nat.lt_succ_of_le hlater),
        List.length_set, List.length_set⟩
  | disconnected handling =>
      exact ⟨⟨happ.stopped, _, hnext⟩, rfl, hfalls handling (by simp [Worker.left]),
        List.length_set, rfl⟩
  | terminates unwinding =>
      exact ⟨⟨rfl, _, hnext⟩, rfl, hfalls unwinding (by simp [Worker.left]), List.length_set, rfl⟩
  | interrupts idle running => exact absurd running hnot
  | exits idle =>
      exact ⟨⟨happ.stopped, _, hnext⟩, rfl, hfalls idle (by simp [Worker.left]), List.length_set,
        rfl⟩

/-- A stopped application can make a step unless all its threads have ended. -/
theorem stopped_progress {app : Application} (happ : app.Stopped) (h : ¬ app.Ended) :
    ∃ event app', app.step event = some app' := by
  obtain ⟨deserted, haccounted⟩ := happ.accounted
  obtain ⟨worker, hmem, hleft⟩ : ∃ w ∈ app.workers, ¬ w.Ended := by
    simpa [Ended] using h
  obtain ⟨w, hw⟩ := List.mem_iff_getElem?.mp hmem
  cases worker with
  | idle => exact ⟨_, _, step_of_acts (.exits hw happ.stopped)⟩
  | handling c =>
      -- the handler's client is between two calls, so the handler can go on
      obtain ⟨hlt, -⟩ := haccounted.handled w c hw
      have hfound := List.getElem?_eq_getElem hlt
      have hcontinues := (haccounted.between c _ hfound).mpr (Or.inl ⟨w, hw⟩)
      obtain ⟨e, he⟩ := Option.isSome_iff_exists.mp hcontinues
      obtain ⟨⟨s, client'⟩, hstep⟩ := Client.step_of_continuation app.system.selector he
      exact ⟨_, _, step_of_acts (.resumes hw hfound he hstep)⟩
  | unwinding e => exact ⟨_, _, step_of_acts (.terminates hw)⟩
  | terminated e => exact absurd rfl hleft
  | exited => exact absurd rfl hleft
  | undefined => exact absurd rfl hleft

/-- Threads that have ended make no step. -/
theorem step_of_ended {app : Application} (happ : app.Stopped) (h : app.Ended) (event : AppEvent) :
    app.step event = none := by
  cases hstep : app.step event with
  | none => rfl
  | some app' =>
      have hfalls := (stopped_step happ hstep).2.2.1
      have hzero : app.left = 0 := by
        refine List.sum_eq_zero fun n hn => ?_
        obtain ⟨w, hw, rfl⟩ := List.mem_map.mp hn
        exact h w hw
      omega

theorem stopped_run {app app' : Application} {events : List AppEvent} (happ : app.Stopped)
    (hrun : Run (Steps step) app events app') :
    app'.Stopped ∧ (∀ event ∈ events, event.isLast = true) ∧
      app'.workers.length = app.workers.length ∧
      app'.system.clients.length = app.system.clients.length := by
  induction hrun with
  | nil => exact ⟨happ, by simp, rfl, rfl⟩
  | snoc run hstep ih =>
      obtain ⟨hstopped, hlast, hworkers, hclients⟩ := ih
      obtain ⟨hnext, hevent, -, hworkers', hclients'⟩ := stopped_step hstopped hstep
      refine ⟨hnext, fun event hmem => ?_, hworkers'.trans hworkers, hclients'.trans hclients⟩
      rcases List.mem_append.mp hmem with hmem | hmem
      · exact hlast event hmem
      · rw [List.mem_singleton.mp hmem]
        exact hevent

/-- Every stopped application can be run to its end. -/
theorem ended_of_stopped {app : Application} (happ : app.Stopped) :
    ∃ rest last, Run (Steps step) app rest last ∧ last.Ended := by
  generalize hn : app.left = n
  induction n using Nat.strong_induction_on generalizing app with
  | _ n ih =>
      by_cases hended : app.Ended
      · exact ⟨[], app, .nil app, hended⟩
      · obtain ⟨event, app', hstep⟩ := stopped_progress happ hended
        obtain ⟨hstopped, -, hfalls, -, -⟩ := stopped_step happ hstep
        obtain ⟨rest, last, hrest, hlast⟩ := ih app'.left (hn ▸ hfalls) hstopped rfl
        exact ⟨event :: rest, last, .cons hstep hrest, hlast⟩

/-- Once `Terminate` was called, no handler starts and no client is accepted, at most two steps
    a thread are made, every run can be continued until all threads have ended, and only there
    no step is left. -/
theorem shutdown {s : Selector} {threads : Nat} {before events : List AppEvent}
    {app app' : Application} (hbefore : Run (Steps step) (start s threads) before app)
    (hstopped : app.stopped = true) (hrun : Run (Steps step) app events app') :
    (∀ event ∈ events, event.isLast = true) ∧
      app'.system.clients.length = app.system.clients.length ∧
      events.length + app'.left ≤ 2 * threads ∧
      (∃ rest last, Run (Steps step) app' rest last ∧ last.Ended) ∧
      (app'.Ended ↔ ∀ event, app'.step event = none) := by
  have haccounted : ∃ deserted, app.Accounted deserted := by
    refine hbefore.invariant (I := fun app => ∃ deserted, app.Accounted deserted) ?_
      ⟨[], accounted_start s threads⟩
    intro app event app' h hstep
    obtain ⟨deserted, h⟩ := h
    exact ⟨_, accounted_step h hstep⟩
  have happ : app.Stopped := ⟨hstopped, haccounted⟩
  have hthreads : app.workers.length = threads := by
    refine hbefore.invariant (I := fun app => app.workers.length = threads) ?_ List.length_replicate
    intro app event app' hsame hstep
    cases acts_of_step hstep with
    | interrupts => exact hsame
    | _ => exact List.length_set.trans hsame
  obtain ⟨happ', hlast, -, hclients⟩ := stopped_run happ hrun
  have hkeep : ∀ (app : Application) event app', app.Stopped → Steps step app event app' →
      app'.Stopped := fun app event app' h hstep => (stopped_step h hstep).1
  have hfall : ∀ (app : Application) event app', app.Stopped → Steps step app event app' →
      app'.left < app.left := fun app event app' h hstep => (stopped_step h hstep).2.2.1
  have hlength := hrun.length_add_rank_le hkeep hfall happ
  have hbound := app.left_le
  refine ⟨hlast, hclients, by omega, ended_of_stopped happ', step_of_ended happ', ?_⟩
  intro hstuck
  by_contra hended
  obtain ⟨event, app'', hstep⟩ := stopped_progress happ' hended
  rw [hstuck event] at hstep
  cases hstep

end Application

/-! ## The exit code -/

/-- A handler that failed left a selector without backends. -/
def System.Drained (sys : System) : Prop :=
  ∀ client ∈ sys.clients, ∀ e, client.phase = .failed e → ∀ b, ¬ sys.selector.Holds b

section

variable [LawfulPairingHeap]

/-- A step of a client that leaves it failed leaves the selector without backends. -/
theorem Client.not_holds_of_failed {s t : Selector} {client client' : Client} {e : ClientEvent}
    {ex : Exception} (hs : s.Inv) (hclient : client.WellFormed s.type)
    (h : StepCase s client e t client') (hfailed : client'.phase = .failed ex) (b : Backend) :
    ¬ t.Holds b := by
  have hlater := later_stepCase hs h
  cases h with
  | @selected b' => cases b' <;> cases hfailed
  | unselected ready unselected halted =>
      rcases halted with rfl | ⟨e, hthrown, -⟩
      · cases hfailed
      · exact fun hb => Selector.not_holds_of_selectBackend_thrown hs hthrown b (hlater.holds b hb)
  | @refused e b' =>
      by_cases hheld : ∃ x, s.Holds x
      · have hfst := Selector.excludeBackend_fst hs b' fun _ => Selector.isEmpty_eq_false.mpr hheld
        simp only [Phase.after, hfst] at hfailed
        cases hempty : (s.excludeBackend b').2.isEmpty with
        | false => simp [hempty, throwIfEmpty] at hfailed
        | true => exact Selector.isEmpty_eq_true.mp hempty b
      · exact fun hb => hheld ⟨b, hlater.holds b hb⟩
  | resolved => cases hfailed
  | connected =>
      rw [runSession, notify_eq hs (Visitor.belongsTo_make _ _)] at hfailed
      cases hfailed
  | dropped => cases hfailed
  | handled running =>
      rw [notify_eq hs (hclient _ _ _ running)] at hfailed
      cases hfailed
  | destroyed cancelled =>
      rw [notify_eq hs (hclient _ _ _ cancelled)] at hfailed
      cases hfailed

theorem System.drained_step {sys t : System} {e : Event} (hsys : sys.Inv) (h : sys.Drained)
    (hstep : sys.step e = some t) : t.Drained := by
  have hlater := later_step hsys hstep
  refine forall_clients_step hstep ?_ ?_ ?_
  · intro client hmem ex hfailed b hb
    exact h client hmem ex hfailed b (hlater.holds b hb)
  · intro endpoint ex hfailed
    cases hfailed
  · intro c ce client client' _ hclient hcase ex hfailed b
    have hwf := hsys.clients client (List.mem_of_getElem? hclient)
    exact Client.not_holds_of_failed hsys.selector hwf hcase hfailed b

theorem System.drained_run {s : Selector} {es : List Event} {sys : System} (hs : s.Inv)
    (hrun : Run (Steps step) (initial s) es sys) : sys.Drained := by
  refine (hrun.invariant (I := fun sys => sys.Inv ∧ sys.Drained) ?_ ⟨inv_initial hs, ?_⟩).2
  · intro sys e t h hstep
    exact ⟨inv_step h.1 hstep, drained_step h.1 h.2 hstep⟩
  · exact fun client hmem => nomatch hmem

end

namespace Application

/-- The exceptions that the workers met, those of failed clients and others, and what became of
    the exit code. -/
structure Exits (app : Application) (thrown : Exception → Prop) : Prop where
  threw : ∀ e, (∃ w ∈ app.workers, w.Threw e) ↔
    (∃ client ∈ app.system.clients, client.phase = .failed e) ∨ thrown e
  failure : (∃ w ∈ app.workers, ∃ e, w = .terminated e) → app.exitCode = exitFailure
  success : (¬ ∃ w ∈ app.workers, ∃ e, w = .terminated e) → app.exitCode = exitSuccess

theorem Exits.congr {app : Application} {thrown thrown' : Exception → Prop}
    (happ : app.Exits thrown) (h : ∀ e, thrown e ↔ thrown' e) : app.Exits thrown' where
  threw e := (happ.threw e).trans (or_congr_right (h e))
  failure := happ.failure
  success := happ.success

theorem exits_start (s : Selector) (threads : Nat) : (start s threads).Exits fun _ => False := by
  have hidle : ∀ w ∈ (start s threads).workers, w = .idle := fun w hw =>
    List.eq_of_mem_replicate hw
  refine ⟨fun e => iff_of_false ?_ ?_, ?_, fun _ => rfl⟩
  · intro h
    obtain ⟨w, hw, hthrew⟩ := h
    obtain rfl := hidle w hw
    simp [Worker.Threw] at hthrew
  · simp [start, System.initial]
  · intro h
    obtain ⟨w, hw, e, rfl⟩ := h
    cases hidle _ hw

/-- A worker that has met no exception makes its step. -/
theorem exits_set {app : Application} {thrown thrown' : Exception → Prop}
    (happ : app.Exits thrown) {w : Nat} {old new : Worker} (hw : app.workers[w]? = some old)
    (hold : ∀ e, ¬ old.Threw e) (hnew : ∀ e, new ≠ .terminated e) {system : System}
    (hthrew : ∀ e, (new.Threw e ∨
        (∃ client ∈ app.system.clients, client.phase = .failed e) ∨ thrown e) ↔
      (∃ client ∈ system.clients, client.phase = .failed e) ∨ thrown' e) :
    ({ app with system := system, workers := app.workers.set w new } : Application).Exits
      thrown' := by
  have hterminated : (∃ x ∈ app.workers.set w new, ∃ e, x = Worker.terminated e) ↔
      ∃ x ∈ app.workers, ∃ e, x = .terminated e := by
    refine List.exists_mem_set_congr hw (iff_of_false ?_ ?_)
    · exact fun ⟨e, he⟩ => hnew e he
    · exact fun ⟨e, he⟩ => hold e (Or.inr he)
  refine ⟨fun e => ?_, fun h => happ.failure (hterminated.mp h),
    fun h => happ.success (hterminated.not.mp h)⟩
  rw [← hthrew, ← happ.threw]
  exact List.exists_mem_set hw (hold e)

/-- A worker that has met no exception meets one that no client failed with. -/
theorem exits_unwinding {app : Application} {thrown : Exception → Prop} (happ : app.Exits thrown)
    {w : Nat} {old : Worker} (hw : app.workers[w]? = some old) (hold : ∀ e, ¬ old.Threw e)
    (ex : Exception) :
    ({ app with workers := app.workers.set w (.unwinding ex) } : Application).Exits
      fun e => thrown e ∨ e = ex := by
  refine exits_set happ hw hold (by simp) fun e => ?_
  have hnew : (Worker.unwinding ex).Threw e ↔ e = ex := by
    simp [Worker.Threw, eq_comm]
  rw [hnew, or_comm, or_assoc]

/-- The step of a client by a worker that has met no exception. -/
theorem exits_performed {app : Application} {thrown : Exception → Prop} (happ : app.Exits thrown)
    {w c : Nat} {old : Worker} {client : Client} (s : Selector) (client' : Client)
    (hw : app.workers[w]? = some old) (found : app.system.clients[c]? = some client)
    (hold : ∀ e, ¬ old.Threw e) (hclient : ∀ e, client.phase ≠ .failed e) :
    (app.performed w c s client').Exits thrown := by
  refine exits_set happ hw hold (Phase.worker_ne_terminated _ _) fun e => ?_
  rw [Phase.threw_worker, List.exists_mem_set found (hclient e), or_assoc]

/-- A handler throws where a client fails, or where it asks for the endpoint of a socket. -/
theorem exits_step {app app' : Application} {event : AppEvent} {thrown : Exception → Prop}
    (happ : app.Exits thrown) (h : app.step event = some app') :
    app'.Exits fun e => thrown e ∨ (e = .notConnected ∧ (app.deserts event).isSome = true) := by
  have hquiet : ∀ {x : Application} {event : AppEvent}, app.deserts event = none →
      x.Exits thrown →
      x.Exits fun e => thrown e ∨ (e = .notConnected ∧ (app.deserts event).isSome = true) :=
    fun hnone hx => hx.congr fun e => by simp [hnone]
  -- a client that makes a step has not failed
  have hnotFailed : ∀ {s : Selector} {client : Client} {e : ClientEvent} {r},
      client.step s e = some r → ∀ ex, client.phase ≠ .failed ex := by
    intro s client e r hstep ex hfailed
    obtain ⟨-, hworker⟩ := Client.worker_of_step hstep 0
    rw [hfailed] at hworker
    cases hcompletion : e.isCompletion <;> rw [hcompletion] at hworker <;> cases hworker
  cases acts_of_step h with
  | accepts idle running =>
      refine hquiet rfl (exits_set happ idle (by simp [Worker.Threw]) (by simp) fun e => ?_)
      simp [Worker.Threw, Client.new]
  | starts idle _ _ found stepped =>
      exact hquiet rfl (exits_performed happ _ _ idle found (by simp [Worker.Threw])
        (hnotFailed stepped))
  | resumes handling found _ stepped =>
      exact hquiet rfl (exits_performed happ _ _ handling found (by simp [Worker.Threw])
        (hnotFailed stepped))
  | @disconnected w c client handling found ready =>
      have hdeserts : app.deserts (.disconnected w) = some c := by simp only [deserts, handling]
      refine (exits_unwinding happ handling (by simp [Worker.Threw]) .notConnected).congr ?_
      simp [hdeserts]
  | @terminates w e unwinding =>
      refine hquiet rfl ⟨fun e' => ?_, fun _ => rfl, fun hnone => absurd ?_ hnone⟩
      · rw [← happ.threw e']
        exact List.exists_mem_set_congr unwinding (by simp [Worker.Threw])
      · obtain ⟨hlt, -⟩ := List.getElem?_eq_some_iff.mp unwinding
        exact ⟨_, List.mem_set hlt _, e, rfl⟩
  | interrupts idle running => exact hquiet rfl ⟨happ.threw, happ.failure, happ.success⟩
  | exits idle =>
      refine hquiet rfl (exits_set happ idle (by simp [Worker.Threw]) (by simp) fun e => ?_)
      simp [Worker.Threw]

/-- Where all threads have ended, the exit code is a failure if one of them threw, and a success
    otherwise. -/
theorem Exits.exitCode {app : Application} {thrown : Exception → Prop} (happ : app.Exits thrown)
    (hended : app.Ended) :
    (app.exitCode = exitFailure ↔ ∃ w ∈ app.workers, ∃ e, w.Threw e) ∧
      (app.exitCode ≠ exitFailure → app.exitCode = exitSuccess) := by
  -- a thread that met an exception has ended, so it has set the exit code
  have hterminated : (∃ w ∈ app.workers, ∃ e, w.Threw e) →
      ∃ w ∈ app.workers, ∃ e, w = .terminated e := by
    intro h
    obtain ⟨w, hw, e, hthrew⟩ := h
    rcases hthrew with rfl | rfl
    · cases hended _ hw
    · exact ⟨_, hw, e, rfl⟩
  refine ⟨⟨fun hcode => ?_, fun h => happ.failure (hterminated h)⟩, fun hcode => ?_⟩
  · by_contra hnone
    have hsuccess := happ.success fun h => by
      obtain ⟨w, hw, e, rfl⟩ := h
      exact hnone ⟨_, hw, e, Or.inr rfl⟩
    rw [hsuccess] at hcode
    cases hcode
  · exact happ.success fun h => hcode (happ.failure h)

end Application

end

namespace Application

section

open Reference Selector

/-- The second client's thread goes on with its handler and ends. -/
def endedLate : List AppEvent := [.resumes 1, .exits 1]

def afterEndedLate : Application :=
  (endedLate.foldlM step afterLostClient).getD afterLostClient

theorem run_endedLate : Run (Steps step) afterLostClient endedLate afterEndedLate :=
  .of_foldlM (by rfl)

theorem shutdown_endedLate :
    afterEndedLate.system.clients.length = afterLostClient.system.clients.length ∧
      endedLate.length + afterEndedLate.left ≤ 4 ∧
      (afterEndedLate.Ended ↔ ∀ event, afterEndedLate.step event = none) := by
  obtain ⟨-, hclients, hlength, -, hended⟩ := shutdown run_lostClient rfl run_endedLate
  exact ⟨hclients, hlength, hended⟩

end

end Application

end LoadBalancer
