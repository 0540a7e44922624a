/-
  Least response time behind the connector: what the averages measure.

  The operations of a session succeed in turn, so the times of a client's successes tell when
  its requests were sent and when the responses came. `responses` reads the durations off the
  events alone, in the order in which the responses came; no state of a session or of the
  selector is looked at.

  * `averages_measured`: whatever the interleaving and however attempts and sessions end, the
    average of a held backend is the fold of the durations of its own clients, and a selection
    returns a backend with a least one, where the arithmetic does not round. With a clock that
    does not go back the average lies between zero and the longest duration.
  * `attempts_herd`: between two samples, and without a refusal that the connector retries, all
    clients are sent to one backend.
-/
import LoadBalancer.Connector.Counters
import LoadBalancer.Connector.Notifications
import LoadBalancer.Connector.Uses
import Mathlib.Data.List.Induction

namespace LoadBalancer

open Transition MutableHeap Platform

section

variable [Platform]

/-! ## Durations -/

/-- The time at which an operation succeeded. -/
def ClientEvent.success : ClientEvent → Option Int
  | .completes ec now => if ec.isError then none else some now
  | _ => none

/-- When the operations of client `c` succeeded. -/
def successes (c : Nat) (es : List Event) : List Int :=
  es.filterMap (Event.of ClientEvent.success c)

/-- How long the server took, where the event brings a response to a session whose operations
    succeeded at these times: the one before was that a request was sent. -/
def ClientEvent.duration (times : List Int) (e : ClientEvent) : Option Int :=
  if Notification.cycleAt times.length = .onResponseReceive then
    e.success.map fun now => now - times.getLast?.getD 0
  else none

/-- The client that gets a response by the event, and how long its server took. -/
def response (past : List Event) : Event → Option (Nat × Int)
  | .client c e => (e.duration (successes c past)).map fun r => (c, r)
  | .accepts _ => none

/-- The clients whose responses came, and how long their servers took. -/
def responses (es : List Event) : List (Nat × Int) :=
  observations (fun past e => some (past ++ [e])) response [] es

theorem successes_snoc (c : Nat) (es : List Event) (e : Event) :
    successes c (es ++ [e]) = successes c es ++ (e.of ClientEvent.success c).toList :=
  filterMap_of_snoc _ _ _ _

theorem run_past (es : List Event) :
    Run (Steps fun past e => some (past ++ [e])) [] es es := by
  induction es using List.reverseRecOn with
  | nil => exact .nil []
  | append_singleton es e ih => exact .snoc ih rfl

theorem responses_snoc (es : List Event) (e : Event) :
    responses (es ++ [e]) = responses es ++ (response es e).toList :=
  observations_snoc (run_past es) e

omit [Platform] in
theorem duration_nil (e : ClientEvent) : e.duration [] = none := rfl

/-- A client with a response has made progress. -/
theorem successes_ne_nil {es : List Event} {c : Nat} {r : Int} (h : (c, r) ∈ responses es) :
    successes c es ≠ [] := by
  induction es using List.reverseRecOn with
  | nil => cases h
  | append_singleton es e ih =>
      rw [responses_snoc] at h
      rw [successes_snoc]
      rcases List.mem_append.mp h with h | h
      · simp [ih h]
      · cases e with
        | accepts endpoint => cases h
        | client c' e =>
            intro hnil
            obtain ⟨d, hd, hpair⟩ := Option.map_eq_some_iff.mp (Option.mem_toList.mp h)
            obtain rfl : c' = c := congrArg Prod.fst hpair
            rw [(List.append_eq_nil_iff.mp hnil).1, duration_nil] at hd
            cases hd

/-! ## A session and the times of its successes -/

/-- A session after successes at these times; there are none before it is made. -/
def Phase.InTurn (times : List Int) : Phase → Prop
  | .session _ v (.running operation) =>
    operation.notification = Notification.cycleAt times.length ∧
      ∀ b responseBegin, operation = .serverRead →
        v = .leastResponseTimeCallbacks b responseBegin → times.getLast? = some responseBegin
  | .ready | .connecting _ | .resolving _ | .connectingResolved _ => times = []
  | _ => True

namespace Phase

theorem inTurn_after {times : List Int} {next : Phase} (h : next.InTurn times)
    (result : Outcome Unit) : (after result next).InTurn times := by
  cases result with
  | returned u => exact h
  | _ => trivial

theorem times_of_attempting {times : List Int} {phase : Phase} {b : Backend}
    (h : phase.InTurn times) (hattempting : phase.attempting = some b) : times = [] := by
  cases phase <;> first | exact h | cases hattempting

theorem inTurn_attempt (b : Backend) : (attempt b).InTurn [] := by
  cases b <;> rfl

end Phase

/-- The timing starts when a request was sent. -/
theorem Visitor.responseBegin_of_onRequestSent {v : Visitor} {now responseBegin : Int}
    {s : Selector} {b : Backend}
    (h : (v.notify .onRequestSent now s).1 = .leastResponseTimeCallbacks b responseBegin) :
    responseBegin = now := by
  cases v with
  | leastResponseTimeCallbacks b' t =>
      cases h
      rfl
  | _ => cases h

namespace Client

theorem inTurn_runSession (s : Selector) (client : Client) (b : Backend) :
    (runSession s client b).2.phase.InTurn [] := by
  apply Phase.inTurn_after
  exact ⟨rfl, fun b t h => by cases h⟩

/-- The handler of a session's operation. -/
theorem inTurn_handle {times : List Int} {op : Operation} {v : Visitor} {ec : ErrorCode} {now : Int}
    {b : Backend} (hold : (Phase.session b v (.running op)).InTurn times) (s : Selector)
    (client : Client) :
    (notify s client b v (HttpSession.handle op ec) now).2.phase.InTurn
      (times ++ (ClientEvent.success (.completes ec now)).toList) := by
  obtain ⟨hturn, -⟩ := hold
  apply Phase.inTurn_after
  cases hec : ec.isError with
  | true => simp only [HttpSession.handle, hec, if_true, Phase.InTurn]
  | false =>
      have htimes : (ClientEvent.success (.completes ec now)).toList = [now] := by
        simp [ClientEvent.success, hec]
      rw [htimes]
      simp only [HttpSession.handle, hec, Bool.false_eq_true, if_false]
      refine ⟨?_, fun b' responseBegin hread hv => ?_⟩
      · rw [List.length_append, List.length_singleton]
        exact Notification.notification_next hturn
      · cases op with
        | sendToServer =>
            rw [Visitor.responseBegin_of_onRequestSent hv]
            exact List.getLast?_concat
        | _ => cases hread

omit [Platform] in
theorem success_eq_none {e : ClientEvent} (h : e.session = none) : e.success = none := by
  cases e with
  | completes ec now => cases h
  | _ => rfl

theorem inTurn_step {times : List Int} {s t : Selector} {client client' : Client}
    {e : ClientEvent} (hold : client.phase.InTurn times)
    (h : client.step s e = some (t, client')) :
    client'.phase.InTurn (times ++ e.success.toList) := by
  cases stepCase_of_step h with
  | @selected b ready =>
      rw [ready] at hold
      obtain rfl : times = [] := hold
      exact Phase.inTurn_attempt b
  | unselected ready unselected halted =>
      rcases halted with rfl | ⟨e, -, rfl⟩ <;> trivial
  | @refused e b attempting retried =>
      obtain rfl := Phase.times_of_attempting hold attempting
      rw [success_eq_none (session_eq_none_of_step attempting h)]
      exact @Phase.inTurn_after _ [] .ready rfl _
  | resolved resolving =>
      rw [resolving] at hold
      obtain rfl : times = [] := hold
      rfl
  | @connected b attempting =>
      obtain rfl := Phase.times_of_attempting hold attempting
      exact inTurn_runSession s client b
  | dropped => trivial
  | @handled b v op ec now running =>
      rw [running] at hold
      exact inTurn_handle hold s client
  | destroyed cancelled =>
      apply Phase.inTurn_after
      trivial

end Client

namespace System

theorem inTurn_run {s : Selector} {t : System} {es : List Event}
    (hrun : Run (Steps step) (initial s) es t) {c : Nat} {client : Client}
    (hclient : t.clients[c]? = some client) : client.phase.InTurn (successes c es) := by
  have htracked := tracked_run (P := Phase.InTurn) rfl Client.inTurn_step hrun c
  rw [hclient] at htracked
  exact htracked

end System

/-! ## The samples of a run -/

/-- The sample that a use adds. -/
def Use.sampled : Use → Option (Backend × Int)
  | .addResponseTime b r => some (b, r)
  | _ => none

namespace Client

/-- A session with its timer tells how long its server took. -/
theorem sampled_handle {times : List Int} {op : Operation} {ec : ErrorCode} {now begin : Int}
    {b : Backend}
    (hturn : (Phase.session b (.leastResponseTimeCallbacks b begin) (.running op)).InTurn times) :
    (Visitor.use (HttpSession.handle op ec).1 now (.leastResponseTimeCallbacks b begin)).bind
        Use.sampled =
      (ClientEvent.duration times (.completes ec now)).map fun r => (b, r) := by
  obtain ⟨hturn, htimer⟩ := hturn
  unfold ClientEvent.duration
  rw [← hturn]
  cases hec : ec.isError with
  | true => simp [HttpSession.handle, hec, Visitor.use, ClientEvent.success]
  | false =>
      simp only [HttpSession.handle, hec, ClientEvent.success, Bool.false_eq_true, if_false]
      cases op with
      | serverRead =>
          rw [htimer b begin rfl rfl]
          rfl
      | _ => rfl

theorem sampled_step {times : List Int} {s t : Selector} {client client' : Client}
    {e : ClientEvent} (hclient : client.WellFormed .leastResponseTime)
    (hturn : client.phase.InTurn times) (h : client.step s e = some (t, client')) :
    (client.use s e).bind Use.sampled =
      (e.duration times).bind fun r => client.phase.backend.map fun b => (b, r) := by
  have hnone : ∀ {e : ClientEvent}, e.success = none → e.duration times = none := by
    intro e he
    simp [ClientEvent.duration, he]
  cases e with
  | completes ec now =>
      simp only [step] at h
      split at h
      · next b v op running =>
        obtain ⟨begin, rfl⟩ := hclient b v _ running
        rw [running] at hturn
        simp only [use, running, Phase.backend, Option.map_some]
        rw [sampled_handle hturn, Option.map_eq_bind]
        rfl
      · cases h
  | selects =>
      rw [hnone rfl]
      rfl
  | resolves ec =>
      rw [hnone rfl]
      cases ec with
      | connectionRefused =>
        simp only [use, Option.map_eq_bind]
        cases client.retriedRefusal _ <;> rfl
      | _ => rfl
  | connects ec =>
      rw [hnone rfl]
      cases ec with
      | connectionRefused =>
        simp only [use, Option.map_eq_bind]
        cases client.retriedRefusal _ <;> rfl
      | success =>
          simp only [use]
          cases client.phase.tcpConnecting with
          | none => rfl
          | some b =>
              show (Visitor.use .onConnect 0 (Visitor.make s.type b)).bind Use.sampled = none
              cases Visitor.make s.type b <;> rfl
      | other value => rfl
  | destroys =>
      rw [hnone rfl]
      simp only [use]
      split
      · next v running =>
        obtain ⟨begin, rfl⟩ := hclient _ v _ running
        rfl
      · rfl

/-- A client with responses stays with its backend. -/
theorem backend_step {times : List Int} {s t : Selector} {client client' : Client}
    {e : ClientEvent} (hs : s.Inv) (hclient : client.WellFormed s.type)
    (hturn : client.phase.InTurn times) (htimes : times ≠ [])
    (h : client.step s e = some (t, client')) : client'.phase.backend = client.phase.backend := by
  cases stepCase_of_step h with
  | selected ready =>
      rw [ready] at hturn
      exact absurd hturn htimes
  | unselected ready =>
      rw [ready] at hturn
      exact absurd hturn htimes
  | refused attempting => exact absurd (Phase.times_of_attempting hturn attempting) htimes
  | resolved resolving =>
      rw [resolving] at hturn
      exact absurd hturn htimes
  | connected attempting => exact absurd (Phase.times_of_attempting hturn attempting) htimes
  | dropped attempting => exact absurd (Phase.times_of_attempting hturn attempting) htimes
  | handled running =>
      rw [notify_eq hs (hclient _ _ _ running), running]
      rfl
  | destroyed cancelled =>
      rw [notify_eq hs (hclient _ _ _ cancelled), cancelled]
      rfl

end Client

namespace System

/-- The backend that client `c` is bound to, or was. -/
def boundTo (sys : System) (c : Nat) : Option Backend :=
  sys.clients[c]?.bind fun client => client.phase.backend

/-- The durations of the clients of a backend, in the order in which the responses came. -/
def durations (sys : System) (es : List Event) (b : Backend) : List Int :=
  (responses es).filterMap fun r => if sys.boundTo r.1 = some b then some r.2 else none

/-- The responses of a run, each with the backend of its client. -/
def measured (sys : System) (es : List Event) : List (Backend × Int) :=
  (responses es).filterMap fun r => (sys.boundTo r.1).map fun b => (b, r.2)

theorem boundTo_step {s : Selector} {sys t : System} {es : List Event} {e : Event}
    (hsys : sys.Inv) (hrun : Run (Steps step) (initial s) es sys) (h : sys.step e = some t)
    {r : Nat × Int} (hr : r ∈ responses es) : t.boundTo r.1 = sys.boundTo r.1 := by
  unfold boundTo
  cases e with
  | accepts endpoint =>
      rw [step_accepts h, List.getElem?_append]
      split
      · rfl
      · next hbeyond =>
        rw [List.getElem?_eq_none (Nat.not_lt.mp hbeyond)]
        cases r.1 - sys.clients.length <;> rfl
  | client c ce =>
      obtain ⟨client, hclient, h⟩ := Option.bind_eq_some_iff.mp h
      obtain ⟨⟨s', client'⟩, hnext, h⟩ := Option.bind_eq_some_iff.mp h
      rw [← Option.some.inj h]
      by_cases hsame : c = r.1
      · subst hsame
        have hkept := Client.backend_step hsys.selector
          (hsys.clients client (List.mem_of_getElem? hclient)) (inTurn_run hrun hclient)
          (successes_ne_nil hr) hnext
        rw [List.getElem?_set_self (List.getElem?_eq_some_iff.mp hclient).1, hclient]
        exact hkept
      · rw [List.getElem?_set_ne hsame]

theorem sampled_use {s : Selector} {u v : System} {es : List Event} {e : Event} (hu : u.Inv)
    (htype : u.selector.type = .leastResponseTime) (hrun : Run (Steps step) (initial s) es u)
    (h : u.step e = some v) : (u.use e).bind Use.sampled =
      (response es e).bind fun r => (v.boundTo r.1).map fun b => (b, r.2) := by
  cases e with
  | accepts endpoint => rfl
  | client c ce =>
      obtain ⟨client, hclient, h⟩ := Option.bind_eq_some_iff.mp h
      obtain ⟨⟨s', client'⟩, hnext, h⟩ := Option.bind_eq_some_iff.mp h
      have hwf := hu.clients client (List.mem_of_getElem? hclient)
      have hturn := inTurn_run hrun hclient
      have hwf' := hwf
      rw [htype] at hwf'
      simp only [use, hclient, Option.bind_some, response]
      rw [Client.sampled_step hwf' hturn hnext]
      cases hduration : ce.duration (successes c es) with
      | none => rfl
      | some r =>
          have hne : successes c es ≠ [] := by
            intro hnil
            rw [hnil, duration_nil] at hduration
            cases hduration
          have hbound : v.boundTo c = client.phase.backend := by
            rw [← Option.some.inj h, ← Client.backend_step hu.selector hwf hturn hne hnext, boundTo,
              List.getElem?_set_self (List.getElem?_eq_some_iff.mp hclient).1]
            rfl
          simp only [Option.bind_some, Option.map_some, hbound]

variable [LawfulPairingHeap]

/-- The samples that a run adds are the durations of its responses. -/
theorem sampled_run {s : Selector} (hs : s.Inv) (htype : s.type = .leastResponseTime)
    {es : List Event} {t : System} (hrun : Run (Steps step) (initial s) es t) :
    ((initial s).uses es).filterMap Use.sampled = t.measured es := by
  induction hrun with
  | nil => rfl
  | @snoc u v es e hrun hstep ih =>
      have hu := inv_run (inv_initial hs) hrun
      have htype' : u.selector.type = .leastResponseTime :=
        (later_run (inv_initial hs) hrun).type.trans htype
      have hold : v.measured es = u.measured es :=
        List.filterMap_congr fun r hr => by rw [boundTo_step hu hrun hstep hr]
      rw [uses, filterMap_observations] at ih ⊢
      unfold measured at ih hold ⊢
      rw [observations_snoc hrun, responses_snoc, List.filterMap_append, ih, hold,
        filterMap_toList, sampled_use hu htype' hrun hstep]

end System

/-! ## The averages of a run -/

namespace LeastResponseTimeSelector

/-- Uses of a least-response-time selector are its calls, with the same samples. -/
theorem calls_of_uses {r : LeastResponseTimeSelector} {t : Selector} {uses : List Use}
    (hrun : Run Selector.UseStep (.leastResponseTime r) uses t) :
    ∃ calls r', t = .leastResponseTime r' ∧ Run CallStep r calls r' ∧
      ∀ b, samples b calls = (uses.filterMap Use.sampled).filterMap fun p =>
        if p.1.toString = b.toString then some p.2 else none := by
  induction hrun with
  | nil => exact ⟨[], r, rfl, .nil r, fun _ => rfl⟩
  | @snoc t u uses use hrun hstep ih =>
      obtain ⟨calls, r', rfl, hcalls, hsamples⟩ := ih
      simp only [List.filterMap_append, ← hsamples]
      cases use with
      | call call =>
          cases call with
          | select client result =>
              have hcall : CallStep r' (.select client (r'.selectBackend client).1)
                (r'.selectBackend client).2 := rfl
              obtain rfl : _ = u := congrArg Prod.snd hstep
              exact ⟨_, _, rfl, .snoc hcalls hcall, fun b => samples_snoc b calls _⟩
          | exclude b result =>
              have hcall : CallStep r' (.exclude b (r'.excludeBackend b).1)
                (r'.excludeBackend b).2 := rfl
              obtain rfl : _ = u := congrArg Prod.snd hstep
              exact ⟨_, _, rfl, .snoc hcalls hcall, fun b => samples_snoc b calls _⟩
      | addResponseTime b d =>
          have hcall : CallStep r' (.addResponseTime b d) (r'.addResponseTime b d).2 := rfl
          obtain rfl : _ = u := hstep
          refine ⟨_, _, rfl, .snoc hcalls hcall, fun x => (samples_snoc x calls _).trans ?_⟩
          by_cases hname : b.toString = x.toString <;> simp [Call.sample?, Use.sampled, hname]
      | _ =>
          obtain rfl : _ = u := hstep
          exact ⟨calls, r', rfl, hcalls, fun b => (List.append_nil _).symm⟩

end LeastResponseTimeSelector

/-- Some entry for the backend has the average `e`. -/
def Selector.Averages (b : Backend) (e : Platform.Double) : Selector → Prop
  | .leastResponseTime s => s.Averages b e
  | _ => False

namespace System

/-- Among backends with distinct names, the samples of a name are the durations of its backend. -/
theorem durations_eq {sys : System} {bs : List Backend} (hnames : (bs.map Backend.toString).Nodup)
    (hbound : ∀ c x, sys.boundTo c = some x → x ∈ bs) {b : Backend} (hb : b ∈ bs)
    (es : List Event) :
    (sys.measured es).filterMap (fun p => if p.1.toString = b.toString then some p.2 else none) =
      sys.durations es b := by
  unfold measured durations
  rw [List.filterMap_filterMap]
  refine List.filterMap_congr fun r _ => ?_
  cases hx : sys.boundTo r.1 with
  | none => rfl
  | some x =>
      have hname : x.toString = b.toString ↔ some x = some b := by
        rw [Option.some.injEq]
        exact ⟨fun h => List.inj_on_of_nodup_map hnames (hbound _ x hx) hb h, fun h => h ▸ rfl⟩
      simp only [Option.map_some, Option.bind_some, hname]

/-- No clock that an operation reads is behind the one before it. -/
def Forward (es : List Event) : Prop :=
  (es.filterMap fun
    | .client _ e => e.success
    | .accepts _ => none).Pairwise (· ≤ ·)

theorem mem_successes {c : Nat} {es : List Event} {now : Int} (h : now ∈ successes c es) :
    ∃ e, .client c e ∈ es ∧ e.success = some now := by
  obtain ⟨e, he, hnow⟩ := List.mem_filterMap.mp h
  cases e with
  | accepts endpoint => cases hnow
  | client c' ce =>
      simp only [Event.of] at hnow
      split at hnow
      · next hsame => exact ⟨ce, hsame ▸ he, hnow⟩
      · cases hnow

/-- With such a clock, no response takes a negative time. -/
theorem responses_nonneg {es : List Event} (h : Forward es) : ∀ r ∈ responses es, 0 ≤ r.2 := by
  induction es using List.reverseRecOn with
  | nil => simp [responses, observations]
  | append_singleton es e ih =>
      unfold Forward at h ih
      rw [List.filterMap_append, List.pairwise_append] at h
      obtain ⟨hold, -, hlast⟩ := h
      intro r hr
      rw [responses_snoc] at hr
      rcases List.mem_append.mp hr with hr | hr
      · exact ih hold r hr
      · cases e with
        | accepts endpoint => cases hr
        | client c ce =>
            obtain ⟨d, hd, rfl⟩ := Option.map_eq_some_iff.mp (Option.mem_toList.mp hr)
            unfold ClientEvent.duration at hd
            split at hd
            · next hturn =>
              obtain ⟨now, hnow, rfl⟩ := Option.map_eq_some_iff.mp hd
              cases hsent : (successes c es).getLast? with
              | none =>
                  rw [List.getLast?_eq_none_iff.mp hsent] at hturn
                  cases hturn
              | some sent =>
                  obtain ⟨old, hmem, hold⟩ := mem_successes (List.mem_of_getLast? hsent)
                  have hle : sent ≤ now := hlast sent (List.mem_filterMap.mpr ⟨_, hmem, hold⟩) now
                    (by simp [hnow])
                  show 0 ≤ now - sent
                  omega
            · cases hd

/-- Clients are bound to backends of the configuration. -/
theorem boundTo_mem [LawfulPairingHeap] {s : Selector} (hs : s.Inv) {es : List Event} {t : System}
    (hrun : Run (Steps step) (initial s) es t) {c : Nat} {x : Backend}
    (hx : t.boundTo c = some x) : s.Holds x := by
  obtain ⟨client, hclient, hx⟩ := Option.bind_eq_some_iff.mp hx
  exact holds_backend_run (inv_initial hs) (by simp [initial]) hrun client
    (List.mem_of_getElem? hclient) x hx

/-- After any run over backends with distinct names, the average of a held backend is the fold of
    the durations of its clients. -/
theorem averages_iff [LawfulPairingHeap] [LawfulSort] {replicas : Nat} {config : Node}
    {s : Selector} {missed : String} {bs : List Backend} {es : List Event} {t : System}
    (h : Selector.configure .leastResponseTime replicas config = .ok s)
    (hbs : configuredBackends missed config = .ok bs)
    (hnames : (bs.map Backend.toString).Nodup) (hrun : Run (Steps step) (initial s) es t)
    (b : Backend) (e : Platform.Double) : t.selector.Averages b e ↔
      t.selector.Holds b ∧ e = LeastResponseTimeSelector.ema (t.durations es b) := by
  obtain ⟨htype, hs, bs', hbs', hholds, -⟩ := Selector.configure_spec h
  obtain rfl : bs = bs' := Except.ok.inj (hbs.symm.trans (hbs' missed))
  obtain ⟨r, hr, rfl⟩ := Except.map_eq_ok.mp h
  obtain ⟨hsound, hzero⟩ := LeastResponseTimeSelector.sound_configure hr hbs hnames
  obtain ⟨calls, r', hr', hcalls, hsamples⟩ :=
    LeastResponseTimeSelector.calls_of_uses (run_uses hrun)
  have hlater := later_run (inv_initial hs) hrun
  have hdurations : t.selector.Holds b →
      LeastResponseTimeSelector.samples b calls = t.durations es b := by
    intro hb
    rw [hsamples b, sampled_run hs htype hrun]
    exact durations_eq hnames (fun c x hx => (hholds x).mp (boundTo_mem hs hrun hx))
      ((hholds b).mp (hlater.holds b hb)) es
  rw [hr'] at hdurations ⊢
  have hfold : ∀ d, r'.Averages b d → r'.Holds b →
      d = LeastResponseTimeSelector.ema (t.durations es b) := by
    intro d hd hb
    rw [← hdurations hb]
    exact LeastResponseTimeSelector.averages_run hsound hzero hcalls hd
  constructor
  · intro he
    have hb : r'.Holds b := LeastResponseTimeSelector.holds_iff_averages.mpr ⟨e, he⟩
    exact ⟨hb, hfold e he hb⟩
  · intro hboth
    obtain ⟨hb, rfl⟩ := hboth
    obtain ⟨d, hd⟩ := LeastResponseTimeSelector.holds_iff_averages.mp hb
    exact hfold d hd hb ▸ hd

section Ordered

variable [OrderedPairingHeap]

/-- A selection returns a backend with a least average. -/
theorem least_of_selectBackend {replicas : Nat} {config : Node} {s : Selector} {es : List Event}
    {t : System} (h : Selector.configure .leastResponseTime replicas config = .ok s)
    (hrun : Run (Steps step) (initial s) es t) {endpoint : Endpoint} {b : Backend}
    (hb : (t.selector.selectBackend endpoint).1 = .returned b) (hheld : t.selector.Holds b) :
    ∃ e, t.selector.Averages b e ∧ ∀ y d, t.selector.Averages y d → e ≤ d := by
  obtain ⟨r, hr, rfl⟩ := Except.map_eq_ok.mp h
  obtain ⟨calls, r', hr', hcalls, -⟩ := LeastResponseTimeSelector.calls_of_uses (run_uses hrun)
  have hordered : Ordered r'.backends :=
    hcalls.invariant (I := fun u : LeastResponseTimeSelector => Ordered u.backends)
      (fun _ _ _ hu hstep => LeastResponseTimeSelector.ordered_callStep hu hstep)
      (LeastResponseTimeSelector.ordered_configure hr)
  rw [hr'] at hb hheld ⊢
  obtain ⟨b', e, hselect, he, hleast⟩ :=
    LeastResponseTimeSelector.picks_least hordered ⟨b, hheld⟩ endpoint
  obtain rfl : b' = b := Outcome.returned.inj (hselect.symm.trans hb)
  exact ⟨e, he, hleast⟩

open ExactDouble (value)

/-- After any run over backends with distinct names, and with an arithmetic that does not round,
    the average of a held backend is the fold of the durations of its clients, and a selection
    returns a backend with a least one; with a clock that does not go back it lies between zero
    and the longest. -/
theorem averages_measured [ExactDouble] [LawfulSort] {replicas : Nat} {config : Node} {s : Selector}
    {missed : String} {bs : List Backend} {es : List Event} {t : System}
    (h : Selector.configure .leastResponseTime replicas config = .ok s)
    (hbs : configuredBackends missed config = .ok bs)
    (hnames : (bs.map Backend.toString).Nodup) (hrun : Run (Steps step) (initial s) es t) :
    (∀ b e, t.selector.Averages b e ↔
      t.selector.Holds b ∧ value e = LeastResponseTimeSelector.average (t.durations es b)) ∧
    (∀ endpoint b, (t.selector.selectBackend endpoint).1 = .returned b → t.selector.Holds b ∧
      ∀ y, t.selector.Holds y → LeastResponseTimeSelector.average (t.durations es b) ≤
        LeastResponseTimeSelector.average (t.durations es y)) ∧
    (Forward es → ∀ b e, t.selector.Averages b e →
      0 ≤ value e ∧ value e ≤ ((t.durations es b).foldl max 0 : Int)) := by
  have haverage := averages_iff h hbs hnames hrun
  have hvalue : ∀ b e, e = LeastResponseTimeSelector.ema (t.durations es b) ↔
      value e = LeastResponseTimeSelector.average (t.durations es b) := by
    intro b e
    rw [← LeastResponseTimeSelector.value_ema, ExactDouble.value_inj]
  refine ⟨fun b e => by rw [haverage, hvalue], fun endpoint b hb => ?_, fun hforward b e he => ?_⟩
  · have hinv : t.selector.Inv := (inv_run (inv_initial (Selector.configure_spec h).2.1) hrun).selector
    have hheld := (Selector.selectable_of_selectBackend hinv hb).holds
    obtain ⟨e, he, hleast⟩ := least_of_selectBackend h hrun hb hheld
    refine ⟨hheld, fun y hy => ?_⟩
    rw [← LeastResponseTimeSelector.value_ema, ← LeastResponseTimeSelector.value_ema,
      ← ((haverage b e).mp he).2, ExactDouble.value_le]
    exact hleast y _ ((haverage y _).mpr ⟨hy, rfl⟩)
  · rw [(hvalue b e).mp ((haverage b e).mp he).2]
    refine LeastResponseTimeSelector.average_bounds fun d hd => ?_
    obtain ⟨p, hp, hd⟩ := List.mem_filterMap.mp hd
    split at hd
    · obtain rfl := Option.some.inj hd
      exact responses_nonneg hforward p hp
    · cases hd

end Ordered

end System

/-! ## Between two samples -/

/-- Uses of a least-response-time selector that add no sample and exclude nothing leave it, and
    select what is on top of the heap. -/
theorem LeastResponseTimeSelector.quiet_uses {r : LeastResponseTimeSelector} {t : Selector}
    {uses : List Use} (hrun : Run Selector.UseStep (.leastResponseTime r) uses t)
    (hsampled : uses.filterMap Use.sampled = []) (hexcluded : uses.filterMap Use.excluded = []) :
    t = .leastResponseTime r ∧ ∀ b ∈ uses.filterMap Use.selected,
      ∃ entry, r.topEntry = .returned entry ∧ entry.backend = b := by
  induction hrun with
  | nil => simp
  | @snoc t u uses use hrun hstep ih =>
      rw [List.filterMap_append, List.append_eq_nil_iff] at hsampled hexcluded
      obtain ⟨rfl, hselected⟩ := ih hsampled.1 hexcluded.1
      cases use with
      | call call =>
          cases call with
          | exclude b result => simp [Use.excluded] at hexcluded
          | select client result =>
              have hstep : (r.selectBackend client).map id Selector.leastResponseTime =
                (result, u) := hstep
              rw [List.filterMap_append]
              rcases r.selectBackend_cases client with ⟨entry, htop, hselect⟩ | ⟨-, hselect⟩
              · rw [hselect] at hstep
                cases hstep
                refine ⟨rfl, fun b hb => ?_⟩
                rcases List.mem_append.mp hb with hb | hb
                · exact hselected b hb
                · exact ⟨entry, htop, (List.mem_singleton.mp hb).symm⟩
              · rw [hselect] at hstep
                cases hstep
                refine ⟨rfl, fun b hb => ?_⟩
                rcases List.mem_append.mp hb with hb | hb
                · exact hselected b hb
                · cases hb
      | addResponseTime b d => simp [Use.sampled] at hsampled
      | _ =>
          obtain rfl : _ = u := hstep
          refine ⟨rfl, fun b hb => hselected b ?_⟩
          simpa [Use.selected] using hb

namespace System

theorem boundTo_run {s : Selector} {sys t : System} {es fs : List Event} [LawfulPairingHeap]
    (hs : s.Inv) (hbefore : Run (Steps step) (initial s) es sys)
    (hrun : Run (Steps step) sys fs t) {r : Nat × Int} (hr : r ∈ responses es) :
    t.boundTo r.1 = sys.boundTo r.1 := by
  induction hrun with
  | nil => rfl
  | @snoc u v fs e hrun hstep ih =>
      have hall := hbefore.append hrun
      have hmem : r ∈ responses (es ++ fs) := by
        rw [responses, observations_append (run_past es)]
        exact List.mem_append_left _ hr
      rw [boundTo_step (inv_run (inv_initial hs) hall) hall hstep hmem, ih]

/-- In any stretch of a run with least response time in which no response comes and no refusal is
    retried, every attempt is made on the same backend. -/
theorem attempts_herd [LawfulPairingHeap] [LawfulSort] {replicas : Nat} {config : Node}
    {s : Selector} {es fs : List Event} {sys t : System}
    (h : Selector.configure .leastResponseTime replicas config = .ok s)
    (hbefore : Run (Steps step) (initial s) es sys) (hrun : Run (Steps step) sys fs t)
    (hresponses : responses (es ++ fs) = responses es) (hrefusals : sys.retriedRefusals fs = []) :
    t.selector = sys.selector ∧ ∃ made, t.attempts.Perm (sys.attempts ++ made) ∧
      ∀ x ∈ made, ∀ y ∈ made, x = y := by
  obtain ⟨htype, hs, -⟩ := Selector.configure_spec h
  have hall := hbefore.append hrun
  have hsampled : (sys.uses fs).filterMap Use.sampled = [] := by
    have hsame : t.measured (es ++ fs) = sys.measured es := by
      unfold measured
      rw [hresponses]
      exact List.filterMap_congr fun r hr => by rw [boundTo_run hs hbefore hrun hr]
    have hsplit : (initial s).uses (es ++ fs) = (initial s).uses es ++ sys.uses fs :=
      observations_append hbefore fs
    have htotal := sampled_run hs htype hall
    rw [hsame, ← sampled_run hs htype hbefore, hsplit, List.filterMap_append] at htotal
    exact List.append_right_eq_self.mp htotal
  have hexcluded := (retriedRefusals_uses hrun).trans hrefusals
  obtain ⟨r, -, rfl⟩ := Except.map_eq_ok.mp h
  obtain ⟨-, r', hr', -, -⟩ := LeastResponseTimeSelector.calls_of_uses (run_uses hbefore)
  have huses := run_uses hrun
  rw [hr'] at huses ⊢
  obtain ⟨hsame, hselected⟩ := LeastResponseTimeSelector.quiet_uses huses hsampled hexcluded
  refine ⟨hsame, _, attempts_run hrun, fun x hx y hy => ?_⟩
  obtain ⟨entry, htop, rfl⟩ := hselected x hx
  obtain ⟨entry', htop', rfl⟩ := hselected y hy
  rw [Outcome.returned.inj (htop.symm.trans htop')]

end System

end

namespace System

section

open Reference Selector

def twoTimed : Selector := .leastResponseTime LeastResponseTimeSelector.twoNew

/-- The first client gets a response in ten units of time, and its next request is on the way. -/
def oneResponse : List Event :=
  [.accepts somebody, .client 0 .selects, .client 0 (.connects .success),
    .client 0 (.completes .success 1), .client 0 (.completes .success 2),
    .client 0 (.completes .success 12), .client 0 (.completes .success 13),
    .client 0 (.completes .success 20), .client 0 (.completes .success 21)]

def afterOneResponse : System :=
  (oneResponse.foldlM step (initial twoTimed)).getD (initial twoTimed)

theorem run_oneResponse : Run (Steps step) (initial twoTimed) oneResponse afterOneResponse := by
  -- the comparison of two averages is left to the kernel
  have hsome : (oneResponse.foldlM step (initial twoTimed)).isSome = true := by decide +kernel
  exact .of_isSome hsome _

theorem averages_measured_oneResponse :
    afterOneResponse.durations oneResponse port80 = [10] ∧
      afterOneResponse.durations oneResponse port81 = [] ∧
      ∀ b e, afterOneResponse.selector.Averages b e ↔ afterOneResponse.selector.Holds b ∧
        ExactDouble.value e =
          LeastResponseTimeSelector.average (afterOneResponse.durations oneResponse b) := by
  have h : configure .leastResponseTime 1 twoEntries = .ok twoTimed := by rfl
  have hbs : configuredBackends "" twoEntries = .ok [port80, port81] := by rfl
  exact ⟨by decide +kernel, by decide +kernel,
    (averages_measured h hbs (by decide) run_oneResponse).1⟩

/-- Two more clients, before any further response. -/
def twoMore : List Event :=
  [.accepts somebody, .client 1 .selects, .client 1 (.connects .success), .accepts somebody,
    .client 2 .selects, .client 1 (.completes .success 30)]

def afterTwoMore : System :=
  (twoMore.foldlM step afterOneResponse).getD afterOneResponse

theorem attempts_herd_twoMore :
    afterTwoMore.attempts = [port80, port81, port81] ∧
      afterTwoMore.selector = afterOneResponse.selector ∧
      ∃ made, afterTwoMore.attempts.Perm (afterOneResponse.attempts ++ made) ∧
        ∀ x ∈ made, ∀ y ∈ made, x = y := by
  have h : configure .leastResponseTime 1 twoEntries = .ok twoTimed := by rfl
  have hsome : (twoMore.foldlM step afterOneResponse).isSome = true := by decide +kernel
  have hrun : Run (Steps step) afterOneResponse twoMore afterTwoMore :=
    .of_isSome hsome _
  exact ⟨by decide +kernel,
    attempts_herd h run_oneResponse hrun (by decide +kernel) (by decide +kernel)⟩

end

end System

end LoadBalancer
