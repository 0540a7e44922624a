/-
  The sessions of the connector tell their visitors what `NotifiedSession` says.

  A run of the system, read for one client, is a run of that client's session
  (`told_of_run`). The system never drops a pending handler, so every session that is destroyed
  in it has told the end twice (`disconnected_twice`).
-/
import LoadBalancer.Connector.System
import LoadBalancer.Session.Notifications

namespace LoadBalancer

open Transition

variable [Platform]

/-- The event of the session. -/
def ClientEvent.session : ClientEvent → Option SessionEvent
  | .completes ec _ => some (.completes ec)
  | .destroys => some .released
  | _ => none

/-- The event of the session of client `c`. -/
def Event.session (c : Nat) : Event → Option SessionEvent
  | .client c' e => if c' = c then e.session else none
  | .accepts _ => none

theorem filterMap_session_snoc (c : Nat) (es : List Event) (e : Event) :
    (es ++ [e]).filterMap (Event.session c) =
      es.filterMap (Event.session c) ++ (e.session c).toList := by
  cases he : e.session c <;> simp [he]

namespace Phase

/-- The events of a session lead to its state; there are none before it is made. -/
def Told (events : List SessionEvent) : Phase → Prop
  | .session _ _ state =>
    (∃ sent, Run (Steps NotifiedSession.step) .started events ⟨state, sent⟩) ∧
      (state = .destroyed → NotifiedSession.Failed events)
  | .dropped _ _ | .failed _ | .undefined => True
  | _ => events = []

theorem told_after {events : List SessionEvent} {next : Phase} (h : next.Told events)
    (result : Outcome Unit) : (after result next).Told events := by
  cases result with
  | returned u => exact h
  | _ => trivial

theorem events_of_attempting {events : List SessionEvent} {phase : Phase} {b : Backend}
    (h : phase.Told events) (hattempting : phase.attempting = some b) : events = [] := by
  cases phase <;> first | exact h | cases hattempting

theorem told_attempt (b : Backend) : (attempt b).Told [] := by
  cases b <;> rfl

end Phase

namespace Client

theorem told_notify {events : List SessionEvent} {call : Notification × SessionState}
    {sent : List Notification}
    (hrun : Run (Steps NotifiedSession.step) .started events (.after sent call))
    (hfailed : call.2 = .destroyed → NotifiedSession.Failed events) (s : Selector)
    (client : Client) (b : Backend) (v : Visitor) (now : Int) :
    (notify s client b v call now).2.phase.Told events := by
  have hsession : ∀ v', (Phase.session b v' call.2).Told events :=
    fun v' => ⟨⟨_, hrun⟩, hfailed⟩
  exact Phase.told_after (hsession _) _

/-- A client whose attempt is pending has no session that could complete. -/
theorem session_eq_none_of_step {s t : Selector} {client client' : Client} {e : ClientEvent}
    {b : Backend} (hattempting : client.phase.attempting = some b)
    (h : client.step s e = some (t, client')) : e.session = none := by
  cases e with
  | completes ec now =>
      simp only [step] at h
      split at h
      · next hphase =>
        rw [hphase] at hattempting
        cases hattempting
      · cases h
  | destroys =>
      simp only [step] at h
      split at h
      · next hphase =>
        rw [hphase] at hattempting
        cases hattempting
      · cases h
  | _ => rfl

theorem told_step {s t : Selector} {client client' : Client} {e : ClientEvent}
    {events : List SessionEvent} (htold : client.phase.Told events)
    (h : client.step s e = some (t, client')) :
    client'.phase.Told (events ++ e.session.toList) := by
  cases stepCase_of_step h with
  | @selected b ready =>
      rw [ready] at htold
      obtain rfl : events = [] := htold
      exact Phase.told_attempt b
  | unselected ready unselected halted =>
      rcases halted with rfl | ⟨e, -, rfl⟩ <;> trivial
  | @refused e b attempting retried =>
      obtain rfl := Phase.events_of_attempting htold attempting
      rw [session_eq_none_of_step attempting h]
      exact @Phase.told_after _ [] .ready rfl _
  | resolved resolving =>
      rw [resolving] at htold
      obtain rfl : events = [] := htold
      rfl
  | @connected b attempting =>
      obtain rfl := Phase.events_of_attempting htold attempting
      exact told_notify (Run.nil _) (fun h => nomatch h) s client b _ 0
  | dropped => trivial
  | @handled b v op ec now running =>
      rw [running] at htold
      obtain ⟨⟨sent, hrun⟩, -⟩ := htold
      have hstep : Steps NotifiedSession.step ⟨.running op, sent⟩ (.completes ec)
        (.after sent (HttpSession.handle op ec)) := rfl
      refine told_notify (hrun.snoc hstep) (fun h => ?_) s client b v now
      unfold HttpSession.handle at h
      split at h <;> cases h
  | @destroyed b v cancelled =>
      rw [cancelled] at htold
      obtain ⟨⟨sent, hrun⟩, -⟩ := htold
      have hstep : Steps NotifiedSession.step ⟨.cancelled, sent⟩ .released
        (.after sent HttpSession.destroy) := rfl
      refine told_notify (hrun.snoc hstep) (fun _ => ?_) s client b v 0
      cases NotifiedSession.reached_of_run hrun with
      | cancelled failed => exact NotifiedSession.failed_snoc_released.mpr failed

end Client

namespace System

/-- Every client and the events of its session; a client yet to come has none. -/
def Told (sys : System) (es : List Event) : Prop :=
  ∀ c, match sys.clients[c]? with
    | some client => client.phase.Told (es.filterMap (Event.session c))
    | none => es.filterMap (Event.session c) = []

theorem told_accepts {sys : System} {es : List Event} (hsys : sys.Told es) (endpoint : Endpoint) :
    Told { sys with clients := sys.clients ++ [Client.new endpoint] }
      (es ++ [.accepts endpoint]) := by
  intro c
  have hc := hsys c
  have hevents : ((Event.accepts endpoint).session c).toList = [] := rfl
  rw [filterMap_session_snoc, hevents, List.append_nil, List.getElem?_append]
  split at hc
  · next client hclient =>
    have hlt := (List.getElem?_eq_some_iff.mp hclient).1
    rw [if_pos hlt, hclient]
    exact hc
  · next hnone =>
    rw [if_neg (Nat.not_lt.mpr (List.getElem?_eq_none_iff.mp hnone))]
    rcases (c - sys.clients.length) with _ | i
    · exact hc
    · exact hc

theorem told_client {sys : System} {es : List Event} (hsys : sys.Told es) {c : Nat}
    {ce : ClientEvent} {s : Selector} {client client' : Client}
    (hclient : sys.clients[c]? = some client)
    (hstep : client.step sys.selector ce = some (s, client')) :
    Told { selector := s, clients := sys.clients.set c client' } (es ++ [.client c ce]) := by
  intro c'
  have hc := hsys c'
  by_cases hsame : c = c'
  · subst hsame
    rw [hclient] at hc
    have hevents : (Event.client c ce).session c = ce.session := if_pos rfl
    rw [filterMap_session_snoc, hevents,
      List.getElem?_set_self (List.getElem?_eq_some_iff.mp hclient).1]
    exact Client.told_step hc hstep
  · have hevents : (Event.client c ce).session c' = none := if_neg hsame
    rw [filterMap_session_snoc, hevents, Option.toList_none, List.append_nil,
      List.getElem?_set_ne hsame]
    exact hc

theorem told_step {sys t : System} {es : List Event} {e : Event} (hsys : sys.Told es)
    (h : sys.step e = some t) : t.Told (es ++ [e]) := by
  cases e with
  | accepts endpoint =>
      rw [step_accepts h]
      exact told_accepts hsys endpoint
  | client c ce =>
      obtain ⟨client, hclient, h⟩ := Option.bind_eq_some_iff.mp h
      obtain ⟨⟨s, client'⟩, hstep, h⟩ := Option.bind_eq_some_iff.mp h
      rw [← Option.some.inj h]
      exact told_client hsys hclient hstep

/-- Whatever the interleaving, the events of a client's session are a run of that session. -/
theorem told_of_run {s : Selector} {sys : System} {es : List Event}
    (hrun : Run (Steps step) (initial s) es sys) : sys.Told es := by
  induction hrun with
  | nil => exact fun c => rfl
  | snoc _ hstep ih => exact told_step ih hstep

/-- A session that the connector made and that was destroyed has told the end twice. -/
theorem disconnected_twice {s : Selector} {sys : System} {es : List Event}
    (hrun : Run (Steps step) (initial s) es sys) {c : Nat} {client : Client}
    (hclient : sys.clients[c]? = some client) {b : Backend} {v : Visitor}
    (hphase : client.phase = .session b v .destroyed) :
    ∃ n, Run (Steps NotifiedSession.step) .started (es.filterMap (Event.session c))
      ⟨.destroyed, Notification.bracketed n 2⟩ := by
  have htold := told_of_run hrun c
  rw [hclient] at htold
  dsimp only at htold
  rw [hphase] at htold
  obtain ⟨⟨sent, hsession⟩, hfailed⟩ := htold
  have hreached := NotifiedSession.reached_of_run hsession
  cases hreached with
  | dropped succeeded => exact absurd (hfailed rfl) succeeded
  | @destroyed n failed => exact ⟨n, hsession⟩

end System

end LoadBalancer
