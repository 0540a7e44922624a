/-
  Least connections: whether the counters return to zero.

  `leakFree_iff`: once no attempt is pending and every session is destroyed, the counters are
  zero exactly where no dropped client is charged to a name that the selector still knows; and
  they always are in a run whose failed attempts are all retried.
-/
import LoadBalancer.Connector.Accounting

namespace LoadBalancer

open Transition

section

variable [Platform]

namespace Selector

/-- The counter of every backend still held is 0. -/
def CountersZero (s : Selector) : Prop :=
  ∀ b n, s.Counts b n → n = 0

end Selector

namespace System

/-- No connect attempt is pending, and every created session has been destroyed. -/
def Quiescent (sys : System) : Prop :=
  ∀ client ∈ sys.clients, client.phase.attempting = none ∧
    ∀ b v state, client.phase = .session b v state → state = .destroyed

/-- The selector no longer knows the backend of a client that was left without a session. -/
def DroppedForgotten (sys : System) : Prop :=
  ∀ client ∈ sys.clients, ∀ b ec, client.phase = .dropped b ec →
    sys.selector.counterOf b.toString = none

/-- A client at rest is charged only where it was dropped. -/
theorem charge_quiescent {sys : System} (hquiet : sys.Quiescent) {client : Client}
    (hmem : client ∈ sys.clients) {P : Backend → Bool}
    (hdropped : ∀ b ec, client.phase = .dropped b ec → P b = false) :
    client.phase.charge P = 0 := by
  obtain ⟨hattempting, hdestroyed⟩ := hquiet client hmem
  cases hphase : client.phase with
  | connecting ep => simp [hphase, Phase.attempting] at hattempting
  | resolving url => simp [hphase, Phase.attempting] at hattempting
  | connectingResolved url => simp [hphase, Phase.attempting] at hattempting
  | session b v state =>
      rw [hdestroyed b v state hphase, Phase.charge, SessionState.charge, chargeOn, ite_self]
  | dropped b ec => simp [Phase.charge, chargeOn, hdropped b ec hphase]
  | _ => rfl

/-- At rest, the counters are zero exactly where no dropped client is charged to a name that
    the selector still knows. -/
theorem countersZero_iff {sys : System} {s : LeastConnectionsSelector} (hs : s.Keyed)
    (hbooks : sys.Books s) (hquiet : sys.Quiescent) :
    sys.selector.CountersZero ↔ sys.DroppedForgotten := by
  rw [Selector.CountersZero, DroppedForgotten, hbooks.selector]
  constructor
  · intro hzero client hmem b ec hphase
    rw [Option.eq_none_iff_forall_ne_some]
    intro n hn
    obtain ⟨x, -, hx⟩ := LeastConnectionsSelector.counts_of_counterOf hs hn
    have hsum := hbooks.balanced b.toString n hn
    have hcharge : client.phase.charge (Backend.named b.toString) = 1 := by
      simp [hphase, Phase.charge, chargeOn, Backend.named]
    have hle := List.single_le_sum (fun _ _ => Nat.zero_le _) _
      (List.mem_map_of_mem (f := fun client : Client =>
        client.phase.charge (Backend.named b.toString)) hmem)
    have hn0 : n = 0 := hzero x n hx
    omega
  · intro hforgotten b n hn
    rcases LeastConnectionsSelector.counterOf_of_counts hbooks.strays hn with hname | hzero
    · rw [hbooks.balanced _ n hname]
      apply List.sum_eq_zero
      intro c hc
      obtain ⟨client, hmem, rfl⟩ := List.mem_map.mp hc
      apply charge_quiescent hquiet hmem
      intro x ec hphase
      have hnone : s.counterOf x.toString = none := hforgotten client hmem x ec hphase
      rw [Backend.named, decide_eq_false_iff_not]
      intro heq
      rw [heq, hnone] at hname
      cases hname
    · exact hzero

/-- At rest, the counters are zero exactly where the selector has forgotten the backends of
    all dropped clients; and always in a run whose failed attempts are all retried. -/
theorem leakFree_iff [LawfulPairingHeap] [LawfulSort] {replicas : Nat} {config : Node}
    {s : Selector} (h : Selector.configure .leastConnections replicas config = .ok s) :
    (∀ es t, Run (Steps step) (initial s) es t → t.Quiescent →
      (t.selector.CountersZero ↔ t.DroppedForgotten)) ∧
    ∀ es t, Run (Under retried (Steps step)) (initial s) es t → t.Quiescent →
      t.selector.CountersZero := by
  have hinv : (initial s).Inv := inv_initial (Selector.configure_spec h).2.1
  obtain ⟨s₀, hbooks⟩ := books_initial h
  have hiff : ∀ es t, Run (Steps step) (initial s) es t → t.Quiescent →
      (t.selector.CountersZero ↔ t.DroppedForgotten) := by
    intro es t hrun hquiet
    obtain ⟨s', hs'⟩ := books_run hinv hbooks hrun
    exact countersZero_iff (hs'.keyed (inv_run hinv hrun)) hs' hquiet
  refine ⟨hiff, fun es t hrun hquiet => ?_⟩
  rw [hiff es t hrun.of_under hquiet]
  intro client hmem b ec hphase
  have hnone : ∀ client ∈ (initial s).clients, ¬ client.Dropped := by simp [initial]
  exact absurd ⟨b, ec, hphase⟩ (not_dropped_run hnone hrun client hmem)

end System

end

/-! ## An unreachable backend -/

namespace System

section

open Reference Selector

/-- A client is accepted and connected, and its session ends at its first read. -/
def endedSession : List Event :=
  [.accepts somebody, .client 0 .selects, .client 0 (.connects .success),
    .client 0 (.completes (.other 1) 0), .client 0 .destroys]

def afterEndedSession : System :=
  (endedSession.foldlM step (initial oneCounted)).getD (initial oneCounted)

theorem leakFree_endedSession : afterEndedSession.selector.CountersZero := by
  have h : configure .leastConnections 1 oneEntry = .ok oneCounted := by rfl
  have hrun : Run (Steps step) (initial oneCounted) endedSession afterEndedSession :=
    .of_foldlM (by rfl)
  have hretried : ∀ e ∈ endedSession, ∀ sys : System, sys.retried e := by
    simp [endedSession, retried, Client.retried]
  have hquiet : afterEndedSession.Quiescent := by
    intro client hmem
    obtain rfl : client = ⟨somebody, .session port80 (.leastConnectionsCallbacks port80) .destroyed,
      [port80]⟩ := List.mem_singleton.mp hmem
    refine ⟨rfl, fun b v state hphase => ?_⟩
    cases hphase
    rfl
  exact (leakFree_iff h).2 _ _ (hrun.under_of_forall hretried) hquiet

/-- The attempt of the only client fails: the host is unreachable. -/
def unreachable : List Event :=
  [.accepts somebody, .client 0 .selects, .client 0 (.connects (.other 113))]

def afterUnreachable : System :=
  (unreachable.foldlM step (initial oneCounted)).getD (initial oneCounted)

/-- No attempt is pending and no session was created, and the counter is 1. -/
theorem leak_unreachable :
    configure .leastConnections 1 oneEntry = .ok oneCounted ∧
      Run (Steps step) (initial oneCounted) unreachable afterUnreachable ∧
      afterUnreachable.Quiescent ∧ afterUnreachable.selector.Counts port80 1 ∧
      ¬ afterUnreachable.selector.CountersZero := by
  have hcounts : afterUnreachable.selector.Counts port80 1 := ⟨1, ⟨port80, 1⟩, by rfl, rfl, rfl⟩
  refine ⟨by rfl, .of_foldlM (by rfl), ?_, hcounts, fun hzero => ?_⟩
  · intro client hmem
    obtain rfl : client = ⟨somebody, .dropped port80 (.other 113), [port80]⟩ :=
      List.mem_singleton.mp hmem
    exact ⟨rfl, fun b v state hphase => by cases hphase⟩
  · exact absurd (hzero port80 1 hcounts) (by omega)

end

end System

end LoadBalancer
