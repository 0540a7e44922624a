/-
  Least connections: what the counter of a held backend is.

  `counter_exact`: in every run whose attempts succeed or are retried, over backends with
  distinct names, the counter of a held backend is its pending attempts, twice its running
  sessions and its closing sessions; so the guard of `DecreaseConnectionCount` swallows no
  decrement.
-/
import LoadBalancer.Connector.Accounting

namespace LoadBalancer

open Transition

section

variable [Platform]

/-! ## Phases -/

namespace Phase

/-- The backend of a running session. -/
def running : Phase → Option Backend
  | .session b _ (.running _) => some b
  | _ => none

/-- The backend of a session that was cancelled and is about to be destroyed. -/
def closing : Phase → Option Backend
  | .session b _ .cancelled => some b
  | _ => none

/-- The backend that a client is bound to, or was. -/
def backend : Phase → Option Backend
  | .connecting ep => some (.endpoint ep)
  | .resolving url => some (.url url)
  | .connectingResolved url => some (.url url)
  | .session b _ _ => some b
  | .dropped b _ => some b
  | _ => none

/-- The charge of a client that was not dropped, by the name of `b`, where no other backend
    that it is bound to has the name. -/
theorem charge_named {phase : Phase} {b : Backend} (hdropped : ∀ x ec, phase ≠ .dropped x ec)
    (hname : ∀ x, phase.backend = some x → b.toString = x.toString → x = b) :
    phase.charge (Backend.named b.toString) =
      (if phase.attempting = some b then 1 else 0) +
        2 * (if phase.running = some b then 1 else 0) +
          (if phase.closing = some b then 1 else 0) := by
  have hnamed : ∀ x, phase.backend = some x →
      Backend.named b.toString x = decide (x = b) := by
    intro x hx
    rw [Backend.named, decide_eq_decide]
    exact ⟨hname x hx, fun h => h ▸ rfl⟩
  cases phase with
  | connecting ep => simp [charge, chargeOn, attempting, running, closing, hnamed _ rfl]
  | resolving url => simp [charge, chargeOn, attempting, running, closing, hnamed _ rfl]
  | connectingResolved url => simp [charge, chargeOn, attempting, running, closing, hnamed _ rfl]
  | session x v state =>
      cases state with
      | running op =>
          simp only [charge, chargeOn, SessionState.charge, attempting, running, closing,
            hnamed _ rfl]
          by_cases hx : x = b <;> simp [hx]
      | cancelled =>
          simp [charge, chargeOn, SessionState.charge, attempting, running, closing, hnamed _ rfl]
      | destroyed =>
          simp [charge, chargeOn, SessionState.charge, attempting, running, closing]
  | dropped x ec => exact absurd rfl (hdropped x ec)
  | _ => rfl

theorem backend_of_attempting {phase : Phase} {b : Backend} (h : phase.attempting = some b) :
    phase.backend = some b := by
  cases phase with
  | connecting ep => exact h
  | resolving url => exact h
  | connectingResolved url => exact h
  | _ => cases h

theorem backend_after {result : Outcome Unit} {next : Phase} {x : Backend}
    (h : (after result next).backend = some x) : next.backend = some x := by
  cases result with
  | returned => exact h
  | _ => cases h

end Phase

namespace Client

/-- A step binds its client to a backend that the selector holds, if to another than before. -/
theorem backend_stepCase {s t : Selector} {client client' : Client} {e : ClientEvent}
    (hs : s.Inv) (h : StepCase s client e t client') {x : Backend}
    (hx : client'.phase.backend = some x) : client.phase.backend = some x ∨ s.Holds x := by
  cases h with
  | @selected b ready selected =>
      have hb := Phase.backend_of_attempting (Phase.attempting_attempt b)
      obtain rfl : b = x := Option.some.inj (hb.symm.trans hx)
      exact Or.inr (Selector.selectable_of_selectBackend hs selected).holds
  | unselected ready unselected halted =>
      rcases halted with rfl | ⟨e, -, rfl⟩
      · cases hx
      · cases hx
  | refused => cases Phase.backend_after hx
  | resolved resolving =>
      left
      rw [resolving]
      exact hx
  | connected attempting =>
      left
      rw [Phase.backend_of_attempting attempting]
      exact Phase.backend_after hx
  | dropped attempting =>
      left
      rw [Phase.backend_of_attempting attempting]
      exact hx
  | handled running =>
      left
      rw [running]
      have hb := Phase.backend_after hx
      exact hb
  | destroyed cancelled =>
      left
      rw [cancelled]
      have hb := Phase.backend_after hx
      exact hb

end Client

/-! ## Loads -/

namespace System

/-- Connect attempts pending on a backend. -/
def pending (sys : System) (b : Backend) : Nat :=
  sys.clients.countP fun client => client.phase.attempting = some b

/-- Sessions running on a backend. -/
def running (sys : System) (b : Backend) : Nat :=
  sys.clients.countP fun client => client.phase.running = some b

/-- Sessions on a backend that were cancelled and are not destroyed yet. -/
def closing (sys : System) (b : Backend) : Nat :=
  sys.clients.countP fun client => client.phase.closing = some b

/-- What the counter of a backend is when no client is dropped. -/
def load (sys : System) (b : Backend) : Nat :=
  sys.pending b + 2 * sys.running b + sys.closing b

/-- The guard of `DecreaseConnectionCount` lets every decrement of a held backend pass: its
    counter is positive while a session is yet to call `Cancel`. -/
def GuardPasses (sys : System) : Prop :=
  ∀ client ∈ sys.clients, ∀ b v state n, client.phase = .session b v state →
    state ≠ .destroyed → sys.selector.Counts b n → 0 < n

/-- Where names are distinct and no client was dropped, the charges on a name add up to the
    load of the backend. -/
theorem sum_charge_named {clients : List Client} {b : Backend}
    (hdropped : ∀ client ∈ clients, ¬ client.Dropped)
    (hname : ∀ client ∈ clients, ∀ x, client.phase.backend = some x →
      b.toString = x.toString → x = b) (s : Selector) :
    (clients.map fun client => client.phase.charge (Backend.named b.toString)).sum =
      load ⟨s, clients⟩ b := by
  induction clients with
  | nil => rfl
  | cons client clients ih =>
      have htail := ih (fun c hc => hdropped c (List.mem_cons_of_mem _ hc))
        (fun c hc => hname c (List.mem_cons_of_mem _ hc))
      have hhead := Phase.charge_named
        (fun x ec hphase => hdropped client List.mem_cons_self ⟨x, ec, hphase⟩)
        (hname client List.mem_cons_self)
      simp only [load, pending, running, closing, List.map_cons, List.sum_cons, List.countP_cons,
        decide_eq_true_eq] at htail ⊢
      rw [htail, hhead]
      omega

variable [LawfulPairingHeap]

/-- Clients are bound to backends that the first selector held. -/
theorem holds_backend_run {sys t : System} {es : List Event} (hsys : sys.Inv)
    (hbackends : ∀ client ∈ sys.clients, ∀ x, client.phase.backend = some x →
      sys.selector.Holds x) (hrun : Run (Steps step) sys es t) :
    ∀ client ∈ t.clients, ∀ x, client.phase.backend = some x → sys.selector.Holds x := by
  induction hrun with
  | nil => exact hbackends
  | @snoc u v es e hrun hstep ih =>
      have hlater := later_run hsys hrun
      apply forall_clients_step hstep ih (fun endpoint x hx => by cases hx)
      intro c ce client client' _ hclient hcase x hx
      rcases Client.backend_stepCase hlater.inv hcase hx with hold | hholds
      · exact ih client (List.mem_of_getElem? hclient) x hold
      · exact hlater.holds x hholds

/-- In every run whose attempts succeed or are retried, over backends with distinct names, a
    backend is held with the counter `n` exactly where it is held and `n` is its load. -/
theorem counts_iff [LawfulSort] {replicas : Nat} {config : Node} {s : Selector}
    {missed : String} {bs : List Backend} {es : List Event} {t : System}
    (h : Selector.configure .leastConnections replicas config = .ok s)
    (hbs : configuredBackends missed config = .ok bs)
    (hnames : (bs.map Backend.toString).Nodup)
    (hrun : Run (Under retried (Steps step)) (initial s) es t) (b : Backend) (n : Nat) :
    t.selector.Counts b n ↔ t.selector.Holds b ∧ n = t.load b := by
  obtain ⟨-, hs, bs', hbs', hholds, haddr⟩ := Selector.configure_spec h
  obtain rfl : bs = bs' := Except.ok.inj (hbs.symm.trans (hbs' missed))
  have hinv : (initial s).Inv := inv_initial hs
  have hlater := later_run hinv hrun.of_under
  obtain ⟨s₀, hbooks₀⟩ := books_initial h
  obtain ⟨s', hbooks⟩ := books_run hinv hbooks₀ hrun.of_under
  have hpooled : s'.Pooled := by
    have := hlater.addressable (haddr.mpr hnames)
    rw [hbooks.selector] at this
    exact this
  have hnodropped : ∀ client ∈ t.clients, ¬ client.Dropped :=
    not_dropped_run (by simp [initial]) hrun
  have hmem : ∀ client ∈ t.clients, ∀ x, client.phase.backend = some x → x ∈ bs :=
    fun client hc x hx => (hholds x).mp
      (holds_backend_run hinv (by simp [initial]) hrun.of_under client hc x hx)
  have hload : t.selector.Holds b → ∀ m, s'.Counts b m → m = t.load b := by
    intro hb m hm
    have hb' : b ∈ bs := (hholds b).mp (hlater.holds b hb)
    rw [hbooks.balanced _ m (LeastConnectionsSelector.counterOf_of_pooled hpooled hm)]
    refine sum_charge_named hnodropped (fun client hc x hx hname => ?_) t.selector
    exact List.inj_on_of_nodup_map hnames (hmem client hc x hx) hb' hname.symm
  rw [hbooks.selector] at hload ⊢
  constructor
  · intro hcounts
    obtain ⟨k, w, hfind, hb, hn⟩ := hcounts
    have hheld : (Selector.leastConnections s').Holds b := ⟨k, w, hfind, hb⟩
    exact ⟨hheld, hload hheld n ⟨k, w, hfind, hb, hn⟩⟩
  · intro hheld
    obtain ⟨⟨k, w, hfind, hb⟩, rfl⟩ := hheld
    have hcount := hload ⟨k, w, hfind, hb⟩ w.counter ⟨k, w, hfind, hb, rfl⟩
    exact ⟨k, w, hfind, hb, hcount⟩

/-- The exact counter: in every run whose attempts succeed or are retried, over backends with
    distinct names, the counter of a held backend is its load, and no decrement of it is
    swallowed. -/
theorem counter_exact [LawfulSort] {replicas : Nat} {config : Node} {s : Selector}
    {missed : String} {bs : List Backend} {es : List Event} {t : System}
    (h : Selector.configure .leastConnections replicas config = .ok s)
    (hbs : configuredBackends missed config = .ok bs)
    (hnames : (bs.map Backend.toString).Nodup)
    (hrun : Run (Under retried (Steps step)) (initial s) es t) :
    (∀ b n, t.selector.Counts b n ↔
      t.selector.Holds b ∧ n = t.pending b + 2 * t.running b + t.closing b) ∧
    t.GuardPasses := by
  have hcounts := counts_iff h hbs hnames hrun
  refine ⟨hcounts, fun client hmem b v state n hphase hstate hn => ?_⟩
  have hload : n = t.load b := ((hcounts b n).mp hn).2
  rw [hload, load]
  cases state with
  | running op =>
      have hpos : 0 < t.running b :=
        List.countP_pos_iff.mpr ⟨client, hmem, by simp [hphase, Phase.running]⟩
      omega
  | cancelled =>
      have hpos : 0 < t.closing b :=
        List.countP_pos_iff.mpr ⟨client, hmem, by simp [hphase, Phase.closing]⟩
      omega
  | destroyed => exact absurd rfl hstate

end System

end

section

open Reference

/-- A least-connections selector over two endpoints. -/
def Selector.twoCounted : Selector := .leastConnections
  (LeastConnectionsSelector.insertBackend (LeastConnectionsSelector.insertBackend .new port80) port81)

end

namespace System

section

open Reference Selector

/-- Three clients: one is connected, one is cancelled, and one has its attempt pending. -/
def threePhases : List Event :=
  [.accepts somebody, .accepts somebody, .accepts somebody, .client 0 .selects,
    .client 1 .selects, .client 2 .selects, .client 0 (.connects .success),
    .client 1 (.connects .success), .client 1 (.completes (.other 1) 0)]

def afterThreePhases : System :=
  (threePhases.foldlM step (initial twoCounted)).getD (initial twoCounted)

theorem counter_exact_threePhases :
    afterThreePhases.load port80 = 2 ∧ afterThreePhases.load port81 = 2 ∧
      (∀ b n, afterThreePhases.selector.Counts b n ↔ afterThreePhases.selector.Holds b ∧
        n = afterThreePhases.pending b + 2 * afterThreePhases.running b +
          afterThreePhases.closing b) ∧
      afterThreePhases.GuardPasses := by
  have h : configure .leastConnections 1 twoEntries = .ok twoCounted := by rfl
  have hbs : configuredBackends "" twoEntries = .ok [port80, port81] := by rfl
  have hnames : ([port80, port81].map Backend.toString).Nodup := by decide
  have hrun : Run (Steps step) (initial twoCounted) threePhases afterThreePhases :=
    .of_foldlM (by rfl)
  have hretried : ∀ e ∈ threePhases, ∀ sys : System, sys.retried e := by
    simp [threePhases, retried, Client.retried]
  exact ⟨by rfl, by rfl, counter_exact h hbs hnames (hrun.under_of_forall hretried)⟩

end

end System

end LoadBalancer
