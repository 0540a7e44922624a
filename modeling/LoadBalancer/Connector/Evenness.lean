/-
  Round robin behind the connector: how evenly clients are spread.

  `attempts_even`: whatever the interleaving of clients, in any stretch of a run in which the
  connector retries no refusal the attempts are spread over the backends that are held as evenly
  as their number allows. Sessions, failures that are not retried and handlers of other clients
  between two selections play no part.
-/
import LoadBalancer.Connector.Uses
import LoadBalancer.Selectors.RoundRobinOrder

namespace LoadBalancer

open Transition

section

variable [Platform]

namespace RoundRobinSelector

/-- A use that excludes nothing selects the next entry, or leaves the cursor alone. -/
theorem useStep_cases {r : RoundRobinSelector} {use : Use} {t : Selector}
    (h : Selector.UseStep (.roundRobin r) use t) (hexcluded : use.excluded = none) :
    (use.selected = none ∧ t = .roundRobin r) ∨
      ∃ b, use.selected = some b ∧ r.backends[(r.counter + 1) % r.backends.length]? = some b ∧
        t = .roundRobin { r with counter := (r.counter + 1) % r.backends.length } := by
  cases use with
  | call call =>
      cases call with
      | exclude b result => cases hexcluded
      | select client result =>
          by_cases hne : r.backends = []
          · have hstep : Selector.selectBackend client (.roundRobin r) =
                (.undefined, .roundRobin r) := by
              simp [Selector.selectBackend, selectBackend, hne]
            cases hstep.symm.trans h
            exact Or.inl ⟨rfl, rfl⟩
          · obtain ⟨j, b, rfl, hj, hselect⟩ := exists_selectBackend hne client
            have hstep : Selector.selectBackend client (.roundRobin r) = (.returned b,
                .roundRobin { r with counter := (r.counter + 1) % r.backends.length }) := by
              show (r.selectBackend client).map id Selector.roundRobin = _
              rw [hselect]
              rfl
            cases hstep.symm.trans h
            exact Or.inr ⟨b, rfl, hj, rfl⟩
  | _ =>
      obtain rfl : _ = t := h
      exact Or.inl ⟨rfl, rfl⟩

/-- Uses that exclude nothing select along the vector. -/
theorem selected_visits {r : RoundRobinSelector} {uses : List Use} {t : Selector}
    (hrun : Run Selector.UseStep (.roundRobin r) uses t)
    (hexcluded : uses.filterMap Use.excluded = []) :
    ∃ m j, t = .roundRobin { r with counter := j } ∧
      (j + 1) % r.backends.length = (r.counter + 1 + m) % r.backends.length ∧
      (uses.filterMap Use.selected).map some =
        (visits r.backends.length (r.counter + 1) m).map fun i => r.backends[i]? := by
  induction hrun with
  | nil => exact ⟨0, r.counter, rfl, rfl, rfl⟩
  | @snoc t u uses use hrun hstep ih =>
      rw [List.filterMap_append, List.append_eq_nil_iff] at hexcluded
      obtain ⟨hbefore, hlast⟩ := hexcluded
      obtain ⟨m, j, rfl, hj, hselected⟩ := ih hbefore
      have hnone : use.excluded = none := by
        cases hused : use.excluded with
        | none => rfl
        | some b => simp [hused] at hlast
      rcases useStep_cases hstep hnone with ⟨hnothing, rfl⟩ | ⟨b, hb, hentry, rfl⟩
      · refine ⟨m, j, rfl, hj, ?_⟩
        rw [List.filterMap_append, ← hselected]
        simp [hnothing]
      · refine ⟨m + 1, _, rfl, ?_, ?_⟩
        · dsimp only at hj ⊢
          rw [hj, Nat.mod_add_mod]
          rfl
        · dsimp only at hj hentry
          rw [hj] at hentry
          have hvisit : (visits r.backends.length (r.counter + 1 + m) 1).map
              (fun i => r.backends[i]?) = [some b] := by
            rw [visits_succ, visits_zero, List.map_singleton, hentry]
          rw [visits_add, List.map_append, hvisit, ← hselected]
          simp [hb]

/-- Uses keep the entries of a round robin distinct. -/
theorem nodup_run {r : RoundRobinSelector} {uses : List Use} {t : Selector}
    (hrun : Run Selector.UseStep (.roundRobin r) uses t) (hr : r.backends.Nodup) :
    ∃ r', t = .roundRobin r' ∧ r'.backends.Nodup := by
  induction hrun with
  | nil => exact ⟨r, rfl, hr⟩
  | @snoc t u uses use hrun hstep ih =>
      obtain ⟨r', rfl, hr'⟩ := ih
      cases hused : use.excluded with
      | none =>
          rcases useStep_cases hstep hused with ⟨-, rfl⟩ | ⟨b, -, -, rfl⟩
          · exact ⟨r', rfl, hr'⟩
          · exact ⟨_, rfl, hr'⟩
      | some b =>
          cases use with
          | call call =>
              cases call with
              | select client result => simp [Use.excluded] at hused
              | exclude b' result =>
                  obtain rfl : _ = u := congrArg Prod.snd hstep
                  exact ⟨(r'.excludeBackend b').2, rfl, hr'.filter _⟩
          | _ => cases hused

end RoundRobinSelector

/-- Reading a list without repetition at some places meets an element as often as its place. -/
theorem count_map_getElem? {l : List Backend} (hnd : l.Nodup) {j : Nat} {b : Backend}
    (hj : l[j]? = some b) (is : List Nat) : (is.map fun i => l[i]?).count (some b) = is.count j := by
  rw [List.count_eq_countP, List.count_eq_countP, List.countP_map]
  refine List.countP_congr fun i _ => ?_
  obtain ⟨hlt, -⟩ := List.getElem?_eq_some_iff.mp hj
  have hiff : l[i]? = some b ↔ i = j := by
    rw [← hj, eq_comm, List.getElem?_inj hlt hnd, eq_comm]
  simpa using hiff

namespace System

/-- The share of one in `n` of `m` attempts, rounded down or up. -/
def EvenShare (m n k : Nat) : Prop := k = m / n ∨ k = m ⌈/⌉ n

/-- In any stretch of a run of the connector with a round robin over distinct backends in which no
    refusal is retried, each held backend gets its even share of the attempts. -/
theorem attempts_even [LawfulPairingHeap] [LawfulSort] {replicas : Nat} {config : Node}
    {s : Selector} {missed : String} {bs : List Backend} {es fs : List Event} {sys t : System}
    (h : Selector.configure .roundRobin replicas config = .ok s)
    (hbs : configuredBackends missed config = .ok bs) (hnd : bs.Nodup)
    (hbefore : Run (Steps step) (initial s) es sys) (hrun : Run (Steps step) sys fs t)
    (hnone : sys.retriedRefusals fs = []) :
    ∃ held : List Backend, held.Nodup ∧ (∀ b, sys.selector.Holds b ↔ b ∈ held) ∧
      ∀ b ∈ held, ∃ k, t.attempts.count b = sys.attempts.count b + k ∧
        EvenShare (t.attempts.length - sys.attempts.length) held.length k := by
  obtain ⟨r₀, hr₀, rfl⟩ := Except.map_eq_ok.mp h
  obtain ⟨bs', hbs', rfl⟩ := RoundRobinSelector.configure_eq_ok hr₀
  obtain rfl : bs = bs' := Except.ok.inj (hbs.symm.trans (hbs' missed))
  obtain ⟨r, hr, hheld⟩ := RoundRobinSelector.nodup_run (run_uses hbefore) hnd
  have huses := run_uses hrun
  rw [hr] at huses
  obtain ⟨m, j, -, -, hselected⟩ :=
    RoundRobinSelector.selected_visits huses ((retriedRefusals_uses hrun).trans hnone)
  have hperm := attempts_run hrun
  have hlength : ((sys.uses fs).filterMap Use.selected).length = m := by
    have hmap := congrArg List.length hselected
    rwa [List.length_map, List.length_map, length_visits] at hmap
  refine ⟨r.backends, hheld, fun b => ?_, fun b hb => ?_⟩
  · rw [hr]
    rfl
  · obtain ⟨i, hi⟩ := List.mem_iff_getElem?.mp hb
    have hcount : ((sys.uses fs).filterMap Use.selected).count b =
        (visits r.backends.length (r.counter + 1) m).count i := by
      rw [← count_map_getElem? hheld hi, ← hselected,
        List.count_map_of_injective _ _ (Option.some_injective _)]
    refine ⟨_, by rw [hperm.count_eq, List.count_append, hcount], ?_⟩
    have htotal : t.attempts.length - sys.attempts.length = m := by
      rw [hperm.length_eq, List.length_append, hlength, Nat.add_sub_cancel_left]
    rw [htotal]
    exact count_visits (List.getElem?_eq_some_iff.mp hi).1 _ _

end System

end

namespace System

section

open Reference Selector

def twoRobin : Selector := .roundRobin ⟨0, [port80, port81]⟩

/-- Three clients over two backends; the first is connected before the third is accepted. -/
def threeClients : List Event :=
  [.accepts somebody, .client 0 .selects, .accepts somebody, .client 1 .selects,
    .client 0 (.connects .success), .accepts somebody, .client 2 .selects,
    .client 1 (.connects (.other 113))]

def afterThreeClients : System :=
  (threeClients.foldlM step (initial twoRobin)).getD (initial twoRobin)

theorem attempts_even_threeClients :
    afterThreeClients.attempts = [port81, port80, port81] ∧
      ∃ held : List Backend, held.Nodup ∧ (∀ b, twoRobin.Holds b ↔ b ∈ held) ∧
        ∀ b ∈ held, ∃ k, afterThreeClients.attempts.count b = 0 + k ∧
          EvenShare 3 held.length k := by
  have h : configure .roundRobin 1 twoEntries = .ok twoRobin := by rfl
  have hbs : configuredBackends "" twoEntries = .ok [port80, port81] := by rfl
  have hrun : Run (Steps step) (initial twoRobin) threeClients afterThreeClients :=
    .of_foldlM (by rfl)
  exact ⟨by rfl, attempts_even h hbs (by decide) (.nil _) hrun (by rfl)⟩

end

end System

end LoadBalancer
