/-
  Weighted round robin behind the connector: how many attempts each backend gets.

  `attempts_weighted`: as long as no backend has two refusals that the connector retries, a
  stretch of a run without one gives each backend that is left its weight's share of the
  attempts: at least its weight for each full round over the total weight, and at most its
  weight for each round that is begun. The stretch may start inside a round, and what the
  clients do between two selections plays no part.

  A second retried refusal of a backend finds it gone and moves the cursor all the same, without
  clearing the progress under it; the cycle is then no longer exact.
-/
import LoadBalancer.Connector.Refusals
import LoadBalancer.Selectors.WeightedCycle

namespace LoadBalancer

open Transition

section

variable [Platform]

namespace WeightedRoundRobinSelector

/-- The entries whose backends are not among those that refused. -/
def unrefused (es : List WeightWrapper) (refused : List Backend) : List WeightWrapper :=
  es.filter fun e => !refused.contains e.backend

@[simp] theorem unrefused_nil (es : List WeightWrapper) : unrefused es [] = es := by
  simp [unrefused]

theorem unrefused_append (es : List WeightWrapper) (refused more : List Backend) :
    unrefused es (refused ++ more) = unrefused (unrefused es refused) more := by
  unfold unrefused
  rw [List.filter_filter]
  refine List.filter_congr fun e _ => ?_
  simp [Bool.and_comm]

theorem unrefused_one (es : List WeightWrapper) (b : Backend) :
    unrefused es [b] = es.filter fun e => e.backend ≠ b := by
  simp [unrefused]

/-- The selector stands at a place of the cycle of these entries. -/
def Stands (es : List WeightWrapper) (j : Nat) (s : Selector) : Prop :=
  ∃ c k, s = .weightedRoundRobin (midCycle es c k) ∧ OnCycle es c k ∧
    es.slot WeightWrapper.weight c k = j

section

variable {es : List WeightWrapper} (hfresh : Fresh es) (hpos : ∀ e ∈ es, 0 < e.weight)

include hfresh hpos

/-- A use that excludes nothing selects what stands at the place and goes on to the next, or
    leaves the selector alone. -/
theorem stands_useStep {j : Nat} {s t : Selector} {use : Use} (hs : Stands es j s)
    (h : Selector.UseStep s use t) (hexcluded : use.excluded = none) :
    (use.selected = none ∧ Stands es j t) ∨
      ∃ b, use.selected = some b ∧ (cycle es)[j]? = some b ∧
        Stands es ((j + 1) % totalWeight es) t := by
  obtain ⟨c, k, rfl, hon, rfl⟩ := hs
  cases use with
  | call call =>
      cases call with
      | exclude b result => cases hexcluded
      | select client result =>
          obtain ⟨c', k', hon', hselect, hslot⟩ := selectBackend_slot hfresh hpos hon client
          obtain ⟨e, he, hk⟩ := hon
          have hentry := getElem?_cycle he hk
          rw [hentry] at hselect
          have hstep := (selectBackend_lift hselect).symm.trans h
          obtain ⟨rfl, rfl⟩ := Prod.mk.inj hstep
          exact Or.inr ⟨e.backend, rfl, hentry, c', k', rfl, hon', hslot⟩
  | _ =>
      obtain rfl : _ = t := h
      exact Or.inl ⟨rfl, c, k, rfl, hon, rfl⟩

/-- Uses that exclude nothing select around the cycle. -/
theorem selected_visits {j : Nat} {s t : Selector} {uses : List Use} (hs : Stands es j s)
    (hrun : Run Selector.UseStep s uses t) (hexcluded : uses.filterMap Use.excluded = []) :
    ∃ m j', Stands es j' t ∧ j' % totalWeight es = (j + m) % totalWeight es ∧
      (uses.filterMap Use.selected).map some =
        (visits (totalWeight es) j m).map fun i => (cycle es)[i]? := by
  induction hrun with
  | nil => exact ⟨0, j, hs, rfl, rfl⟩
  | @snoc t u uses use hrun hstep ih =>
      rw [List.filterMap_append, List.append_eq_nil_iff] at hexcluded
      obtain ⟨hbefore, hlast⟩ := hexcluded
      obtain ⟨m, j', ht, hj, hselected⟩ := ih hbefore
      have hnone : use.excluded = none := by
        cases hused : use.excluded with
        | none => rfl
        | some b => simp [hused] at hlast
      rcases stands_useStep hfresh hpos ht hstep hnone with ⟨hnothing, hu⟩ | ⟨b, hb, hentry, hu⟩
      · refine ⟨m, j', hu, hj, ?_⟩
        rw [List.filterMap_append, ← hselected]
        simp [hnothing]
      · refine ⟨m + 1, _, hu, ?_, ?_⟩
        · rw [Nat.mod_mod, ← Nat.add_assoc, ← Nat.mod_add_mod, hj, Nat.mod_add_mod]
        · have hlt : j' < totalWeight es := by
            rw [← length_cycle]
            exact (List.getElem?_eq_some_iff.mp hentry).1
          rw [Nat.mod_eq_of_lt hlt] at hj
          rw [hj] at hentry
          have hvisit : (visits (totalWeight es) (j + m) 1).map (fun i => (cycle es)[i]?) =
              [some b] := by
            rw [visits_succ, visits_zero, List.map_singleton, hentry]
          rw [visits_add, List.map_append, hvisit, ← hselected]
          simp [hb]

end

/-- At the start of the cycle, or without entries. -/
theorem stands_start {es : List WeightWrapper} (hpos : ∀ e ∈ es, 0 < e.weight) (hne : es ≠ []) :
    Stands es 0 (.weightedRoundRobin (midCycle es 0 0)) := by
  cases es with
  | nil => exact absurd rfl hne
  | cons e rest => exact ⟨0, 0, rfl, ⟨e, rfl, hpos e List.mem_cons_self⟩, rfl⟩

/-- The exclusion of a backend of an entry starts the cycle of the others. -/
theorem excludeBackend_of_stands {es : List WeightWrapper} (hfresh : Fresh es)
    (hnd : (es.map WeightWrapper.backend).Nodup) {j : Nat} {s : Selector} (hs : Stands es j s)
    {b : Backend} (hb : b ∈ es.map WeightWrapper.backend) :
    (s.excludeBackend b).2 =
      .weightedRoundRobin (midCycle (es.filter fun e => e.backend ≠ b) 0 0) := by
  obtain ⟨c, k, rfl, ⟨e, he, -⟩, -⟩ := hs
  have hc : c < es.length := (List.getElem?_eq_some_iff.mp he).1
  have hfresh' : Fresh (es.filter fun e => e.backend ≠ b) := fun e he =>
    hfresh e (List.mem_of_mem_filter he)
  rw [midCycle_zero hfresh', ← excludeBackend_midCycle hfresh hnd hc k hb]
  rfl

end WeightedRoundRobinSelector

namespace System

open WeightedRoundRobinSelector

/-- A step goes on around the cycle of the backends without a retried refusal, or starts the cycle
    of those that are left after a first one. -/
theorem stands_step {entries : List WeightWrapper} (hfresh : Fresh entries)
    (hpos : ∀ e ∈ entries, 0 < e.weight) (hnd : (entries.map WeightWrapper.backend).Nodup)
    {refused : List Backend} {j : Nat} {u v : System} {e : Event}
    (hu : Stands (unrefused entries refused) j u.selector) (hstep : u.step e = some v)
    (honce : ∀ b, u.retriedRefusal e = some b →
      b ∈ entries.map WeightWrapper.backend ∧ b ∉ refused)
    (hleft : unrefused entries (refused ++ (u.retriedRefusal e).toList) ≠ []) :
    ∃ j', Stands (unrefused entries (refused ++ (u.retriedRefusal e).toList)) j' v.selector := by
  have hfresh' : Fresh (unrefused entries refused) := fun x hx =>
    hfresh x (List.mem_of_mem_filter hx)
  have hexcluded := excluded_use hstep
  cases hrefusal : u.retriedRefusal e with
  | none =>
      rw [Option.toList_none, List.append_nil]
      rcases use_cases hstep with ⟨-, hsame⟩ | ⟨use, huse, huseStep⟩
      · rw [hsame]
        exact ⟨j, hu⟩
      · rw [huse, hrefusal, Option.bind_some] at hexcluded
        have hpos' : ∀ x ∈ unrefused entries refused, 0 < x.weight := fun x hx =>
          hpos x (List.mem_of_mem_filter hx)
        rcases stands_useStep hfresh' hpos' hu huseStep hexcluded with ⟨-, hv⟩ | ⟨b, -, -, hv⟩
        · exact ⟨j, hv⟩
        · exact ⟨_, hv⟩
  | some b =>
      obtain ⟨hb, hnew⟩ := honce b hrefusal
      rw [hrefusal, Option.toList_some, unrefused_append, unrefused_one] at hleft
      rw [Option.toList_some, unrefused_append, unrefused_one]
      rcases use_cases hstep with ⟨hnone, -⟩ | ⟨use, huse, huseStep⟩
      · rw [hnone, hrefusal] at hexcluded
        cases hexcluded
      · rw [huse, hrefusal, Option.bind_some] at hexcluded
        have hheld : b ∈ (unrefused entries refused).map WeightWrapper.backend := by
          obtain ⟨x, hx, rfl⟩ := List.mem_map.mp hb
          exact List.mem_map_of_mem (List.mem_filter.mpr ⟨hx, by simpa using hnew⟩)
        rw [Selector.eq_of_excluded huseStep hexcluded, excludeBackend_of_stands hfresh'
          (hnd.sublist (List.filter_sublist.map _)) hu hheld]
        refine ⟨0, stands_start (fun x hx => ?_) hleft⟩
        exact hpos x (List.mem_of_mem_filter (List.mem_of_mem_filter hx))

variable [LawfulPairingHeap]

/-- As long as no backend has two retried refusals, the selector stands on the cycle of those that
    have none, if there are any. -/
theorem stands_run {w : WeightedRoundRobinSelector}
    (hw : Selector.Inv (.weightedRoundRobin w)) (hcounter : w.counter = 0)
    (hfresh : Fresh w.backends) (hpos : ∀ e ∈ w.backends, 0 < e.weight) (hnd : w.held.Nodup)
    {es : List Event} {sys : System}
    (hrun : Run (Steps step) (initial (.weightedRoundRobin w)) es sys)
    (honce : ((initial (.weightedRoundRobin w)).retriedRefusals es).Nodup)
    (hleft : unrefused w.backends ((initial (.weightedRoundRobin w)).retriedRefusals es) ≠ []) :
    ∃ j, Stands (unrefused w.backends ((initial (.weightedRoundRobin w)).retriedRefusals es)) j
      sys.selector := by
  induction hrun with
  | nil =>
      have hnil : unrefused w.backends ((initial (.weightedRoundRobin w)).retriedRefusals []) =
          w.backends := unrefused_nil _
      have hw : w = midCycle w.backends 0 0 := by rw [midCycle_zero hfresh, ← hcounter]
      rw [hnil] at hleft ⊢
      have hstart := stands_start hpos hleft
      rw [← hw] at hstart
      exact ⟨0, hstart⟩
  | @snoc u v es e hrun hstep ih =>
      have hrefused := holds_of_mem_retriedRefusals hw (.snoc hrun hstep)
      rw [retriedRefusals_snoc hrun] at honce hleft hrefused ⊢
      obtain ⟨hbefore, -, hdisjoint⟩ := List.nodup_append.mp honce
      have hleft' :
          unrefused w.backends ((initial (.weightedRoundRobin w)).retriedRefusals es) ≠ [] := by
        intro hnil
        rw [unrefused_append, hnil] at hleft
        exact hleft rfl
      obtain ⟨j, hu⟩ := ih hbefore hleft'
      refine stands_step hfresh hpos hnd hu hstep (fun b hb => ?_) hleft
      have hmem : b ∈ (u.retriedRefusal e).toList := by simp [hb]
      exact ⟨hrefused b (List.mem_append_right _ hmem), fun h => hdisjoint b h b hmem rfl⟩

/-- As long as no backend has two retried refusals, a stretch of a run without one gives each
    backend that has none its weight's share of the attempts: at least its weight for each full
    round over the total weight of those backends, and at most its weight for each round begun. -/
theorem attempts_weighted [LawfulSort] {replicas : Nat} {config : Node}
    {w : WeightedRoundRobinSelector} {es fs : List Event} {sys t : System}
    (h : Selector.configure .weightedRoundRobin replicas config = .ok (.weightedRoundRobin w))
    (hpos : ∀ e ∈ w.backends, 0 < e.weight) (hnd : w.held.Nodup)
    (hbefore : Run (Steps step) (initial (.weightedRoundRobin w)) es sys)
    (honce : ((initial (.weightedRoundRobin w)).retriedRefusals es).Nodup)
    (hrun : Run (Steps step) sys fs t) (hnone : sys.retriedRefusals fs = []) {e : WeightWrapper}
    (he : e ∈ unrefused w.backends ((initial (.weightedRoundRobin w)).retriedRefusals es)) :
    ∃ k, t.attempts.count e.backend = sys.attempts.count e.backend + k ∧
      e.weight * ((t.attempts.length - sys.attempts.length) / totalWeight
        (unrefused w.backends ((initial (.weightedRoundRobin w)).retriedRefusals es))) ≤ k ∧
      k ≤ e.weight * ((t.attempts.length - sys.attempts.length) ⌈/⌉ totalWeight
        (unrefused w.backends ((initial (.weightedRoundRobin w)).retriedRefusals es))) := by
  obtain ⟨-, hinv, -⟩ := Selector.configure_spec h
  obtain ⟨w', hw', hww⟩ := Except.map_eq_ok.mp h
  obtain rfl : w' = w := Selector.weightedRoundRobin.inj hww
  have hfresh := fresh_configure hw'
  obtain ⟨hcounter, -⟩ := configure_eq_ok hw'
  obtain ⟨j, hstands⟩ := stands_run hinv hcounter hfresh hpos hnd hbefore honce
    (List.ne_nil_of_mem he)
  generalize hleft :
    unrefused w'.backends ((initial (.weightedRoundRobin w')).retriedRefusals es) = left
    at he hstands ⊢
  have hfresh' : Fresh left := fun x hx => hfresh x (List.mem_of_mem_filter (hleft ▸ hx))
  have hpos' : ∀ x ∈ left, 0 < x.weight := fun x hx => hpos x (List.mem_of_mem_filter (hleft ▸ hx))
  have hnd' : (left.map WeightWrapper.backend).Nodup := by
    rw [← hleft]
    exact hnd.sublist (List.filter_sublist.map _)
  obtain ⟨m, -, -, -, hselected⟩ := selected_visits hfresh' hpos' hstands (run_uses hrun)
    ((retriedRefusals_uses hrun).trans hnone)
  have hperm := attempts_run hrun
  have hlength : ((sys.uses fs).filterMap Use.selected).length = m := by
    have hmap := congrArg List.length hselected
    rwa [List.length_map, List.length_map, length_visits] at hmap
  have htotal : t.attempts.length - sys.attempts.length = m := by
    rw [hperm.length_eq, List.length_append, hlength, Nat.add_sub_cancel_left]
  have hshare := count_map_visits (cycle left) e.backend j m
  rw [length_cycle, ← hselected, List.count_map_of_injective _ _ (Option.some_injective _)] at hshare
  have hweight : (cycle left).count e.backend = e.weight := List.count_map_weighted hnd' he
  rw [hweight] at hshare
  refine ⟨_, by rw [hperm.count_eq, List.count_append], ?_⟩
  rw [htotal]
  exact hshare

end System

end

namespace System

section

open Reference Selector WeightedRoundRobinSelector

/-- The heaviest backend refuses its first client. -/
def heaviestRefused : List Event :=
  [.accepts somebody, .client 0 .selects, .client 0 (.connects .connectionRefused)]

/-- Four attempts on the other two. -/
def fourAttempts : List Event :=
  [.client 0 .selects, .accepts somebody, .client 1 .selects, .client 0 (.connects .success),
    .accepts somebody, .accepts somebody, .client 3 .selects, .client 2 .selects]

def afterHeaviestRefused : System :=
  (heaviestRefused.foldlM step (initial (.weightedRoundRobin descending))).getD
    (initial (.weightedRoundRobin descending))

def afterFourAttempts : System :=
  (fourAttempts.foldlM step afterHeaviestRefused).getD afterHeaviestRefused

theorem attempts_weighted_fourAttempts :
    (initial (.weightedRoundRobin descending)).retriedRefusals heaviestRefused = [port82] ∧
      ∃ k, afterFourAttempts.attempts.count port81 = 0 + k ∧ 2 * (4 / 3) ≤ k ∧
        k ≤ 2 * (4 ⌈/⌉ 3) := by
  have h : configure .weightedRoundRobin 1 threeWeights = .ok (.weightedRoundRobin descending) := by
    rfl
  have hbefore : Run (Steps step) (initial (.weightedRoundRobin descending)) heaviestRefused
      afterHeaviestRefused := .of_foldlM (by rfl)
  have hrun : Run (Steps step) afterHeaviestRefused fourAttempts afterFourAttempts :=
    .of_foldlM (by rfl)
  have hrefused :
      (initial (.weightedRoundRobin descending)).retriedRefusals heaviestRefused = [port82] := by
    rfl
  have hleft : unrefused descending.backends
      ((initial (.weightedRoundRobin descending)).retriedRefusals heaviestRefused) =
        [⟨port81, 2, 0⟩, ⟨port80, 1, 0⟩] := by
    rw [hrefused]
    rfl
  have hshare := attempts_weighted h (by simp [descending]) (by decide) hbefore
    (by rw [hrefused]; decide) hrun (by rfl) (hleft ▸ List.mem_cons_self)
  rw [hleft] at hshare
  exact ⟨hrefused, hshare⟩

end

end System

end LoadBalancer
