/-
  Round robin: how even the selections are, and what an exclusion does to their order.

  * `selections_even`: between exclusions, and from any cursor, the selections walk around the
    vector, so every entry has its exact share.
  * `keepsPlace_iff`: after an exclusion the next selection goes to the first survivor behind
    the last selected backend exactly if the number of backends at or before that one that were
    excluded since is a multiple of the number of survivors. The cursor is an index that
    nothing adjusts, and each of these exclusions shifts the vector under it by one.
-/
import LoadBalancer.Lib.Rotation
import LoadBalancer.Selectors.Exclusion
import Mathlib.Data.Nat.ModEq

namespace LoadBalancer

open Transition

section

variable [Platform]

namespace RoundRobinSelector

theorem selectBackend_eq {s : RoundRobinSelector} (hne : s.backends ≠ []) (client : Endpoint) :
    s.selectBackend client = (.access s.backends[(s.counter + 1) % s.backends.length]?,
      { s with counter := (s.counter + 1) % s.backends.length }) := by
  unfold selectBackend
  rw [if_neg (by simpa using hne)]

theorem exists_selectBackend {s : RoundRobinSelector} (hne : s.backends ≠ [])
    (client : Endpoint) : ∃ j b, j = (s.counter + 1) % s.backends.length ∧
      s.backends[j]? = some b ∧ s.selectBackend client = (.returned b, { s with counter := j }) := by
  have hlt : (s.counter + 1) % s.backends.length < s.backends.length :=
    Nat.mod_lt _ (List.length_pos_of_ne_nil hne)
  refine ⟨_, _, rfl, List.getElem?_eq_getElem hlt, ?_⟩
  rw [selectBackend_eq hne, List.getElem?_eq_getElem hlt]
  rfl

/-! ## Selections between exclusions -/

/-- The cursor after each of some selections. -/
def cursors (s : RoundRobinSelector) : List Endpoint → List Nat
  | [] => []
  | client :: clients =>
    (s.selectBackend client).2.counter :: cursors (s.selectBackend client).2 clients

theorem cursors_eq_visits {s : RoundRobinSelector} (hne : s.backends ≠ [])
    (clients : List Endpoint) :
    s.cursors clients = visits s.backends.length (s.counter + 1) clients.length := by
  induction clients generalizing s with
  | nil => rfl
  | cons client clients ih =>
      have htail := @ih { s with counter := (s.counter + 1) % s.backends.length } hne
      unfold cursors
      rw [selectBackend_eq hne, List.length_cons, visits_succ, htail,
        ← visits_mod _ ((s.counter + 1) % _ + 1), Nat.mod_add_mod, visits_mod]

/-- A selection returns the entry under the cursor that it leaves. -/
theorem selectAll_eq_cursors {s : RoundRobinSelector} (hne : s.backends ≠ [])
    (clients : List Endpoint) : Selector.selectAll (.roundRobin s) clients =
      (s.cursors clients).map fun j => .access s.backends[j]? := by
  induction clients generalizing s with
  | nil => rfl
  | cons client clients ih =>
      have hstep : Selector.selectBackend client (.roundRobin s) =
          ((s.selectBackend client).1, .roundRobin (s.selectBackend client).2) := rfl
      unfold Selector.selectAll cursors
      rw [hstep, List.map_cons, selectBackend_eq hne]
      exact congrArg (_ :: ·) (ih hne)

/-- From any state, `m` selections stay inside a vector of `n` entries and return each entry
    `m / n` times, rounded down or up; `n` selections return each entry once. -/
theorem selections_even {s : RoundRobinSelector} (hne : s.backends ≠ [])
    (clients : List Endpoint) :
    Selector.selectAll (.roundRobin s) clients =
      (s.cursors clients).map (fun j => .access s.backends[j]?) ∧
    (∀ j ∈ s.cursors clients, j < s.backends.length) ∧
    (∀ j < s.backends.length,
      (s.cursors clients).count j = clients.length / s.backends.length ∨
      (s.cursors clients).count j = clients.length ⌈/⌉ s.backends.length) ∧
    (clients.length = s.backends.length →
      ∀ j < s.backends.length, (s.cursors clients).count j = 1) := by
  have hpos : 0 < s.backends.length := List.length_pos_of_ne_nil hne
  refine ⟨selectAll_eq_cursors hne clients, ?_⟩
  rw [cursors_eq_visits hne]
  refine ⟨fun j hj => lt_of_mem_visits hpos hj, fun j hj => count_visits hj _ _, ?_⟩
  intro hlen j hj
  rw [hlen, (perm_visits _ _).count_eq]
  exact List.count_eq_one_of_mem List.nodup_range (List.mem_range.mpr hj)

end RoundRobinSelector

end

namespace RoundRobinSelector

section

open Reference Selector

/-- Two backends are left, and the cursor is past the end. -/
def pastEnd : RoundRobinSelector := ⟨4, [port80, port81]⟩

/-- Three selections return port 81 twice and port 80 once. -/
theorem selections_even_pastEnd :
    selectAll (.roundRobin pastEnd) [somebody, somebody, somebody] =
      [.returned port81, .returned port80, .returned port81] ∧
    ∀ j < 2, (pastEnd.cursors [somebody, somebody, somebody]).count j = 3 / 2 ∨
      (pastEnd.cursors [somebody, somebody, somebody]).count j = 3 ⌈/⌉ 2 := by
  have hne : pastEnd.backends ≠ [] := List.cons_ne_nil _ _
  exact ⟨by rfl, (selections_even hne [somebody, somebody, somebody]).2.2.1⟩

end

end RoundRobinSelector

/-! ## Selections after an exclusion -/

section

variable [Platform]

/-- What a run of calls tells about the order: the backend selected last, and the backends
    excluded before that selection and since. -/
structure History where
  selected : Backend
  before : List Backend
  since : List Backend

namespace History

def next (h : History) : Call → History
  | .select _ (.returned b) => ⟨b, h.since ++ h.before, []⟩
  | .select _ _ => h
  | .exclude b _ => { h with since := b :: h.since }

/-- Before the first selection, the first configured backend counts as the last selected. -/
def ofCalls (first : Backend) (calls : List Call) : History :=
  calls.foldl next ⟨first, [], []⟩

/-- The configured backends that were not excluded. -/
def survivors (h : History) (bs : List Backend) : List Backend :=
  bs.filter fun b => b ∉ h.since ++ h.before

/-- The first survivor strictly behind the last selected backend, around the configured list. -/
def successor (h : History) (bs : List Backend) : Option Backend :=
  (bs.rotate (bs.idxOf h.selected + 1)).find? fun b => b ∉ h.since ++ h.before

/-- The backends at or before the last selected one that were excluded since. -/
def passed (h : History) (bs : List Backend) : List Backend :=
  (bs.take (bs.idxOf h.selected + 1)).filter fun b => b ∉ h.before ∧ b ∈ h.since

end History

namespace RoundRobinSelector

/-- After these calls, `SelectBackend` returns the first survivor behind the last selected
    backend. -/
def KeepsPlace (first : Backend) (rest : List Backend) (calls : List Call) (t : Selector)
    (client : Endpoint) : Prop :=
  ∃ b, (History.ofCalls first calls).successor (first :: rest) = some b ∧
    (t.selectBackend client).1 = .returned b

/-- The selector against the history of its calls: the vector holds the survivors, and the
    cursor counts the backends up to the last selected one that were there when it was
    selected. -/
structure Placed (bs : List Backend) (h : History) (s : RoundRobinSelector) : Prop where
  selected : h.selected ∈ bs
  backends : s.backends = h.survivors bs
  counter : s.counter + 1 =
    ((bs.take (bs.idxOf h.selected + 1)).filter fun b => b ∉ h.before).length

theorem placed_configure (first : Backend) (rest : List Backend) :
    Placed (first :: rest) (.ofCalls first []) ⟨0, first :: rest⟩ := by
  refine ⟨List.mem_cons_self, ?_, ?_⟩
  · simp [History.survivors, History.ofCalls]
  · simp [History.ofCalls]

theorem placed_selectBackend {bs : List Backend} {h : History} {s : RoundRobinSelector}
    (hs : Placed bs h s) (hnd : bs.Nodup) (client : Endpoint) :
    Placed bs (h.next (.select client (s.selectBackend client).1)) (s.selectBackend client).2 := by
  by_cases hne : s.backends = []
  · have hundefined : s.selectBackend client = (.undefined, s) := by
      simp [selectBackend, hne]
    rw [hundefined]
    exact hs
  · obtain ⟨j, b, -, hj, hselect⟩ := exists_selectBackend hne client
    rw [hselect]
    rw [hs.backends] at hj
    have hfilter : (bs.filter fun b => b ∉ h.since ++ h.before)[j]? = some b := hj
    refine ⟨List.mem_of_mem_filter (List.mem_of_getElem? hfilter), ?_, ?_⟩
    · show s.backends = bs.filter fun b => b ∉ [] ++ (h.since ++ h.before)
      rw [List.nil_append, hs.backends]
      rfl
    · exact (List.length_filter_take_idxOf hnd hfilter).symm

theorem placed_excludeBackend {bs : List Backend} {h : History} {s : RoundRobinSelector}
    (hs : Placed bs h s) (b : Backend) (result : Outcome Unit) :
    Placed bs (h.next (.exclude b result)) (s.excludeBackend b).2 := by
  refine ⟨hs.selected, ?_, hs.counter⟩
  show (s.backends.filter fun x => x ≠ b) = bs.filter fun x => x ∉ (b :: h.since) ++ h.before
  rw [hs.backends, History.survivors, List.filter_filter]
  apply List.filter_congr
  intro x _
  simp [not_or, Bool.and_comm]

theorem placed_run {first : Backend} {rest : List Backend} (hnd : (first :: rest).Nodup)
    {calls : List Call} {t : Selector}
    (hrun : Run Selector.CallStep (.roundRobin ⟨0, first :: rest⟩) calls t) :
    ∃ s, t = .roundRobin s ∧ Placed (first :: rest) (.ofCalls first calls) s := by
  induction hrun with
  | nil => exact ⟨_, rfl, placed_configure first rest⟩
  | @snoc t u calls call run step ih =>
      obtain ⟨s, rfl, hs⟩ := ih
      have hhistory : History.ofCalls first (calls ++ [call]) =
          (History.ofCalls first calls).next call := by
        simp [History.ofCalls]
      rw [hhistory]
      cases call with
      | select client result =>
          obtain ⟨rfl, rfl⟩ := Prod.mk.inj step
          exact ⟨_, rfl, placed_selectBackend hs hnd client⟩
      | exclude b result =>
          obtain ⟨-, rfl⟩ := Prod.mk.inj step
          exact ⟨_, rfl, placed_excludeBackend hs b result⟩

/-- Of the backends up to the last selected one that were there then, some survive and the
    others were passed over. -/
theorem Placed.counter_eq {bs : List Backend} {h : History} {s : RoundRobinSelector}
    (hs : Placed bs h s) : s.counter + 1 =
      ((bs.take (bs.idxOf h.selected + 1)).filter fun b => b ∉ h.since ++ h.before).length +
        (h.passed bs).length := by
  rw [hs.counter, List.length_eq_length_filter_add fun b => decide (b ∉ h.since),
    List.filter_filter, List.filter_filter, History.passed]
  congr 3
  all_goals
    funext b
    simp [not_or, Bool.and_comm]

/-- The next selection keeps the place exactly if the vector was shifted under the cursor by
    whole rounds. -/
theorem selectBackend_successor_iff {bs : List Backend} {h : History} {s : RoundRobinSelector}
    (hs : Placed bs h s) (hnd : bs.Nodup) (hne : s.backends ≠ []) (client : Endpoint) :
    (∃ b, h.successor bs = some b ∧ (s.selectBackend client).1 = .returned b) ↔
      (h.survivors bs).length ∣ (h.passed bs).length := by
  obtain ⟨j, b, hj, hget, hselect⟩ := exists_selectBackend hne client
  have hidx : bs.idxOf h.selected + 1 ≤ bs.length := List.idxOf_lt_length_of_mem hs.selected
  have hpos : 0 < (h.survivors bs).length :=
    hs.backends ▸ List.length_pos_of_ne_nil hne
  have hnodup : (h.survivors bs).Nodup := hnd.filter _
  have hsuccessor : h.successor bs = (h.survivors bs)[
      ((bs.take (bs.idxOf h.selected + 1)).filter fun b => b ∉ h.since ++ h.before).length %
        (h.survivors bs).length]? := List.find?_rotate hidx
  rw [hs.counter_eq, hs.backends] at hj
  rw [hs.backends] at hget
  rw [hselect, hsuccessor]
  -- both are survivors: the one at the place, and the one shifted away from it
  generalize ((bs.take (bs.idxOf h.selected + 1)).filter _).length = a at hj ⊢
  have hsame : (∃ x, (h.survivors bs)[a % (h.survivors bs).length]? = some x ∧
      Outcome.returned b = .returned x) ↔
        (h.survivors bs)[a % (h.survivors bs).length]? = (h.survivors bs)[j]? := by
    rw [hget]
    simp
  rw [hsame, List.getElem?_inj (Nat.mod_lt _ hpos) hnodup, hj]
  exact Nat.left_modEq_add_iff

/-- In every run of a selector configured with distinct backends, the next selection goes to
    the first survivor behind the last selected backend exactly if the number of backends at
    or before that one that were excluded since is a multiple of the number of survivors. -/
theorem keepsPlace_iff {replicas : Nat} {config : Node} {s t : Selector} {missed : String}
    {first : Backend} {rest : List Backend} {calls : List Call}
    (h : Selector.configure .roundRobin replicas config = .ok s)
    (hbs : configuredBackends missed config = .ok (first :: rest))
    (hnd : (first :: rest).Nodup) (hrun : Run Selector.CallStep s calls t)
    (hne : (History.ofCalls first calls).survivors (first :: rest) ≠ []) (client : Endpoint) :
    KeepsPlace first rest calls t client ↔
      ((History.ofCalls first calls).survivors (first :: rest)).length ∣
        ((History.ofCalls first calls).passed (first :: rest)).length := by
  obtain ⟨s, hs, rfl⟩ := Except.map_eq_ok.mp h
  obtain ⟨bs, hbs', rfl⟩ := configure_eq_ok hs
  obtain rfl := Except.ok.inj (hbs.symm.trans (hbs' missed))
  obtain ⟨s, rfl, hs⟩ := placed_run hnd hrun
  have hheld : s.backends ≠ [] := hs.backends ▸ hne
  exact selectBackend_successor_iff hs hnd hheld client

end RoundRobinSelector

end

namespace RoundRobinSelector

section

open Reference Selector

def threeHeld : Selector := .roundRobin ⟨0, [port80, port81, port82]⟩

/-- Port 81 is selected and excluded, the cursor now standing on port 82. -/
def middleExcluded : Selector := .roundRobin ⟨1, [port80, port82]⟩

def middleCalls : List Call := [.select somebody (.returned port81), .exclude port81 (.returned ())]

theorem run_middleExcluded : Run CallStep threeHeld middleCalls middleExcluded := by
  have hselect : CallStep threeHeld (.select somebody (.returned port81))
      (.roundRobin ⟨1, [port80, port81, port82]⟩) := by rfl
  have hexclude : CallStep (.roundRobin ⟨1, [port80, port81, port82]⟩)
      (.exclude port81 (.returned ())) middleExcluded := by rfl
  exact .cons hselect (.one hexclude)

/-- The excluded backend is passed over, and two survive. -/
theorem keepsPlace_middleExcluded :
    KeepsPlace port80 [port81, port82] middleCalls middleExcluded somebody ↔ 2 ∣ 1 := by
  have h : Selector.configure .roundRobin 1 threeEntries = .ok threeHeld := by rfl
  have hbs : configuredBackends "" threeEntries = .ok [port80, port81, port82] := by rfl
  exact keepsPlace_iff h hbs (by decide) run_middleExcluded (by decide) somebody

/-- The retry goes back to port 80: port 82, which follows the excluded one, is skipped. -/
theorem not_keepsPlace_middleExcluded :
    Selector.configure .roundRobin 1 threeEntries = .ok threeHeld ∧
      Run CallStep threeHeld middleCalls middleExcluded ∧
      (History.ofCalls port80 middleCalls).successor [port80, port81, port82] = some port82 ∧
      (middleExcluded.selectBackend somebody).1 = .returned port80 ∧
      ¬ KeepsPlace port80 [port81, port82] middleCalls middleExcluded somebody := by
  refine ⟨by rfl, run_middleExcluded, by decide, by rfl, ?_⟩
  rintro ⟨b, hsuccessor, hselect⟩
  have hnext : some port82 = some b := hsuccessor
  have hreturned : Outcome.returned port80 = .returned b := hselect
  have heq : port80 = port82 :=
    (Outcome.returned.inj hreturned).trans (Option.some.inj hnext).symm
  exact absurd heq (by decide)

end

end RoundRobinSelector

end LoadBalancer
