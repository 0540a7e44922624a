/-
  Weighted round robin serves exact cycles.

  The cycle of some entries repeats each backend as often as its weight says. The position in
  it is spread over the cursor and the progress of the entries; `midCycle` is the selector at
  one such position, in which only the entry under the cursor has made progress. A selection
  goes on to the next position, and the exclusion of a held backend starts the cycle of the
  others (`steady_run`). So the selections after an exclusion, or after the configuration,
  read the cycle from its start (`selections_cycle`).
-/
import LoadBalancer.Lib.ListSet
import LoadBalancer.Lib.Rotation
import LoadBalancer.Selectors.Exclusion

namespace LoadBalancer

open Transition

section

variable [Platform]

namespace WeightedRoundRobinSelector

/-- Each backend as often as its weight says, in the order of the entries. -/
def cycle (es : List WeightWrapper) : List Backend :=
  (es.weighted WeightWrapper.weight).map WeightWrapper.backend

def totalWeight (es : List WeightWrapper) : Nat := (es.map WeightWrapper.weight).sum

@[simp] theorem length_cycle (es : List WeightWrapper) :
    (cycle es).length = totalWeight es := by
  simp [cycle, totalWeight]

/-- No entry has made progress. -/
def Fresh (es : List WeightWrapper) : Prop := ∀ e ∈ es, e.current = 0

/-- The selector over fresh entries, after `k` selections of the entry under its cursor. -/
def midCycle (es : List WeightWrapper) (c k : Nat) : WeightedRoundRobinSelector :=
  ⟨es.modify c fun e => { e with current := k }, c⟩

/-- The position is inside the cycle: the cursor is on an entry that has selections left. -/
def OnCycle (es : List WeightWrapper) (c k : Nat) : Prop :=
  ∃ e, es[c]? = some e ∧ k < e.weight

theorem getElem?_midCycle {es : List WeightWrapper} {c : Nat} {e : WeightWrapper}
    (he : es[c]? = some e) (k : Nat) :
    (midCycle es c k).backends[c]? = some { e with current := k } := by
  show (es.modify c _)[c]? = _
  rw [List.getElem?_modify, he]
  simp

/-- Writing the progress of the entry under the cursor moves along the copies of the entry. -/
theorem set_midCycle {es : List WeightWrapper} {c : Nat} {e : WeightWrapper}
    (he : es[c]? = some e) (k n : Nat) :
    (midCycle es c k).backends.set c { e with current := n } = (midCycle es c n).backends := by
  obtain ⟨hc, -⟩ := List.getElem?_eq_some_iff.mp he
  show (es.modify c _).set c _ = es.modify c _
  apply List.ext_getElem?
  intro i
  rw [List.getElem?_set, List.getElem?_modify, List.getElem?_modify, List.length_modify, if_pos hc]
  by_cases hi : c = i
  · subst hi
    simp [he]
  · simp [hi]

theorem midCycle_zero {es : List WeightWrapper} (hfresh : Fresh es) (c : Nat) :
    midCycle es c 0 = ⟨es, c⟩ := by
  unfold midCycle
  congr 1
  apply List.ext_getElem?
  intro i
  rw [List.getElem?_modify]
  cases he : es[i]? with
  | none => rfl
  | some e =>
      have hzero : e.current = 0 := hfresh e (List.mem_of_getElem? he)
      by_cases hi : c = i
      · simp [hi, ← hzero]
      · simp [hi]

@[simp] theorem held_midCycle (es : List WeightWrapper) (c k : Nat) :
    (midCycle es c k).held = es.map WeightWrapper.backend := by
  show (es.modify c _).map _ = _
  apply List.ext_getElem?
  intro i
  rw [List.getElem?_map, List.getElem?_map, List.getElem?_modify]
  cases es[i]? with
  | none => rfl
  | some e =>
      by_cases hi : c = i
      · simp [hi]
      · simp [hi]

/-! ## One selection -/

theorem selectBackend_midCycle {es : List WeightWrapper} (hfresh : Fresh es) {c : Nat}
    {e : WeightWrapper} (he : es[c]? = some e) (k : Nat) (client : Endpoint) :
    (midCycle es c k).selectBackend client = (.returned e.backend,
      if k + 1 < e.weight then midCycle es c (k + 1)
      else midCycle es ((c + 1) % es.length) 0) := by
  have hentry : (midCycle es c k).backends[(midCycle es c k).counter]? =
      some { e with current := k } := getElem?_midCycle he k
  have hlength : (midCycle es c k).backends.length = es.length := by
    simp [midCycle]
  unfold selectBackend advanceCounter
  simp only [hentry]
  refine congrArg (Outcome.returned e.backend, ·) ?_
  split
  · show WeightedRoundRobinSelector.mk ((midCycle es c k).backends.set c _) c = _
    rw [set_midCycle he]
    rfl
  · show WeightedRoundRobinSelector.mk ((midCycle es c k).backends.set c _) ((c + 1) % _) = _
    rw [set_midCycle he, hlength, midCycle_zero hfresh, midCycle_zero hfresh]

theorem getElem?_cycle {es : List WeightWrapper} {c k : Nat} {e : WeightWrapper}
    (he : es[c]? = some e) (hk : k < e.weight) :
    (cycle es)[es.slot WeightWrapper.weight c k]? = some e.backend := by
  rw [cycle, List.getElem?_map, List.getElem?_weighted he hk]
  rfl

theorem OnCycle.slot_lt {es : List WeightWrapper} {c k : Nat} (hon : OnCycle es c k) :
    es.slot WeightWrapper.weight c k < totalWeight es := by
  obtain ⟨e, he, hk⟩ := hon
  rw [← length_cycle]
  exact (List.getElem?_eq_some_iff.mp (getElem?_cycle he hk)).1

/-- A selection returns what the cycle holds at the position and goes on to the next one. -/
theorem selectBackend_slot {es : List WeightWrapper} (hfresh : Fresh es)
    (hpos : ∀ e ∈ es, 0 < e.weight) {c k : Nat} (hon : OnCycle es c k) (client : Endpoint) :
    ∃ c' k', OnCycle es c' k' ∧
      (midCycle es c k).selectBackend client =
        (.access (cycle es)[es.slot WeightWrapper.weight c k]?, midCycle es c' k') ∧
      es.slot WeightWrapper.weight c' k' =
        (es.slot WeightWrapper.weight c k + 1) % totalWeight es := by
  obtain ⟨e, he, hk⟩ := hon
  rw [selectBackend_midCycle hfresh he, getElem?_cycle he hk]
  by_cases hmore : k + 1 < e.weight
  · have hon' : OnCycle es c (k + 1) := ⟨e, he, hmore⟩
    refine ⟨c, k + 1, hon', by rw [if_pos hmore]; rfl, ?_⟩
    exact (Nat.mod_eq_of_lt hon'.slot_lt).symm
  · have hlast : e.weight = k + 1 := by omega
    have hlt : (c + 1) % es.length < es.length :=
      Nat.mod_lt _ (List.length_pos_of_mem (List.mem_of_getElem? he))
    refine ⟨(c + 1) % es.length, 0, ⟨es[(c + 1) % es.length], List.getElem?_eq_getElem hlt,
      hpos _ (List.getElem_mem hlt)⟩, by rw [if_neg hmore]; rfl, ?_⟩
    rw [List.slot_next hpos he, hlast]
    rfl

/-! ## Selections one after the other -/

theorem selectBackend_lift {s t : WeightedRoundRobinSelector} {client : Endpoint}
    {result : Outcome Backend} (h : s.selectBackend client = (result, t)) :
    Selector.selectBackend client (.weightedRoundRobin s) = (result, .weightedRoundRobin t) :=
  congrArg (Prod.map id Selector.weightedRoundRobin) h

theorem selectAll_noEntries (c : Nat) (clients : List Endpoint) :
    Selector.selectAll (.weightedRoundRobin ⟨[], c⟩) clients =
      clients.map fun _ => .undefined := by
  induction clients with
  | nil => rfl
  | cons client clients ih => exact congrArg (Outcome.undefined :: ·) ih

theorem selectAll_midCycle {es : List WeightWrapper} (hfresh : Fresh es)
    (hpos : ∀ e ∈ es, 0 < e.weight) {c k : Nat} (hon : OnCycle es c k)
    (clients : List Endpoint) :
    Selector.selectAll (.weightedRoundRobin (midCycle es c k)) clients =
      (visits (totalWeight es) (es.slot WeightWrapper.weight c k) clients.length).map
        fun j => .access (cycle es)[j]? := by
  induction clients generalizing c k with
  | nil => rfl
  | cons client clients ih =>
      obtain ⟨c', k', hon', hselect, hslot⟩ := selectBackend_slot hfresh hpos hon client
      unfold Selector.selectAll
      rw [selectBackend_lift hselect, ih hon', hslot, List.length_cons, visits_succ, visits_mod,
        List.map_cons, Nat.mod_eq_of_lt hon.slot_lt]

theorem selectAll_start {es : List WeightWrapper} (hfresh : Fresh es)
    (hpos : ∀ e ∈ es, 0 < e.weight) (clients : List Endpoint) :
    Selector.selectAll (.weightedRoundRobin (midCycle es 0 0)) clients =
      (List.range clients.length).map fun k => .access (cycle es)[k % totalWeight es]? := by
  cases es with
  | nil =>
      refine (selectAll_noEntries 0 clients).trans ?_
      apply List.ext_getElem (by simp)
      intro k hk _
      simp [cycle, Outcome.access]
  | cons e rest =>
      have hon : OnCycle (e :: rest) 0 0 := ⟨e, rfl, hpos e List.mem_cons_self⟩
      rw [selectAll_midCycle hfresh hpos hon, List.slot_zero, visits, List.map_map]
      simp [Function.comp_def]

/-- Any full cycle of consecutive selections serves each entry as often as its weight says. -/
theorem selectAll_window {es : List WeightWrapper} (hfresh : Fresh es)
    (hpos : ∀ e ∈ es, 0 < e.weight) (hnd : (es.map WeightWrapper.backend).Nodup)
    {clients : List Endpoint} {m : Nat} (hm : m + totalWeight es ≤ clients.length) :
    ∃ bs : List Backend, ((Selector.selectAll (.weightedRoundRobin (midCycle es 0 0)) clients).drop
        m).take (totalWeight es) = bs.map .returned ∧
      ∀ e ∈ es, bs.count e.backend = e.weight := by
  refine ⟨(cycle es).rotate m, ?_, ?_⟩
  · have hwindow : ((List.range clients.length).drop m).take (totalWeight es) =
        (List.range (totalWeight es)).map (m + ·) := by
      apply List.ext_getElem
      · simp only [List.length_take, List.length_drop, List.length_range, List.length_map]
        omega
      · intro k _ _
        simp
    rw [selectAll_start hfresh hpos, ← List.map_drop, ← List.map_take, hwindow, List.map_map]
    have hvisits := map_visits_length (cycle es) m Outcome.access
    rw [length_cycle, visits, List.map_map] at hvisits
    exact hvisits
  · intro e he
    rw [(List.rotate_perm (cycle es) m).count_eq]
    exact List.count_map_weighted hnd he

/-! ## The exclusion of a held backend -/

theorem excludeBackend_midCycle {es : List WeightWrapper} (hfresh : Fresh es)
    (hnd : (es.map WeightWrapper.backend).Nodup) {c : Nat} (hc : c < es.length) (k : Nat)
    {b : Backend} (hb : b ∈ es.map WeightWrapper.backend) :
    ((midCycle es c k).excludeBackend b).2 = ⟨es.filter fun e => e.backend ≠ b, 0⟩ := by
  obtain ⟨e, he, rfl⟩ := List.mem_map.mp hb
  obtain ⟨i, hi⟩ : ∃ i, es.findIdx? (fun x => x.backend == e.backend) = some i :=
    ⟨_, List.findIdx?_eq_some_of_exists ⟨e, he, by simp⟩⟩
  have hfind : (midCycle es c k).backends.findIdx? (fun x => x.backend == e.backend) =
      some i := by
    rw [← hi]
    show List.findIdx? ((· == e.backend) ∘ WeightWrapper.backend) _ =
      List.findIdx? ((· == e.backend) ∘ WeightWrapper.backend) _
    rw [← List.findIdx?_map, ← List.findIdx?_map]
    exact congrArg _ (held_midCycle es c k)
  have herase := List.eraseIdx_findIdx?_key hnd hi
  unfold excludeBackend eraseFirst
  by_cases hcursor : i = c
  · -- the entry under the cursor goes with its progress
    subst hcursor
    have hself : (midCycle es i k).backends.eraseIdx i = es.filter fun x => x.backend ≠ e.backend :=
      (List.eraseIdx_modify_self _ _ _).trans herase
    simp only [hfind]
    rw [if_neg (by simp [midCycle])]
    exact congrArg (WeightedRoundRobinSelector.mk · 0) hself
  · -- the progress of the entry under the cursor is reset before another one goes
    have hreset : (midCycle es c k).resetCurrent = some ⟨es, c⟩ := by
      have hentry : (midCycle es c k).backends[(midCycle es c k).counter]? =
          some { es[c] with current := k } :=
        getElem?_midCycle (List.getElem?_eq_getElem hc) k
      unfold resetCurrent
      simp only [hentry]
      have hset := set_midCycle (List.getElem?_eq_getElem hc) k 0
      rw [midCycle_zero hfresh] at hset
      exact congrArg (fun l => some (WeightedRoundRobinSelector.mk l c)) hset
    simp only [hfind]
    rw [if_pos (by simpa [midCycle] using hcursor), hreset]
    exact congrArg (WeightedRoundRobinSelector.mk · 0) herase

/-! ## Runs -/

/-- The selector stands somewhere on the cycle of these entries. -/
def Steady (es : List WeightWrapper) (s : Selector) : Prop :=
  ∃ c k, s = .weightedRoundRobin (midCycle es c k) ∧ (es = [] ∨ OnCycle es c k)

/-- Excluded are only held backends, and such an exclusion returns normally. -/
def Ordinary (s : Selector) : Call → Prop
  | .select _ _ => True
  | .exclude b result => s.Holds b ∧ result = .returned ()

/-- The entries whose backends no call excluded. -/
def survivors (es : List WeightWrapper) (calls : List Call) : List WeightWrapper :=
  es.filter fun e => !(calls.filterMap Call.excluded?).contains e.backend

@[simp] theorem survivors_nil (es : List WeightWrapper) : survivors es [] = es := by
  simp [survivors]

theorem survivors_select (es : List WeightWrapper) (calls : List Call) (client : Endpoint)
    (result : Outcome Backend) :
    survivors es (calls ++ [.select client result]) = survivors es calls := by
  simp [survivors, Call.excluded?]

theorem survivors_exclude (es : List WeightWrapper) (calls : List Call) (b : Backend)
    (result : Outcome Unit) : survivors es (calls ++ [.exclude b result]) =
      (survivors es calls).filter fun e => e.backend ≠ b := by
  unfold survivors
  rw [List.filter_filter]
  refine List.filter_congr fun e _ => ?_
  simp [Call.excluded?, Bool.and_comm]

section Runs

variable {es : List WeightWrapper} (hfresh : Fresh es) (hpos : ∀ e ∈ es, 0 < e.weight)
  (hnd : (es.map WeightWrapper.backend).Nodup)

include hfresh in
theorem fresh_survivors (calls : List Call) : Fresh (survivors es calls) :=
  fun e he => hfresh e (List.mem_of_mem_filter he)

include hpos in
theorem pos_survivors (calls : List Call) : ∀ e ∈ survivors es calls, 0 < e.weight :=
  fun e he => hpos e (List.mem_of_mem_filter he)

include hnd in
theorem nodup_survivors (calls : List Call) :
    ((survivors es calls).map WeightWrapper.backend).Nodup :=
  hnd.sublist (List.filter_sublist.map _)

include hpos in
theorem steady_start (calls : List Call) :
    Steady (survivors es calls) (.weightedRoundRobin (midCycle (survivors es calls) 0 0)) := by
  refine ⟨0, 0, rfl, ?_⟩
  cases hes : survivors es calls with
  | nil => exact Or.inl rfl
  | cons e rest =>
      exact Or.inr ⟨e, rfl, pos_survivors hpos calls e (hes ▸ List.mem_cons_self)⟩

include hfresh hnd in
/-- After an exclusion the selector stands at the start of the cycle of the others. -/
theorem exclude_of_steady {calls : List Call} {t u : Selector} {b : Backend}
    {result : Outcome Unit} (ht : Steady (survivors es calls) t)
    (hstep : Under Ordinary Selector.CallStep t (.exclude b result) u) :
    u = .weightedRoundRobin (midCycle (survivors es (calls ++ [.exclude b result])) 0 0) := by
  obtain ⟨⟨hheld, -⟩, hcall⟩ := hstep
  obtain ⟨c, k, rfl, hon⟩ := ht
  have hb : b ∈ (survivors es calls).map WeightWrapper.backend := by
    rw [← held_midCycle _ c k]
    exact hheld
  obtain ⟨e, he, hk⟩ : OnCycle (survivors es calls) c k := by
    refine hon.resolve_left fun hnil => ?_
    simp [hnil] at hb
  have hc : c < (survivors es calls).length := (List.getElem?_eq_some_iff.mp he).1
  have hexclude := excludeBackend_midCycle (fresh_survivors hfresh calls)
    (nodup_survivors hnd calls) hc k hb
  rw [midCycle_zero (fresh_survivors hfresh _), survivors_exclude, ← hexclude]
  exact (congrArg Prod.snd hcall).symm

include hfresh hpos hnd in
theorem steady_run {calls : List Call} {t : Selector}
    (hrun : Run (Under Ordinary Selector.CallStep) (.weightedRoundRobin ⟨es, 0⟩) calls t) :
    Steady (survivors es calls) t := by
  induction hrun with
  | nil =>
      have hstart := steady_start hpos []
      rw [survivors_nil, midCycle_zero hfresh] at hstart
      rw [survivors_nil]
      exact hstart
  | @snoc t u calls call _ hstep ih =>
      cases call with
      | select client result =>
          rw [survivors_select]
          obtain ⟨c, k, rfl, hon⟩ := ih
          obtain rfl : _ = u := congrArg Prod.snd hstep.2
          rcases hon with hnil | hon
          · have hundefined : (midCycle [] c k).selectBackend client =
                (.undefined, midCycle [] c k) := by
              simp [midCycle, selectBackend]
            rw [hnil, selectBackend_lift hundefined]
            exact ⟨c, k, rfl, Or.inl rfl⟩
          · obtain ⟨c', k', hon', hselect, -⟩ := selectBackend_slot
              (fresh_survivors hfresh calls) (pos_survivors hpos calls) hon client
            rw [selectBackend_lift hselect]
            exact ⟨c', k', rfl, Or.inr hon'⟩
      | exclude b result =>
          rw [exclude_of_steady hfresh hnd ih hstep]
          exact steady_start hpos _

end Runs

/-- The history ends with an exclusion, or nothing was called yet. -/
def AtStart (calls : List Call) : Prop :=
  calls = [] ∨ ∃ earlier b result, calls = earlier ++ [.exclude b result]

theorem current_of_readEntry {ep : Node} {e : WeightWrapper} (h : readEntry ep = .ok e) :
    e.current = 0 := by
  obtain ⟨weight, -, h⟩ := Except.bind_eq_ok.mp h
  obtain ⟨url, -, h⟩ := Except.bind_eq_ok.mp h
  split at h
  · obtain ⟨text, -, h⟩ := Except.bind_eq_ok.mp h
    obtain ⟨b, -, h⟩ := Except.bind_eq_ok.mp h
    rw [Except.pure_eq_ok] at h
    rw [← h]
  · obtain ⟨ip, -, h⟩ := Except.bind_eq_ok.mp h
    split at h
    · obtain ⟨port, -, h⟩ := Except.bind_eq_ok.mp h
      obtain ⟨address, -, h⟩ := Except.bind_eq_ok.mp h
      obtain ⟨number, -, h⟩ := Except.bind_eq_ok.mp h
      obtain ⟨b, -, h⟩ := Except.bind_eq_ok.mp h
      rw [Except.pure_eq_ok] at h
      rw [← h]
    · cases h

theorem fresh_configure [LawfulSort] {config : Node} {s : WeightedRoundRobinSelector}
    (h : configure config = .ok s) : Fresh s.backends := by
  obtain ⟨items, -, h⟩ := Except.bind_eq_ok.mp h
  obtain ⟨es, hes, h⟩ := Except.bind_eq_ok.mp h
  rw [Except.pure_eq_ok] at h
  subst h
  intro e he
  have he : e ∈ es := (LawfulSort.sort_perm _ _).mem_iff.mp he
  have hread : List.Forall₂ (fun e ep => e.current = 0 ∧ readEntry ep = .ok e) es items :=
    ((Except.mapM_eq_ok.mp hes).imp fun _ _ hep => ⟨current_of_readEntry hep, hep⟩).flip
  exact ((List.forall₂_and_left _ _).mp hread).1 e he

theorem weightCompare_strictWeak : StrictWeak weightCompare :=
  strictWeak_of_key WeightWrapper.weight

theorem sorted_configure [LawfulSort] {config : Node} {s : WeightedRoundRobinSelector}
    (h : configure config = .ok s) :
    s.backends.Pairwise fun a b => b.weight ≤ a.weight := by
  obtain ⟨-, es, -, hsort⟩ := configure_eq_ok h
  rw [hsort]
  refine (LawfulSort.sort_sorted es weightCompare_strictWeak).imp fun {a b} hab => ?_
  simpa [weightCompare] using hab

/-- In every run that excludes held backends only, the selections after the last exclusion
    read the cycle of the survivors from its start, and any full cycle of consecutive
    selections serves each survivor as often as its weight says. -/
theorem selections_cycle [LawfulSort] {config : Node} {s : WeightedRoundRobinSelector}
    {calls : List Call} {t : Selector} (h : configure config = .ok s)
    (hpos : ∀ e ∈ s.backends, 0 < e.weight) (hnd : s.held.Nodup)
    (hrun : Run (Under Ordinary Selector.CallStep) (.weightedRoundRobin s) calls t)
    (hstart : AtStart calls) (clients : List Endpoint) :
    (survivors s.backends calls).Pairwise (fun a b => b.weight ≤ a.weight) ∧
    t.selectAll clients = (List.range clients.length).map (fun k =>
      .access (cycle (survivors s.backends calls))[k % totalWeight (survivors s.backends calls)]?) ∧
    ∀ m, m + totalWeight (survivors s.backends calls) ≤ clients.length →
      ∃ bs : List Backend, ((t.selectAll clients).drop m).take (totalWeight (survivors s.backends calls)) =
          bs.map .returned ∧
        ∀ e ∈ survivors s.backends calls, bs.count e.backend = e.weight := by
  have hfresh := fresh_configure h
  obtain ⟨hcounter, -⟩ := configure_eq_ok h
  have hs : s = ⟨s.backends, 0⟩ := by
    rw [← hcounter]
  rw [hs] at hrun
  have hat : t = .weightedRoundRobin (midCycle (survivors s.backends calls) 0 0) := by
    rcases hstart with rfl | ⟨earlier, b, result, rfl⟩
    · rw [hrun.eq_of_nil, survivors_nil, midCycle_zero hfresh]
    · obtain ⟨u, hrun, hstep⟩ := hrun.last
      exact exclude_of_steady hfresh hnd (steady_run hfresh hpos hnd hrun) hstep
  refine ⟨(sorted_configure h).sublist List.filter_sublist, ?_⟩
  rw [hat]
  exact ⟨selectAll_start (fresh_survivors hfresh calls) (pos_survivors hpos calls) clients,
    fun m hm => selectAll_window (fresh_survivors hfresh calls) (pos_survivors hpos calls)
      (nodup_survivors hnd calls) hm⟩

end WeightedRoundRobinSelector

end

namespace WeightedRoundRobinSelector

section

open Reference Selector

def weightedEntry (port weight : String) : Node :=
  .map [("ip", .scalar "127.0.0.1"), ("port", .scalar port), ("weight", .scalar weight)]

def threeWeights : Node :=
  balancing [weightedEntry "80" "1", weightedEntry "81" "2", weightedEntry "82" "3"]

def descending : WeightedRoundRobinSelector :=
  ⟨[⟨port82, 3, 0⟩, ⟨port81, 2, 0⟩, ⟨port80, 1, 0⟩], 0⟩

/-- Port 80 goes while port 82 has been served once. -/
def midCycleCalls : List Call :=
  [.select somebody (.returned port82), .exclude port80 (.returned ())]

theorem run_midCycleCalls : Run (Under Ordinary CallStep) (.weightedRoundRobin descending)
    midCycleCalls (.weightedRoundRobin ⟨[⟨port82, 3, 0⟩, ⟨port81, 2, 0⟩], 0⟩) := by
  have hselect : CallStep (.weightedRoundRobin descending) (.select somebody (.returned port82))
      (.weightedRoundRobin ⟨[⟨port82, 3, 1⟩, ⟨port81, 2, 0⟩, ⟨port80, 1, 0⟩], 0⟩) := by rfl
  have hexclude : CallStep
      (.weightedRoundRobin ⟨[⟨port82, 3, 1⟩, ⟨port81, 2, 0⟩, ⟨port80, 1, 0⟩], 0⟩)
      (.exclude port80 (.returned ()))
      (.weightedRoundRobin ⟨[⟨port82, 3, 0⟩, ⟨port81, 2, 0⟩], 0⟩) := by rfl
  have hheld : port80 ∈ [port82, port81, port80] := by decide
  exact .cons ⟨trivial, hselect⟩ (.one ⟨⟨hheld, rfl⟩, hexclude⟩)

/-- The cycle of the other two starts anew. -/
theorem selections_cycle_midCycle :
    configure threeWeights = .ok descending ∧
      (selectAll (.weightedRoundRobin ⟨[⟨port82, 3, 0⟩, ⟨port81, 2, 0⟩], 0⟩)
        (List.replicate 6 somebody)) =
        (List.range 6).map (fun k => .access [port82, port82, port82, port81, port81][k % 5]?) := by
  have h : configure threeWeights = .ok descending := by rfl
  have hpos : ∀ e ∈ descending.backends, 0 < e.weight := by
    simp [descending]
  have hnd : descending.held.Nodup := by decide
  have hcycle := selections_cycle h hpos hnd run_midCycleCalls
    (Or.inr ⟨[.select somebody (.returned port82)], port80, .returned (), rfl⟩)
    (List.replicate 6 somebody)
  exact ⟨h, hcycle.2.1⟩

end

end WeightedRoundRobinSelector

end LoadBalancer
