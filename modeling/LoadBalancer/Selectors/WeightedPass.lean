/-
  Weighted round robin, pass by pass.

  A pass of the cursor starts where the cursor comes to the first entry and ends with the
  selection that takes it past the last one. `AdvanceCounter` tests the progress after the
  selection, so an entry gets one selection in a pass even if its weight is 0: its `turns`. An
  exclusion sets the cursor back, and only one that erases an entry also clears the progress
  under it. What a pass has served and what is left of it make a full pass as long as no
  exclusion of a backend that is not held comes while the cursor is inside a later entry.

  Proved:
  * `served_of_completes`: without such an exclusion, a completed pass has served the turns of
    all entries.
  * `servesWeights_iff`: the turns are the weights in all of these runs exactly if no entry has
    weight 0; and then an exclusion of that kind spoils a pass to come.
-/
import LoadBalancer.Selectors.WeightedCycle
import Mathlib.Algebra.Order.BigOperators.Group.List

namespace LoadBalancer

open Transition

section

variable [Platform]

namespace WeightWrapper

/-- The selections that the entry gets in one pass. -/
def turns (e : WeightWrapper) : Nat := if e.weight = 0 then 1 else e.weight

/-- The selections that are left of them. -/
def remaining (e : WeightWrapper) : Nat := e.turns - e.current

def reset (e : WeightWrapper) : WeightWrapper := { e with current := 0 }

end WeightWrapper

namespace WeightedRoundRobinSelector

/-- What one pass serves. -/
def fullPass (es : List WeightWrapper) : List Backend :=
  es.flatMap fun e => List.replicate e.turns e.backend

/-- What is left of the pass. -/
def rest (s : WeightedRoundRobinSelector) : List Backend :=
  (s.backends.drop s.counter).flatMap fun e => List.replicate e.remaining e.backend

/-- The weight of a backend, over all its entries. -/
def weightOf (es : List WeightWrapper) (b : Backend) : Nat :=
  (es.map fun e => if e.backend = b then e.weight else 0).sum

/-- The next selection takes the cursor past the last entry. -/
def completes (s : WeightedRoundRobinSelector) : Bool :=
  match s.backends[s.counter]? with
  | none => false
  | some entry => s.counter + 1 == s.backends.length && !decide (entry.current + 1 < entry.weight)

/-- Only the entry under the cursor has made progress. -/
structure Tidy (s : WeightedRoundRobinSelector) : Prop where
  cursor : s.counter < s.backends.length ∨ s.backends = [] ∧ s.counter = 0
  progress : ∀ i e, s.backends[i]? = some e →
    e.current = 0 ∨ i = s.counter ∧ e.current < e.weight

theorem Fresh.rest {es : List WeightWrapper} (hfresh : Fresh es) :
    rest ⟨es, 0⟩ = fullPass es := by
  unfold WeightedRoundRobinSelector.rest fullPass
  rw [List.drop_zero]
  refine List.flatMap_congr fun e he => ?_
  rw [WeightWrapper.remaining, hfresh e he, Nat.sub_zero]

theorem Fresh.tidy {es : List WeightWrapper} (hfresh : Fresh es) : Tidy ⟨es, 0⟩ := by
  refine ⟨?_, fun i e he => Or.inl (hfresh e (List.mem_of_getElem? he))⟩
  cases es with
  | nil => exact Or.inr ⟨rfl, rfl⟩
  | cons e rest => exact Or.inl (Nat.succ_pos _)

/-! ## One selection -/

/-- What `AdvanceCounter` does to the entry under the cursor and to the cursor. -/
inductive Advance (s : WeightedRoundRobinSelector) (e : WeightWrapper) :
    Bool → WeightedRoundRobinSelector → Prop where
  | stays (more : e.current + 1 < e.weight) : Advance s e false
      ⟨s.backends.set s.counter { e with current := e.current + 1 }, s.counter⟩
  | moves (done : ¬ e.current + 1 < e.weight) (inner : s.counter + 1 < s.backends.length) :
      Advance s e false ⟨s.backends.set s.counter e.reset, s.counter + 1⟩
  | wraps (done : ¬ e.current + 1 < e.weight) (last : s.counter + 1 = s.backends.length) :
      Advance s e true ⟨s.backends.set s.counter e.reset, 0⟩

theorem advance_selectBackend {s : WeightedRoundRobinSelector} {e : WeightWrapper}
    (he : s.backends[s.counter]? = some e) (client : Endpoint) :
    (s.selectBackend client).1 = .returned e.backend ∧
      Advance s e s.completes (s.selectBackend client).2 := by
  obtain ⟨hlt, -⟩ := List.getElem?_eq_some_iff.mp he
  unfold selectBackend advanceCounter completes
  simp only [he, true_and]
  split
  · next more =>
    rw [decide_eq_true more, Bool.not_true, Bool.and_false]
    exact .stays more
  · next done =>
    rw [decide_eq_false done, Bool.not_false, Bool.and_true]
    by_cases hlast : s.counter + 1 = s.backends.length
    · rw [beq_iff_eq.mpr hlast, hlast, Nat.mod_self]
      exact .wraps done hlast
    · rw [beq_eq_false_iff_ne.mpr hlast, Nat.mod_eq_of_lt (by omega)]
      exact .moves done (by omega)

theorem map_of_advance {β : Type} {f : WeightWrapper → β}
    (hf : ∀ e n, f { e with current := n } = f e) {s t : WeightedRoundRobinSelector}
    {e : WeightWrapper} {last : Bool} (he : s.backends[s.counter]? = some e)
    (h : Advance s e last t) : t.backends.map f = s.backends.map f := by
  cases h <;> exact map_set_current hf he _

theorem fullPass_of_advance {s t : WeightedRoundRobinSelector} {e : WeightWrapper} {last : Bool}
    (he : s.backends[s.counter]? = some e) (h : Advance s e last t) :
    fullPass t.backends = fullPass s.backends := by
  unfold fullPass
  rw [List.flatMap_def, map_of_advance (fun _ _ => rfl) he h, ← List.flatMap_def]

theorem weightOf_of_advance {s t : WeightedRoundRobinSelector} {e : WeightWrapper} {last : Bool}
    (he : s.backends[s.counter]? = some e) (h : Advance s e last t) (b : Backend) :
    weightOf t.backends b = weightOf s.backends b := by
  unfold weightOf
  rw [map_of_advance (fun _ _ => rfl) he h]

theorem current_of_getElem?_set {s : WeightedRoundRobinSelector} (hs : s.Tidy)
    {x y : WeightWrapper} {i : Nat} (h : (s.backends.set s.counter x)[i]? = some y) :
    i = s.counter ∧ y = x ∨ y.current = 0 := by
  rw [List.getElem?_set] at h
  split at h
  · next hi =>
    split at h
    · exact Or.inl ⟨hi.symm, (Option.some.inj h).symm⟩
    · cases h
  · next hi =>
    have hzero := hs.progress i y h
    exact Or.inr (hzero.resolve_right fun h => hi h.1.symm)

/-- Clearing the progress under the cursor clears all of it. -/
theorem fresh_set_reset {s : WeightedRoundRobinSelector} (hs : s.Tidy) (e : WeightWrapper) :
    Fresh (s.backends.set s.counter e.reset) := by
  intro y hy
  obtain ⟨i, hi⟩ := List.mem_iff_getElem?.mp hy
  rcases current_of_getElem?_set hs hi with ⟨-, rfl⟩ | hzero
  · rfl
  · exact hzero

theorem tidy_of_advance {s t : WeightedRoundRobinSelector} {e : WeightWrapper} {last : Bool}
    (hs : s.Tidy) (he : s.backends[s.counter]? = some e) (h : Advance s e last t) : t.Tidy := by
  obtain ⟨hlt, -⟩ := List.getElem?_eq_some_iff.mp he
  cases h with
  | stays more =>
      refine ⟨Or.inl (by simpa using hlt), fun i y hy => ?_⟩
      rcases current_of_getElem?_set hs hy with ⟨hi, rfl⟩ | hzero
      · exact Or.inr ⟨hi, more⟩
      · exact Or.inl hzero
  | moves done inner =>
      refine ⟨Or.inl (by simpa using inner), fun i y hy => Or.inl ?_⟩
      exact fresh_set_reset hs e y (List.mem_of_getElem? hy)
  | wraps done last => exact (fresh_set_reset hs e).tidy

theorem rest_eq_cons {s : WeightedRoundRobinSelector} {e : WeightWrapper}
    (he : s.backends[s.counter]? = some e) : s.rest = List.replicate e.remaining e.backend ++
      rest { s with counter := s.counter + 1 } := by
  obtain ⟨hlt, rfl⟩ := List.getElem?_eq_some_iff.mp he
  unfold rest
  rw [List.drop_eq_getElem_cons hlt, List.flatMap_cons]

theorem rest_set {s : WeightedRoundRobinSelector} {x : WeightWrapper} :
    rest ⟨s.backends.set s.counter x, s.counter + 1⟩ = rest { s with counter := s.counter + 1 } := by
  unfold rest
  rw [List.drop_set_of_lt (Nat.lt_succ_self _)]

/-- A selection takes the first of what is left of the pass. -/
theorem rest_of_advance {s t : WeightedRoundRobinSelector} {e : WeightWrapper} {last : Bool}
    (he : s.backends[s.counter]? = some e) (hcurrent : e.current = 0 ∨ e.current < e.weight)
    (h : Advance s e last t) :
    s.rest = e.backend :: if last then [] else t.rest := by
  obtain ⟨hlt, -⟩ := List.getElem?_eq_some_iff.mp he
  rw [rest_eq_cons he]
  cases h with
  | stays more =>
      have hnext := @rest_eq_cons _ ⟨s.backends.set s.counter { e with current := e.current + 1 },
        s.counter⟩ _ (List.getElem?_set_self hlt)
      have hremaining : e.remaining =
          WeightWrapper.remaining { e with current := e.current + 1 } + 1 := by
        unfold WeightWrapper.remaining WeightWrapper.turns
        dsimp only
        split <;> omega
      rw [if_neg Bool.false_ne_true, hnext, rest_set, hremaining]
      rfl
  | moves done inner =>
      have hremaining : e.remaining = 1 := by
        unfold WeightWrapper.remaining WeightWrapper.turns
        split <;> omega
      rw [rest_set, hremaining]
      rfl
  | wraps done last =>
      have hremaining : e.remaining = 1 := by
        unfold WeightWrapper.remaining WeightWrapper.turns
        split <;> omega
      have hnone : rest { s with counter := s.counter + 1 } = [] := by
        unfold rest
        rw [last, List.drop_length]
        rfl
      rw [hnone, hremaining]
      rfl

/-! ## One exclusion -/

/-- An exclusion that erases an entry clears the progress under the cursor, or erases it. -/
theorem excludeBackend_held {s : WeightedRoundRobinSelector} (hs : s.Tidy) {b : Backend}
    (hb : b ∈ s.held) : ∃ e i, s.backends[s.counter]? = some e ∧
      (s.excludeBackend b).2 = ⟨(s.backends.set s.counter e.reset).eraseIdx i, 0⟩ := by
  obtain ⟨x, hx, rfl⟩ := List.mem_map.mp hb
  obtain ⟨i, hi⟩ : ∃ i, s.backends.findIdx? (fun y => y.backend == x.backend) = some i :=
    ⟨_, List.findIdx?_eq_some_of_exists ⟨x, hx, by simp⟩⟩
  have hlt : s.counter < s.backends.length :=
    hs.cursor.resolve_right fun h => List.ne_nil_of_mem hx h.1
  have he := List.getElem?_eq_getElem hlt
  refine ⟨s.backends[s.counter], i, he, ?_⟩
  unfold excludeBackend eraseFirst resetCurrent
  simp only [hi, he]
  by_cases hcursor : i = s.counter
  · subst hcursor
    rw [if_neg (fun h => h rfl), List.eraseIdx_set_eq]
    rfl
  · rw [if_pos hcursor]
    rfl

theorem excludeBackend_unheld {s : WeightedRoundRobinSelector} {b : Backend}
    (hb : b ∉ s.held) : (s.excludeBackend b).2 = { s with counter := 0 } := by
  have hnone : s.backends.findIdx? (fun y => y.backend == b) = none := by
    rw [List.findIdx?_eq_none_iff]
    intro x hx
    rw [beq_eq_false_iff_ne]
    exact fun h => hb (h ▸ List.mem_map_of_mem hx)
  unfold excludeBackend eraseFirst
  rw [hnone]

theorem fresh_excludeBackend {s : WeightedRoundRobinSelector} (hs : s.Tidy) {b : Backend}
    (hb : b ∈ s.held) : (s.excludeBackend b).2.counter = 0 ∧
      Fresh (s.excludeBackend b).2.backends := by
  obtain ⟨e, i, -, hexclude⟩ := excludeBackend_held hs hb
  rw [hexclude]
  exact ⟨rfl, fun y hy => fresh_set_reset hs e y (List.mem_of_mem_eraseIdx hy)⟩

end WeightedRoundRobinSelector

/-! ## Passes -/

open WeightedRoundRobinSelector

/-- A selector and what the pass under way has served. -/
structure WeightedPass where
  selector : WeightedRoundRobinSelector
  served : List Backend

namespace WeightedPass

def start (s : WeightedRoundRobinSelector) : WeightedPass := { selector := s, served := [] }

/-- A new pass begins after the last selection of one, and after an exclusion that erases an
    entry or moves the cursor. -/
def servedAfter (p : WeightedPass) : Call → List Backend
  | .select _ (.returned b) => if p.selector.completes then [] else p.served ++ [b]
  | .select _ _ => p.served
  | .exclude b _ =>
    if p.selector.held.contains b || p.selector.counter != 0 then [] else p.served

def Step (p : WeightedPass) (call : Call) (q : WeightedPass) : Prop :=
  Selector.CallStep (.weightedRoundRobin p.selector) call (.weightedRoundRobin q.selector) ∧
    q.served = p.servedAfter call

/-- A backend that is not held is excluded only while no later entry is in progress. -/
def Undisturbed (p : WeightedPass) : Call → Prop
  | .select _ _ => True
  | .exclude b _ => b ∈ p.selector.held ∨ p.selector.counter = 0 ∨
      ∀ e, p.selector.backends[p.selector.counter]? = some e → e.current = 0

/-- The next selection serves no backend of weight 0 while another one has a positive weight,
    and a pass that it completes has served each backend as often as its weight. -/
structure ServesWeights (p : WeightedPass) : Prop where
  drained : ∀ client b, (p.selector.selectBackend client).1 = .returned b →
    (∃ e ∈ p.selector.backends, 0 < e.weight) → 0 < weightOf p.selector.backends b
  completed : ∀ client b, (p.selector.selectBackend client).1 = .returned b →
    p.selector.completes = true →
      ∀ x, (p.served ++ [b]).count x = weightOf p.selector.backends x

/-- What the pass has served and what is left of it make a full pass. -/
structure Balanced (p : WeightedPass) : Prop where
  tidy : p.selector.Tidy
  balance : p.served ++ p.selector.rest = fullPass p.selector.backends

theorem balanced_of_fresh {p : WeightedPass} (hcounter : p.selector.counter = 0)
    (hfresh : Fresh p.selector.backends) (hserved : p.served = []) : p.Balanced := by
  obtain ⟨⟨es, counter⟩, served⟩ := p
  dsimp only at hcounter hserved hfresh
  subst hcounter hserved
  exact ⟨hfresh.tidy, hfresh.rest⟩

theorem select_of_step {p q : WeightedPass} {client : Endpoint} {result : Outcome Backend}
    (h : Step p (.select client result) q) :
    p.selector.selectBackend client = (result, q.selector) := by
  obtain ⟨hresult, hselector⟩ := Prod.mk.inj h.1
  exact Prod.ext hresult (Selector.weightedRoundRobin.inj hselector)

theorem exclude_of_step {p q : WeightedPass} {b : Backend} {result : Outcome Unit}
    (h : Step p (.exclude b result) q) :
    p.selector.excludeBackend b = (result, q.selector) := by
  obtain ⟨hresult, hselector⟩ := Prod.mk.inj h.1
  exact Prod.ext hresult (Selector.weightedRoundRobin.inj hselector)

theorem servedAfter_exclude {p : WeightedPass} {b : Backend}
    (h : b ∈ p.selector.held ∨ p.selector.counter ≠ 0) (result : Outcome Unit) :
    p.servedAfter (.exclude b result) = [] := by
  apply if_pos
  simpa using h

theorem servedAfter_exclude_unheld {p : WeightedPass} {b : Backend} (hb : b ∉ p.selector.held)
    (hcounter : p.selector.counter = 0) (result : Outcome Unit) :
    p.servedAfter (.exclude b result) = p.served := by
  apply if_neg
  simp [hb, hcounter]

/-- A selection goes on with the pass or completes it. -/
theorem balanced_select {p q : WeightedPass} {client : Endpoint} {result : Outcome Backend}
    (hp : p.Balanced) (h : Step p (.select client result) q) : q.Balanced := by
  have hselect := select_of_step h
  have hserved := h.2
  obtain ⟨t, served⟩ := q
  dsimp only at hselect hserved
  cases he : p.selector.backends[p.selector.counter]? with
  | none =>
      -- the selection reads outside an empty vector and leaves everything as it is
      have hundefined : p.selector.selectBackend client = (.undefined, p.selector) := by
        unfold selectBackend
        rw [he]
      rw [hundefined] at hselect
      obtain ⟨rfl, rfl⟩ := Prod.mk.inj hselect
      obtain rfl : served = p.served := hserved
      exact hp
  | some e =>
      obtain ⟨hreturned, hadvance⟩ := advance_selectBackend he client
      rw [hselect] at hreturned hadvance
      dsimp only at hreturned hadvance
      subst hreturned
      have hrest := rest_of_advance he ((hp.tidy.progress _ e he).imp_right And.right) hadvance
      have hbalance := hp.balance
      cases hcompletes : p.selector.completes with
      | true =>
          rw [hcompletes] at hadvance
          cases hadvance with
          | wraps done last =>
              refine balanced_of_fresh rfl (fresh_set_reset hp.tidy e) ?_
              rw [hserved, servedAfter, if_pos hcompletes]
      | false =>
          refine ⟨tidy_of_advance hp.tidy he hadvance, ?_⟩
          rw [hcompletes, if_neg Bool.false_ne_true] at hrest
          rw [hserved, servedAfter, if_neg (by simp [hcompletes]), fullPass_of_advance he hadvance,
            ← hbalance, hrest, List.append_assoc]
          rfl

theorem balanced_exclude {p q : WeightedPass} {b : Backend} {result : Outcome Unit}
    (hp : p.Balanced) (hundisturbed : p.Undisturbed (.exclude b result))
    (h : Step p (.exclude b result) q) : q.Balanced := by
  have hselector : (p.selector.excludeBackend b).2 = q.selector :=
    congrArg Prod.snd (exclude_of_step h)
  have hserved := h.2
  by_cases hb : b ∈ p.selector.held
  · have hfresh := fresh_excludeBackend hp.tidy hb
    rw [hselector] at hfresh
    rw [servedAfter_exclude (Or.inl hb)] at hserved
    exact balanced_of_fresh hfresh.1 hfresh.2 hserved
  · rw [excludeBackend_unheld hb] at hselector
    by_cases hcounter : p.selector.counter = 0
    · -- nothing changes
      have hsame : q.selector = p.selector := by
        rw [← hselector]
        exact congrArg (WeightedRoundRobinSelector.mk _) hcounter.symm
      rw [servedAfter_exclude_unheld hb hcounter] at hserved
      refine ⟨hsame ▸ hp.tidy, ?_⟩
      rw [hsame, hserved]
      exact hp.balance
    · -- the pass that is given up ends between two entries
      have hidle := (hundisturbed.resolve_left hb).resolve_left hcounter
      rw [servedAfter_exclude (Or.inr hcounter)] at hserved
      refine balanced_of_fresh (by rw [← hselector]) ?_ hserved
      intro e he
      rw [← hselector] at he
      obtain ⟨i, hi⟩ := List.mem_iff_getElem?.mp he
      rcases hp.tidy.progress i e hi with hzero | ⟨rfl, -⟩
      · exact hzero
      · exact hidle e hi

theorem balanced_step {p q : WeightedPass} {call : Call} (hp : p.Balanced)
    (h : Under Undisturbed Step p call q) : q.Balanced := by
  cases call with
  | select client result => exact balanced_select hp h.2
  | exclude b result => exact balanced_exclude hp h.1 h.2

/-! ## Completed passes -/

theorem count_replicates (n : WeightWrapper → Nat) (es : List WeightWrapper) (x : Backend) :
    (es.flatMap fun e => List.replicate (n e) e.backend).count x =
      (es.map fun e => if e.backend = x then n e else 0).sum := by
  rw [List.count_flatMap]
  refine congrArg List.sum (List.map_congr_left fun e _ => ?_)
  simp [List.count_replicate]

/-- With positive weights an entry has as many turns as its weight says. -/
theorem count_fullPass {es : List WeightWrapper} (hpos : ∀ e ∈ es, 0 < e.weight) (x : Backend) :
    (fullPass es).count x = weightOf es x := by
  unfold fullPass weightOf
  rw [count_replicates]
  refine congrArg List.sum (List.map_congr_left fun e he => ?_)
  have hturns : e.turns = e.weight := if_neg (Nat.pos_iff_ne_zero.mp (hpos e he))
  rw [hturns]

/-- An entry of weight 0 gets a turn that no weight pays for. -/
theorem weightOf_lt_count_fullPass {es : List WeightWrapper} {e : WeightWrapper} (he : e ∈ es)
    (hzero : e.weight = 0) : weightOf es e.backend < (fullPass es).count e.backend := by
  unfold fullPass weightOf
  rw [count_replicates]
  refine List.sum_lt_sum _ _ (fun y _ => ?_) ⟨e, he, ?_⟩
  · unfold WeightWrapper.turns
    split
    · split <;> omega
    · exact Nat.le_refl 0
  · rw [if_pos rfl, if_pos rfl, WeightWrapper.turns, if_pos hzero, hzero]
    exact Nat.one_pos

/-- Progress that an entry starts a pass with is missing from it. -/
theorem count_rest_lt {es : List WeightWrapper} (hpos : ∀ e ∈ es, 0 < e.weight)
    {e : WeightWrapper} (he : e ∈ es) (hcurrent : e.current ≠ 0) :
    (rest ⟨es, 0⟩).count e.backend < weightOf es e.backend := by
  have hremaining : ∀ y ∈ es, y.remaining = y.weight - y.current := by
    intro y hy
    unfold WeightWrapper.remaining WeightWrapper.turns
    rw [if_neg (Nat.pos_iff_ne_zero.mp (hpos y hy))]
  unfold rest weightOf
  rw [List.drop_zero, count_replicates]
  refine List.sum_lt_sum _ _ (fun y hy => ?_) ⟨e, he, ?_⟩
  · rw [hremaining y hy]
    split
    · exact Nat.sub_le _ _
    · exact Nat.le_refl 0
  · have hweight := hpos e he
    rw [if_pos rfl, if_pos rfl, hremaining e he]
    omega

theorem selected_of_balanced {p : WeightedPass} (hp : p.Balanced) {client : Endpoint}
    {b : Backend} (hb : (p.selector.selectBackend client).1 = .returned b) :
    ∃ e, p.selector.backends[p.selector.counter]? = some e ∧ e.backend = b ∧
      p.selector.rest = b :: if p.selector.completes then []
        else (p.selector.selectBackend client).2.rest := by
  cases he : p.selector.backends[p.selector.counter]? with
  | none =>
      unfold selectBackend at hb
      rw [he] at hb
      cases hb
  | some e =>
      obtain ⟨hreturned, hadvance⟩ := advance_selectBackend he client
      obtain rfl := Outcome.returned.inj (hreturned.symm.trans hb)
      exact ⟨e, rfl, rfl,
        rest_of_advance he ((hp.tidy.progress _ e he).imp_right And.right) hadvance⟩

/-- A completed pass has served the turns of all entries. -/
theorem served_of_completes {p : WeightedPass} (hp : p.Balanced) {client : Endpoint}
    {b : Backend} (hb : (p.selector.selectBackend client).1 = .returned b)
    (hcompletes : p.selector.completes = true) :
    p.served ++ [b] = fullPass p.selector.backends := by
  obtain ⟨e, -, -, hrest⟩ := selected_of_balanced hp hb
  rw [if_pos hcompletes] at hrest
  rw [← hrest]
  exact hp.balance

theorem servesWeights_of_balanced {p : WeightedPass} (hp : p.Balanced)
    (hpos : ∀ e ∈ p.selector.backends, 0 < e.weight) : p.ServesWeights := by
  refine ⟨fun client b hb _ => ?_, fun client b hb hcompletes x => ?_⟩
  · obtain ⟨e, he, rfl, -⟩ := selected_of_balanced hp hb
    have hmem := List.mem_of_getElem? he
    have hle : e.weight ≤ weightOf p.selector.backends e.backend := by
      refine List.single_le_sum (fun _ _ => Nat.zero_le _) _ ?_
      exact List.mem_map.mpr ⟨e, hmem, if_pos rfl⟩
    exact Nat.lt_of_lt_of_le (hpos e hmem) hle
  · rw [served_of_completes hp hb hcompletes, count_fullPass hpos]

/-- No call changes a weight. -/
theorem pos_step {p q : WeightedPass} {call : Call} (hp : p.Balanced)
    (hpos : ∀ e ∈ p.selector.backends, 0 < e.weight) (h : Step p call q) :
    ∀ e ∈ q.selector.backends, 0 < e.weight := by
  cases call with
  | select client result =>
      have hselector : (p.selector.selectBackend client).2 = q.selector :=
        congrArg Prod.snd (select_of_step h)
      rw [← hselector]
      cases he : p.selector.backends[p.selector.counter]? with
      | none =>
          unfold selectBackend
          rw [he]
          exact hpos
      | some e =>
          have hweights := map_of_advance (f := WeightWrapper.weight) (fun _ _ => rfl) he
            (advance_selectBackend he client).2
          intro y hy
          have hmem := List.mem_map_of_mem (f := WeightWrapper.weight) hy
          rw [hweights] at hmem
          obtain ⟨x, hx, hxy⟩ := List.mem_map.mp hmem
          rw [← hxy]
          exact hpos x hx
  | exclude b result =>
      have hselector : (p.selector.excludeBackend b).2 = q.selector :=
        congrArg Prod.snd (exclude_of_step h)
      rw [← hselector]
      by_cases hb : b ∈ p.selector.held
      · obtain ⟨e, i, he, hexclude⟩ := excludeBackend_held hp.tidy hb
        rw [hexclude]
        intro y hy
        rcases List.mem_or_eq_of_mem_set (List.mem_of_mem_eraseIdx hy) with hy | rfl
        · exact hpos y hy
        · exact hpos e (List.mem_of_getElem? he)
      · rw [excludeBackend_unheld hb]
        exact hpos

theorem balanced_pos_run {s : WeightedRoundRobinSelector} {calls : List Call} {p : WeightedPass}
    (hcounter : s.counter = 0) (hfresh : Fresh s.backends) (hpos : ∀ e ∈ s.backends, 0 < e.weight)
    (hrun : Run (Under Undisturbed Step) (start s) calls p) :
    p.Balanced ∧ ∀ e ∈ p.selector.backends, 0 < e.weight := by
  induction hrun with
  | nil => exact ⟨balanced_of_fresh hcounter hfresh rfl, hpos⟩
  | snoc _ hstep ih => exact ⟨balanced_step ih.1 hstep, pos_step ih.1 ih.2 hstep.2⟩

/-! ## Reaching the end of a pass -/

/-- The cursor is on an entry, and no entry from there on has used up its turns. -/
structure Ahead (p : WeightedPass) : Prop where
  cursor : p.selector.counter < p.selector.backends.length
  progress : ∀ e ∈ p.selector.backends.drop p.selector.counter,
    e.current = 0 ∨ e.current < e.weight

theorem Ahead.entry {p : WeightedPass} (hp : p.Ahead) :
    ∃ e, p.selector.backends[p.selector.counter]? = some e ∧
      (e.current = 0 ∨ e.current < e.weight) := by
  have hlt := hp.cursor
  refine ⟨p.selector.backends[p.selector.counter], List.getElem?_eq_getElem hlt, ?_⟩
  apply hp.progress
  rw [List.drop_eq_getElem_cons hlt]
  exact List.mem_cons_self

theorem ahead_of_advance {p : WeightedPass} {t : WeightedRoundRobinSelector} {e : WeightWrapper}
    (hp : p.Ahead) (he : p.selector.backends[p.selector.counter]? = some e)
    (h : Advance p.selector e false t) (served : List Backend) : Ahead ⟨t, served⟩ := by
  obtain ⟨hlt, rfl⟩ := List.getElem?_eq_some_iff.mp he
  have hbehind : ∀ y ∈ p.selector.backends.drop (p.selector.counter + 1),
      y.current = 0 ∨ y.current < y.weight := by
    intro y hy
    refine hp.progress y ?_
    rw [List.drop_eq_getElem_cons hlt]
    exact List.mem_cons_of_mem _ hy
  cases h with
  | stays more =>
      refine ⟨by simpa using hlt, fun y hy => ?_⟩
      dsimp only at hy
      rw [List.drop_eq_getElem_cons (by simpa using hlt), List.getElem_set_self,
        List.drop_set_of_lt (Nat.lt_succ_self _)] at hy
      rcases List.mem_cons.mp hy with rfl | hy
      · exact Or.inr more
      · exact hbehind y hy
  | moves done inner =>
      refine ⟨by simpa using inner, fun y hy => hbehind y ?_⟩
      dsimp only at hy
      rw [List.drop_set_of_lt (Nat.lt_succ_self _)] at hy
      exact hy

/-- From such a place selections alone complete the pass, and it serves what was left of it. -/
theorem exists_completion (client : Endpoint) {p : WeightedPass} (hp : p.Ahead) :
    ∃ calls q b, Run (Under Undisturbed Step) p calls q ∧
      (q.selector.selectBackend client).1 = .returned b ∧ q.selector.completes = true ∧
      q.served ++ [b] = p.served ++ p.selector.rest ∧
      ∀ x, weightOf q.selector.backends x = weightOf p.selector.backends x := by
  induction hn : p.selector.rest.length using Nat.strong_induction_on generalizing p with
  | _ n ih =>
      obtain ⟨e, he, hprogress⟩ := hp.entry
      obtain ⟨hreturned, hadvance⟩ := advance_selectBackend he client
      have hrest := rest_of_advance he hprogress hadvance
      cases hcompletes : p.selector.completes with
      | true =>
          rw [if_pos hcompletes] at hrest
          exact ⟨[], p, e.backend, .nil p, hreturned, hcompletes, by rw [hrest], fun _ => rfl⟩
      | false =>
          rw [hcompletes] at hadvance hrest
          rw [if_neg Bool.false_ne_true] at hrest
          have hcall : p.selector.selectBackend client =
            (.returned e.backend, (p.selector.selectBackend client).2) := Prod.ext hreturned rfl
          have hstep : Step p (.select client (.returned e.backend))
              ⟨(p.selector.selectBackend client).2, p.served ++ [e.backend]⟩ := by
            refine ⟨selectBackend_lift hcall, ?_⟩
            rw [servedAfter, if_neg (by simp [hcompletes])]
          have hahead := ahead_of_advance hp he hadvance (p.served ++ [e.backend])
          have hshorter : (p.selector.selectBackend client).2.rest.length < n := by
            rw [← hn, hrest]
            exact Nat.lt_succ_self _
          obtain ⟨calls, q, b, hrun, hb, hq, hserved, hweights⟩ := ih _ hshorter hahead rfl
          refine ⟨.select client (.returned e.backend) :: calls, q, b,
            .cons ⟨trivial, hstep⟩ hrun, hb, hq, ?_, fun x => ?_⟩
          · rw [hserved, hrest, List.append_assoc]
            rfl
          · rw [hweights x]
            exact weightOf_of_advance he hadvance x

/-- Every sequence of calls of the selector is a run of its passes. -/
theorem exists_pass_of_run {s : WeightedRoundRobinSelector} {calls : List Call} {t : Selector}
    (hrun : Run Selector.CallStep (.weightedRoundRobin s) calls t) :
    ∃ p, Run Step (start s) calls p ∧ t = .weightedRoundRobin p.selector := by
  induction hrun with
  | nil => exact ⟨start s, .nil _, rfl⟩
  | @snoc t u calls call _ hstep ih =>
      obtain ⟨p, hp, rfl⟩ := ih
      cases call with
      | select client result =>
          obtain rfl : _ = u := congrArg Prod.snd hstep
          exact ⟨⟨(p.selector.selectBackend client).2, _⟩, hp.snoc ⟨hstep, rfl⟩, rfl⟩
      | exclude b result =>
          obtain rfl : _ = u := congrArg Prod.snd hstep
          exact ⟨⟨(p.selector.excludeBackend b).2, _⟩, hp.snoc ⟨hstep, rfl⟩, rfl⟩

/-- An exclusion of a backend that is not held, while a later entry is in progress, takes
    selections from that entry in a pass to come. -/
theorem disturbed_breaks {p q : WeightedPass} {b : Backend} {result : Outcome Unit}
    (hp : p.Balanced) (hpos : ∀ e ∈ p.selector.backends, 0 < e.weight)
    (hdisturbed : ¬ p.Undisturbed (.exclude b result)) (h : Step p (.exclude b result) q)
    (client : Endpoint) : ∃ calls r, Run Step q calls r ∧ ¬ r.ServesWeights := by
  obtain ⟨hb, hcounter, hprogress⟩ : b ∉ p.selector.held ∧ p.selector.counter ≠ 0 ∧
      ∃ e, p.selector.backends[p.selector.counter]? = some e ∧ e.current ≠ 0 := by
    simpa [Undisturbed] using hdisturbed
  obtain ⟨e, he, hcurrent⟩ := hprogress
  have hselector : q.selector = { p.selector with counter := 0 } := by
    rw [← excludeBackend_unheld hb, exclude_of_step h]
  have hserved : q.served = [] := by
    rw [h.2, servedAfter_exclude (Or.inr hcounter)]
  have hmem := List.mem_of_getElem? he
  have hahead : q.Ahead := by
    constructor
    · rw [hselector]
      exact List.length_pos_of_mem hmem
    · rw [hselector]
      intro y hy
      obtain ⟨i, hi⟩ := List.mem_iff_getElem?.mp (List.mem_of_mem_drop hy)
      exact (hp.tidy.progress i y hi).imp_right And.right
  obtain ⟨calls, r, b', hrun, hb', hcompletes, hcompleted, hweights⟩ :=
    exists_completion client hahead
  refine ⟨calls, r, hrun.of_under, fun hserves => ?_⟩
  have hcount := hserves.completed client b' hb' hcompletes e.backend
  have hlt := count_rest_lt hpos hmem hcurrent
  rw [hcompleted, hserved, List.nil_append, hweights, hselector] at hcount
  exact absurd hcount (Nat.ne_of_lt hlt)

/-- Undisturbed runs over fresh entries keep to the weights exactly if no weight is 0. -/
theorem servesWeights_iff_of_fresh {s : WeightedRoundRobinSelector} (hcounter : s.counter = 0)
    (hfresh : Fresh s.backends) (client : Endpoint) :
    (∀ calls p, Run (Under Undisturbed Step) (start s) calls p → p.ServesWeights) ↔
      ∀ e ∈ s.backends, 0 < e.weight := by
  constructor
  · intro hserves e he
    by_contra hweight
    have hzero : e.weight = 0 := by omega
    have hahead : (start s).Ahead := by
      refine ⟨?_, fun y hy => Or.inl (hfresh y (List.mem_of_mem_drop hy))⟩
      show s.counter < s.backends.length
      rw [hcounter]
      exact List.length_pos_of_mem he
    obtain ⟨calls, q, b, hrun, hb, hcompletes, hserved, hweights⟩ :=
      exists_completion client hahead
    have hcount := (hserves calls q hrun).completed client b hb hcompletes e.backend
    have hrest : s.rest = fullPass s.backends := by
      rw [← hfresh.rest, ← hcounter]
    rw [hserved, hweights] at hcount
    have hsame : (fullPass s.backends).count e.backend = weightOf s.backends e.backend := by
      rw [← hrest]
      exact hcount
    have hlt := weightOf_lt_count_fullPass he hzero
    omega
  · intro hpos calls p hrun
    obtain ⟨hbalanced, hpos⟩ := balanced_pos_run hcounter hfresh hpos hrun
    exact servesWeights_of_balanced hbalanced hpos

/-- The undisturbed runs of a configured selector keep to the weights exactly if no weight is 0;
    and then any disturbance leads to a pass that does not. -/
theorem servesWeights_iff [LawfulSort] {config : Node} {s : WeightedRoundRobinSelector}
    (h : configure config = .ok s) (client : Endpoint) :
    ((∀ calls p, Run (Under Undisturbed Step) (start s) calls p → p.ServesWeights) ↔
      ∀ e ∈ s.backends, 0 < e.weight) ∧
    ((∀ e ∈ s.backends, 0 < e.weight) →
      ∀ calls p call q, Run (Under Undisturbed Step) (start s) calls p → Step p call q →
        ¬ p.Undisturbed call → ∃ calls' r, Run Step q calls' r ∧ ¬ r.ServesWeights) := by
  have hcounter : s.counter = 0 := (configure_eq_ok h).1
  have hfresh := fresh_configure h
  refine ⟨servesWeights_iff_of_fresh hcounter hfresh client, ?_⟩
  intro hpos calls p call q hrun hstep hdisturbed
  obtain ⟨hbalanced, hpos⟩ := balanced_pos_run hcounter hfresh hpos hrun
  cases call with
  | select client' result => exact absurd trivial hdisturbed
  | exclude b result => exact disturbed_breaks hbalanced hpos hdisturbed hstep client

end WeightedPass

end

namespace WeightedPass

section

open Reference Selector WeightedRoundRobinSelector

theorem servesWeights_threeWeights : configure threeWeights = .ok descending ∧
    ∀ calls p, Run (Under Undisturbed Step) (start descending) calls p → p.ServesWeights := by
  have h : configure threeWeights = .ok descending := by rfl
  refine ⟨h, (servesWeights_iff h somebody).1.mpr ?_⟩
  simp [descending]

/-- A backend that is to be drained. -/
def oneDrained : Node := balancing [weightedEntry "80" "1", weightedEntry "81" "0"]

def twoEach : Node := balancing [weightedEntry "80" "2", weightedEntry "81" "2"]

def drained : WeightedRoundRobinSelector := ⟨[⟨port80, 1, 0⟩, ⟨port81, 0, 0⟩], 0⟩

def even : WeightedRoundRobinSelector := ⟨[⟨port80, 2, 0⟩, ⟨port81, 2, 0⟩], 0⟩

/-- Port 82 is excluded without being held while port 81 is in progress. -/
def disturbance : List Call :=
  [.select somebody (.returned port80), .select somebody (.returned port80),
    .select somebody (.returned port81), .exclude port82 (.returned ()),
    .select somebody (.returned port80), .select somebody (.returned port80)]

/-- The selector over `twoEach` at some cursor, with the progress of its two entries. -/
def evenAt (first second cursor : Nat) (served : List Backend) : WeightedPass :=
  ⟨⟨[⟨port80, 2, first⟩, ⟨port81, 2, second⟩], cursor⟩, served⟩

theorem run_disturbance :
    Run Step (start even) disturbance (evenAt 0 1 1 [port80, port80]) := by
  have h₁ : Step (start even) (.select somebody (.returned port80)) (evenAt 1 0 0 [port80]) :=
    ⟨by rfl, by rfl⟩
  have h₂ : Step (evenAt 1 0 0 [port80]) (.select somebody (.returned port80))
    (evenAt 0 0 1 [port80, port80]) := ⟨by rfl, by rfl⟩
  have h₃ : Step (evenAt 0 0 1 [port80, port80]) (.select somebody (.returned port81))
    (evenAt 0 1 1 [port80, port80, port81]) := ⟨by rfl, by rfl⟩
  have h₄ : Step (evenAt 0 1 1 [port80, port80, port81]) (.exclude port82 (.returned ()))
    (evenAt 0 1 0 []) := ⟨by rfl, by rfl⟩
  have h₅ : Step (evenAt 0 1 0 []) (.select somebody (.returned port80))
    (evenAt 1 1 0 [port80]) := ⟨by rfl, by rfl⟩
  have h₆ : Step (evenAt 1 1 0 [port80]) (.select somebody (.returned port80))
    (evenAt 0 1 1 [port80, port80]) := ⟨by rfl, by rfl⟩
  exact .cons h₁ (.cons h₂ (.cons h₃ (.cons h₄ (.cons h₅ (.one h₆)))))

/-- The second selection serves a backend of weight 0; and after the disturbance a pass serves
    one of weight 2 once. -/
theorem not_servesWeights_oneDrained :
    (configure oneDrained = .ok drained ∧
      ∃ p, Run (Under Undisturbed Step) (start drained) [.select somebody (.returned port80)] p ∧
        (p.selector.selectBackend somebody).1 = .returned port81 ∧
        weightOf p.selector.backends port81 = 0 ∧ ¬ p.ServesWeights) ∧
    configure twoEach = .ok even ∧
      ∃ p, Run Step (start even) disturbance p ∧ ¬ p.ServesWeights := by
  refine ⟨⟨by rfl, ⟨⟨[⟨port80, 1, 0⟩, ⟨port81, 0, 0⟩], 1⟩, [port80]⟩, ?_, by rfl, by decide, ?_⟩,
    by rfl, _, run_disturbance, ?_⟩
  · exact .one ⟨trivial, by rfl, by rfl⟩
  · intro h
    have hpositive : 0 < weightOf [⟨port80, 1, 0⟩, ⟨port81, 0, 0⟩] port81 :=
      h.drained somebody port81 (by rfl) ⟨⟨port80, 1, 0⟩, by simp, by decide⟩
    exact absurd hpositive (by decide)
  · intro h
    have hcount := h.completed somebody port81 (by rfl) (by rfl) port81
    exact absurd hcount (by decide)

end

end WeightedPass

end LoadBalancer
