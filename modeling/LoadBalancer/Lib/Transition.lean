/-
  Finite runs of a labelled transition relation.

  `Run R s es t` says that the events `es`, taken in order, lead from `s` to `t`. A run
  grows at its end, so a fact about every reachable state is proved by `Run.invariant`:
  it holds at the start and one step preserves it. `Under ok R` keeps the steps of `R`
  that meet a condition on the state before the step and the event; a statement about
  "every run whose steps all meet `ok`" is a statement about `Run (Under ok R)`.
-/
import Mathlib.Data.List.Basic

namespace Transition

variable {σ τ ε ε' : Type*}

/-- The events `es` lead from the first state to the second by steps of `R`. -/
inductive Run (R : σ → ε → σ → Prop) : σ → List ε → σ → Prop where
  | nil (s : σ) : Run R s [] s
  | snoc {s t u : σ} {es : List ε} {e : ε} (run : Run R s es t) (step : R t e u) :
      Run R s (es ++ [e]) u

/-- The steps of `R` taken in a state and with an event that meet `ok`. -/
def Under (ok : σ → ε → Prop) (R : σ → ε → σ → Prop) (s : σ) (e : ε) (t : σ) : Prop :=
  ok s e ∧ R s e t

/-- The steps of a partial step function. -/
def Steps (step : σ → ε → Option σ) (s : σ) (e : ε) (t : σ) : Prop :=
  step s e = some t

variable {R R' : σ → ε → σ → Prop}

/-- A predicate that every step preserves holds at the end of a run if it holds at its
    start. -/
theorem Run.invariant {I : σ → Prop} (hstep : ∀ s e t, I s → R s e t → I t)
    {s t : σ} {es : List ε} (hrun : Run R s es t) (hs : I s) : I t := by
  induction hrun with
  | nil => exact hs
  | snoc _ step ih => exact hstep _ _ _ ih step

/-- The steps of a run start in states that meet its invariant. -/
theorem Run.under_invariant {I : σ → Prop} (hstep : ∀ s e t, I s → R s e t → I t)
    {s t : σ} {es : List ε} (hrun : Run R s es t) (hs : I s) :
    Run (Under (fun s _ => I s) R) s es t := by
  induction hrun with
  | nil => exact .nil _
  | snoc run step ih => exact .snoc ih ⟨run.invariant hstep hs, step⟩

theorem Run.mono (hsub : ∀ s e t, R s e t → R' s e t) {s t : σ} {es : List ε}
    (hrun : Run R s es t) : Run R' s es t := by
  induction hrun with
  | nil => exact .nil _
  | snoc _ step ih => exact .snoc ih (hsub _ _ _ step)

/-- A run whose steps meet a condition is a run. -/
theorem Run.of_under {ok : σ → ε → Prop} {s t : σ} {es : List ε}
    (hrun : Run (Under ok R) s es t) : Run R s es t :=
  hrun.mono fun _ _ _ h => h.2

/-- A run whose events meet a condition in every state is a run under the condition. -/
theorem Run.under_of_forall {ok : σ → ε → Prop} {s t : σ} {es : List ε}
    (hrun : Run R s es t) (h : ∀ e ∈ es, ∀ s, ok s e) : Run (Under ok R) s es t := by
  induction hrun with
  | nil => exact .nil _
  | snoc _ step ih =>
      have hlast := h _ (List.mem_append_right _ List.mem_cons_self)
      exact .snoc (ih fun e he => h e (List.mem_append_left _ he)) ⟨hlast _, step⟩

/-- Under an invariant, a condition may be replaced by one that it implies. -/
theorem Run.under_mono {I : σ → Prop} {ok ok' : σ → ε → Prop}
    (hstep : ∀ s e t, I s → R s e t → I t) (himp : ∀ s e, I s → ok s e → ok' s e)
    {s t : σ} {es : List ε} (hs : I s) (hrun : Run (Under ok R) s es t) :
    Run (Under ok' R) s es t := by
  apply (hrun.under_invariant (fun s e t h hok => hstep s e t h hok.2) hs).mono
  intro s e t h
  exact ⟨himp s e h.1 h.2.1, h.2.2⟩

/-- Two conditions that agree under an invariant, which the steps that meet one of them keep,
    allow the same runs. -/
theorem Run.under_congr {I : σ → Prop} {ok ok' : σ → ε → Prop}
    (hiff : ∀ s e, I s → (ok s e ↔ ok' s e))
    (hstep : ∀ s e t, I s → ok' s e → R s e t → I t) {s t : σ} {es : List ε} (hs : I s) :
    Run (Under ok R) s es t ↔ Run (Under ok' R) s es t := by
  have hkept : ∀ {t es}, Run (Under ok' R) s es t → I t := fun hrun =>
    hrun.invariant (fun s e t h hok => hstep s e t h hok.1 hok.2) hs
  constructor
  · intro hrun
    induction hrun with
    | nil => exact .nil _
    | snoc _ step ih => exact .snoc ih ⟨(hiff _ _ (hkept ih)).mp step.1, step.2⟩
  · intro hrun
    induction hrun with
    | nil => exact .nil _
    | snoc run step ih => exact .snoc ih ⟨(hiff _ _ (hkept run)).mpr step.1, step.2⟩

/-- A rank that falls at every step bounds the length of a run. -/
theorem Run.length_add_rank_le {I : σ → Prop} {rank : σ → ℕ}
    (hstep : ∀ s e t, I s → R s e t → I t) (hfall : ∀ s e t, I s → R s e t → rank t < rank s)
    {s t : σ} {es : List ε} (hs : I s) (hrun : Run R s es t) : es.length + rank t ≤ rank s := by
  induction hrun with
  | nil => simp
  | snoc run step ih =>
      have hlast := hfall _ _ _ (run.invariant hstep hs) step
      rw [List.length_append, List.length_singleton]
      omega

theorem Run.append {s t u : σ} {es fs : List ε} (h₁ : Run R s es t) (h₂ : Run R t fs u) :
    Run R s (es ++ fs) u := by
  induction h₂ with
  | nil => simpa using h₁
  | snoc _ step ih =>
      rw [← List.append_assoc]
      exact .snoc ih step

theorem Run.eq_of_nil {s t : σ} (hrun : Run R s [] t) : t = s := by
  generalize hes : ([] : List ε) = es at hrun
  cases hrun with
  | nil => rfl
  | snoc _ _ => simp at hes

/-- The last step of a run. -/
theorem Run.last {s t : σ} {es : List ε} {e : ε} (hrun : Run R s (es ++ [e]) t) :
    ∃ u, Run R s es u ∧ R u e t := by
  generalize hfs : es ++ [e] = fs at hrun
  cases hrun with
  | nil => simp at hfs
  | snoc run step =>
      obtain ⟨rfl, he⟩ := List.append_inj' hfs rfl
      obtain rfl := List.singleton_injective he
      exact ⟨_, run, step⟩

theorem Run.one {s t : σ} {e : ε} (step : R s e t) : Run R s [e] t :=
  .snoc (.nil s) step

theorem Run.cons {s t u : σ} {e : ε} {es : List ε} (step : R s e t) (h : Run R t es u) :
    Run R s (e :: es) u :=
  (Run.one step).append h

/-- Executing a partial step function along a list of events is a run of its steps. -/
theorem Run.of_foldlM {step : σ → ε → Option σ} {es : List ε} {s t : σ}
    (h : es.foldlM step s = some t) : Run (Steps step) s es t := by
  induction es generalizing s with
  | nil =>
      obtain rfl : s = t := by simpa using h
      exact .nil s
  | cons e es ih =>
      rw [List.foldlM_cons] at h
      obtain ⟨u, hu, hrest⟩ := Option.bind_eq_some_iff.mp h
      exact .cons hu (ih hrest)

/-- The same for a run whose steps meet a condition, tested before each step. -/
theorem Run.under_of_foldlM {step : σ → ε → Option σ} {ok : σ → ε → Prop}
    [∀ s e, Decidable (ok s e)] {es : List ε} {s t : σ}
    (h : es.foldlM (fun s e => if ok s e then step s e else none) s = some t) :
    Run (Under ok (Steps step)) s es t :=
  (Run.of_foldlM h).mono fun _ _ _ hstep => Option.ite_none_right_eq_some.mp hstep

/-- Stuttering simulation: if every step of `R` is, under `f`, a step of `R'` or no step
    at all, then every run of `R` is under `f` a run of `R'`. -/
theorem Run.simulate {Q : τ → ε' → τ → Prop} (f : σ → τ)
    (hsim : ∀ s e t, R s e t → f t = f s ∨ ∃ e', Q (f s) e' (f t))
    {s t : σ} {es : List ε} (hrun : Run R s es t) : ∃ es', Run Q (f s) es' (f t) := by
  induction hrun with
  | nil => exact ⟨[], .nil _⟩
  | snoc _ step ih =>
      obtain ⟨es', hes'⟩ := ih
      rcases hsim _ _ _ step with heq | ⟨e', he'⟩
      · exact ⟨es', heq ▸ hes'⟩
      · exact ⟨es' ++ [e'], .snoc hes' he'⟩

/-- The same for a relation between the states of the two systems. -/
theorem Run.simulate_rel {Q : τ → ε' → τ → Prop} {Rel : σ → τ → Prop}
    (hsim : ∀ s e t u, Rel s u → R s e t → Rel t u ∨ ∃ e' u', Q u e' u' ∧ Rel t u')
    {s t : σ} {es : List ε} {u : τ} (hrel : Rel s u) (hrun : Run R s es t) :
    ∃ es' u', Run Q u es' u' ∧ Rel t u' := by
  induction hrun with
  | nil => exact ⟨[], u, .nil u, hrel⟩
  | snoc _ step ih =>
      obtain ⟨es', v, hes', hv⟩ := ih
      rcases hsim _ _ _ v hv step with hsame | ⟨e', v', he', hv'⟩
      · exact ⟨es', v, hes', hsame⟩
      · exact ⟨es' ++ [e'], v', .snoc hes' he', hv'⟩

end Transition
