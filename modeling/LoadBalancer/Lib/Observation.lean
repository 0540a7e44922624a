/-
  What is observed along a run.

  `observations step obs s es` lists what `obs` sees of the steps that the events `es` take from
  `s`, each in the state before it. A run grows at its end and so does the list
  (`observations_snoc`). If every step of one system makes, as the system `R` over a part of its
  state, the steps that are observed, then a run makes the run of all of them (`run_observed`),
  and what is observed of the latter can be observed of the former (`observations_observed`).
-/
import LoadBalancer.Lib.Transition

namespace Transition

variable {σ τ ε ω : Type*} {step : σ → ε → Option σ}

def observations (step : σ → ε → Option σ) (obs : σ → ε → Option ω) : σ → List ε → List ω
  | _, [] => []
  | s, e :: es =>
    (obs s e).toList ++
      match step s e with
      | some t => observations step obs t es
      | none => []

/-- A run is an execution of the step function. -/
theorem Run.foldlM {s t : σ} {es : List ε} (hrun : Run (Steps step) s es t) :
    es.foldlM step s = some t := by
  induction hrun with
  | nil => rfl
  | snoc _ hstep ih =>
      unfold Steps at hstep
      rw [List.foldlM_append, ih]
      simpa using hstep

/-- An execution that does not get stuck is a run. -/
theorem Run.of_isSome {s : σ} {es : List ε} (h : (es.foldlM step s).isSome = true) (d : σ) :
    Run (Steps step) s es ((es.foldlM step s).getD d) := by
  obtain ⟨t, ht⟩ := Option.isSome_iff_exists.mp h
  rw [ht]
  exact .of_foldlM ht

theorem observations_append {obs : σ → ε → Option ω} {s t : σ} {es : List ε}
    (hrun : Run (Steps step) s es t) (fs : List ε) :
    observations step obs s (es ++ fs) =
      observations step obs s es ++ observations step obs t fs := by
  have h := hrun.foldlM
  clear hrun
  induction es generalizing s with
  | nil =>
      obtain rfl : s = t := by simpa using h
      rfl
  | cons e es ih =>
      rw [List.foldlM_cons] at h
      obtain ⟨u, hu, hrest⟩ := Option.bind_eq_some_iff.mp h
      simp only [List.cons_append, observations, hu, ih hrest, List.append_assoc]

theorem observations_one (obs : σ → ε → Option ω) (s : σ) (e : ε) :
    observations step obs s [e] = (obs s e).toList := by
  simp only [observations]
  cases step s e <;> exact List.append_nil _

theorem observations_snoc {obs : σ → ε → Option ω} {s t : σ} {es : List ε}
    (hrun : Run (Steps step) s es t) (e : ε) :
    observations step obs s (es ++ [e]) = observations step obs s es ++ (obs t e).toList := by
  rw [observations_append hrun, observations_one]

theorem filterMap_toList {α β : Type*} (o : Option α) (f : α → Option β) :
    o.toList.filterMap f = (o.bind f).toList := by
  cases o with
  | none => rfl
  | some a => cases hf : f a <;> simp [hf]

/-- What is read off the observations. -/
theorem filterMap_observations {α : Type*} (obs : σ → ε → Option ω) (f : ω → Option α) (s : σ)
    (es : List ε) : (observations step obs s es).filterMap f =
      observations step (fun s e => (obs s e).bind f) s es := by
  induction es generalizing s with
  | nil => rfl
  | cons e es ih =>
      simp only [observations, List.filterMap_append, filterMap_toList]
      cases step s e with
      | none => rfl
      | some t => rw [ih]

/-- Two observations that agree on the steps of a run agree on the run. -/
theorem observations_congr {obs obs' : σ → ε → Option ω}
    (h : ∀ s e t, step s e = some t → obs s e = obs' s e) {s t : σ} {es : List ε}
    (hrun : Run (Steps step) s es t) :
    observations step obs s es = observations step obs' s es := by
  induction hrun with
  | nil => rfl
  | snoc hrun hstep ih => rw [observations_snoc hrun, observations_snoc hrun, ih, h _ _ _ hstep]

/-- A step that makes one step of `R` or none makes them along a run, in their order. -/
theorem run_observed {R : τ → ω → τ → Prop} {f : σ → τ} {obs : σ → ε → Option ω} {I : σ → Prop}
    (hkeep : ∀ s e t, I s → step s e = some t → I t)
    (hobs : ∀ s e t, I s → step s e = some t → Run R (f s) (obs s e).toList (f t))
    {s t : σ} {es : List ε} (hs : I s) (hrun : Run (Steps step) s es t) :
    Run R (f s) (observations step obs s es) (f t) := by
  induction hrun with
  | nil => exact .nil _
  | snoc hrun hstep ih =>
      have ht := hrun.invariant hkeep hs
      rw [observations_snoc hrun]
      exact ih.append (hobs _ _ _ ht hstep)

/-- What is observed of the steps that a run makes is observed of the run. -/
theorem observations_observed {α : Type*} {step' : τ → ω → Option τ} {f : σ → τ}
    {obs : σ → ε → Option ω} {g : τ → ω → Option α}
    (hobs : ∀ s e t, step s e = some t → Run (Steps step') (f s) (obs s e).toList (f t))
    {s t : σ} {es : List ε} (hrun : Run (Steps step) s es t) :
    observations step' g (f s) (observations step obs s es) =
      observations step (fun s e => (obs s e).bind (g (f s))) s es := by
  induction hrun with
  | nil => rfl
  | @snoc u v es e hrun hstep ih =>
      have hmade := run_observed (I := fun _ => True) (fun _ _ _ _ _ => trivial)
        (fun _ _ _ _ hstep => hobs _ _ _ hstep) trivial hrun
      rw [observations_snoc hrun, observations_snoc hrun, observations_append hmade, ih]
      cases obs u e with
      | none => rfl
      | some o => rw [Option.toList_some, observations_one]; rfl

end Transition
