/-
  Inversion of fallible computations that succeed.
-/
import Mathlib.Data.List.Forall2

namespace Except

universe u v

variable {ε : Type u} {α β : Type v}

/-- A sequence of two steps succeeds with `b` when the first succeeds and hands its result
    to a second step that succeeds with `b`. -/
theorem bind_eq_ok {x : Except ε α} {f : α → Except ε β} {b : β} :
    x >>= f = .ok b ↔ ∃ a, x = .ok a ∧ f a = .ok b := by
  cases x with
  | error e => simp [bind, Except.bind]
  | ok a => simp [bind, Except.bind]

theorem pure_eq_ok {a b : α} : (pure a : Except ε α) = .ok b ↔ a = b := by
  simp [pure, Except.pure]

theorem map_eq_ok {f : α → β} {x : Except ε α} {b : β} :
    f <$> x = .ok b ↔ ∃ a, x = .ok a ∧ f a = b := by
  cases x with
  | error e => simp [Functor.map, Except.map]
  | ok a => simp [Functor.map, Except.map]

theorem mapM_eq_ok {f : α → Except ε β} {l : List α} {bs : List β} :
    l.mapM f = .ok bs ↔ List.Forall₂ (fun a b => f a = .ok b) l bs := by
  induction l generalizing bs with
  | nil =>
      rw [List.mapM_nil, pure_eq_ok, List.forall₂_nil_left_iff]
      exact eq_comm
  | cons a l ih =>
      rw [List.mapM_cons, bind_eq_ok]
      constructor
      · intro hex
        obtain ⟨b, hb, h⟩ := hex
        obtain ⟨bs', hbs', h⟩ := bind_eq_ok.mp h
        rw [pure_eq_ok] at h
        exact h ▸ .cons hb (ih.mp hbs')
      · intro h
        obtain ⟨b, bs', hb, hbs', rfl⟩ := List.forall₂_cons_left_iff.mp h
        exact ⟨b, hb, bind_eq_ok.mpr ⟨bs', ih.mpr hbs', rfl⟩⟩

/-- Every item of a successful loop has its result. -/
theorem exists_of_mapM_eq_ok {f : α → Except ε β} {l : List α} {bs : List β}
    (h : l.mapM f = .ok bs) {a : α} (ha : a ∈ l) : ∃ b ∈ bs, f a = .ok b := by
  have hall := mapM_eq_ok.mp h
  induction hall with
  | nil => exact absurd ha List.not_mem_nil
  | cons hb htail ih =>
      rcases List.mem_cons.mp ha with rfl | ha
      · exact ⟨_, List.mem_cons_self, hb⟩
      · obtain ⟨b, hmem, hf⟩ := ih (mapM_eq_ok.mpr htail) ha
        exact ⟨b, List.mem_cons_of_mem _ hmem, hf⟩

/-- A predicate that every successful step keeps holds after a successful loop. -/
theorem foldlM_invariant {f : β → α → Except ε β} {I : β → Prop}
    (hstep : ∀ s a t, I s → f s a = .ok t → I t) {l : List α} {s t : β} (hs : I s)
    (h : l.foldlM f s = .ok t) : I t := by
  induction l generalizing s with
  | nil =>
      rw [List.foldlM_nil, pure_eq_ok] at h
      exact h ▸ hs
  | cons a l ih =>
      rw [List.foldlM_cons] at h
      obtain ⟨u, hu, h⟩ := bind_eq_ok.mp h
      exact ih (hstep _ _ _ hs hu) h

/-- A loop that reads an item and then uses it reads all items, and uses them in order. -/
theorem foldlM_bind_eq_ok {γ : Type v} {f : α → Except ε γ} {g : β → γ → Except ε β}
    {l : List α} {s t : β} (h : (l.foldlM (fun s a => f a >>= g s) s) = .ok t) :
    ∃ cs, l.mapM f = .ok cs ∧ cs.foldlM g s = .ok t := by
  induction l generalizing s with
  | nil => exact ⟨[], rfl, h⟩
  | cons a l ih =>
      rw [List.foldlM_cons] at h
      obtain ⟨u, hu, h⟩ := bind_eq_ok.mp h
      obtain ⟨c, hc, hu⟩ := bind_eq_ok.mp hu
      obtain ⟨cs, hcs, h⟩ := ih h
      refine ⟨c :: cs, mapM_eq_ok.mpr (.cons hc (mapM_eq_ok.mp hcs)), ?_⟩
      rw [List.foldlM_cons]
      exact bind_eq_ok.mpr ⟨u, hu, h⟩

theorem foldlM_bind_of_mapM {γ : Type v} {f : α → Except ε γ} {g : β → γ → Except ε β}
    {l : List α} {cs : List γ} {s t : β} (hcs : l.mapM f = .ok cs)
    (h : cs.foldlM g s = .ok t) : (l.foldlM (fun s a => f a >>= g s) s) = .ok t := by
  have hall := mapM_eq_ok.mp hcs
  clear hcs
  induction hall generalizing s with
  | nil => exact h
  | cons hc _ ih =>
      rw [List.foldlM_cons] at h ⊢
      obtain ⟨u, hu, h⟩ := bind_eq_ok.mp h
      exact bind_eq_ok.mpr ⟨u, bind_eq_ok.mpr ⟨_, hc, hu⟩, ih h⟩

end Except
