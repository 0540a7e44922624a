/-
  Association lists without repeated keys.
-/
import Mathlib.Data.List.Nodup

namespace List

variable {K V : Type*} [DecidableEq K]

/-- Where no key repeats, a lookup finds exactly the entries of the list. -/
theorem lookup_eq_some_iff_mem {l : List (K × V)} (hnd : (l.map Prod.fst).Nodup) {k : K}
    {v : V} : l.lookup k = some v ↔ (k, v) ∈ l := by
  induction l with
  | nil => simp
  | cons e es ih =>
      rw [map_cons, nodup_cons] at hnd
      rw [lookup_cons, mem_cons]
      by_cases hk : k = e.1
      · have hnot : (k, v) ∉ es := fun h => hnd.1 (hk ▸ mem_map_of_mem h)
        subst hk
        simp [hnot, Prod.ext_iff, eq_comm]
      · have hne : ¬ (k, v) = e := fun h => hk (congrArg Prod.fst h)
        rw [beq_eq_false_iff_ne.mpr hk, or_iff_right hne]
        exact ih hnd.2

omit [DecidableEq K] in
theorem nodup_map_fst_filter {l : List (K × V)} (hnd : (l.map Prod.fst).Nodup)
    (p : K × V → Bool) : ((l.filter p).map Prod.fst).Nodup :=
  (filter_sublist.map _).nodup hnd

end List
