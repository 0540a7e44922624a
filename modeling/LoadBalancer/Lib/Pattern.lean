/-
  Greedy backtracking full matches with numbered groups.

  Repetition is over a single character class. `matchWith` takes the rest of the match as a
  continuation: a repetition first tries to take one more character and an optional part
  first tries to be present, and each falls back when the continuation fails.

  `Takes` is the language of a pattern, without any order of choices: `fullMatch` accepts the
  texts that the pattern can take (`fullMatch_isSome`). `First` says which text a pattern takes
  in its first attempt, one rule for each constructor; an attempt that the rest of the match
  does not reject is the match (`First.fullMatch`).
-/
import Mathlib.Logic.Function.Basic

/-- A pattern over characters. `many cls lo hi` is `cls{lo,hi}`, unbounded for `none`. -/
inductive Pattern where
  | text (s : List Char)
  | many (cls : Char → Bool) (lo : Nat) (hi : Option Nat)
  | seq (p q : Pattern)
  | opt (p : Pattern)
  | group (n : Nat) (p : Pattern)

namespace Pattern

/-- What each group took, if it took part in the match. -/
abbrev Captures := Nat → Option (List Char)

/-- `cls{lo,hi}` on the input, then `k` on what is left; the longest repetition for which
    `k` succeeds. -/
def repeatWith {β : Type*} (cls : Char → Bool) (lo : Nat) (hi : Option Nat) :
    List Char → (List Char → Option β) → Option β
  | [], k => if lo = 0 then k [] else none
  | c :: cs, k =>
    let stop := if lo = 0 then k (c :: cs) else none
    if cls c && hi != some 0 then
      (repeatWith cls (lo - 1) (hi.map (· - 1)) cs k).or stop
    else stop

/-- Match a prefix of the input, then `k` on what is left. -/
def matchWith {β : Type*} :
    Pattern → List Char → Captures → (List Char → Captures → Option β) → Option β
  | .text s, input, caps, k =>
    if s.isPrefixOf input then k (input.drop s.length) caps else none
  | .many cls lo hi, input, caps, k => repeatWith cls lo hi input fun rest => k rest caps
  | .seq p q, input, caps, k =>
    p.matchWith input caps fun rest caps => q.matchWith rest caps k
  | .opt p, input, caps, k => (p.matchWith input caps k).or (k input caps)
  | .group n p, input, caps, k =>
    p.matchWith input caps fun rest caps =>
      k rest (Function.update caps n (some (input.take (input.length - rest.length))))

/-- The captures of the first match that takes the whole input. -/
def fullMatch (p : Pattern) (input : List Char) : Option Captures :=
  p.matchWith input (fun _ => none) fun rest caps => if rest.isEmpty then some caps else none

/-- The text of a group, empty when it took no part. -/
def Captures.text (caps : Captures) (n : Nat) : String :=
  String.ofList ((caps n).getD [])

/-! ## The language of a pattern -/

/-- The pattern can take the text, and then leaves the captures. -/
inductive Takes : Pattern → Captures → List Char → Captures → Prop where
  | text {s : List Char} {caps : Captures} : Takes (.text s) caps s caps
  | many {cls : Char → Bool} {lo : Nat} {hi : Option Nat} {caps : Captures} {run : List Char}
      (chars : ∀ c ∈ run, cls c = true) (least : lo ≤ run.length)
      (most : ∀ n ∈ hi, run.length ≤ n) : Takes (.many cls lo hi) caps run caps
  | seq {p q : Pattern} {caps caps' caps'' : Captures} {xs ys : List Char}
      (left : Takes p caps xs caps') (right : Takes q caps' ys caps'') :
      Takes (.seq p q) caps (xs ++ ys) caps''
  | optSome {p : Pattern} {caps caps' : Captures} {xs : List Char} (taken : Takes p caps xs caps') :
      Takes (.opt p) caps xs caps'
  | optNone {p : Pattern} {caps : Captures} : Takes (.opt p) caps [] caps
  | group {n : Nat} {p : Pattern} {caps caps' : Captures} {xs : List Char}
      (taken : Takes p caps xs caps') :
      Takes (.group n p) caps xs (Function.update caps' n (some xs))

theorem take_append_sub {α : Type*} (xs ys : List α) :
    (xs ++ ys).take ((xs ++ ys).length - ys.length) = xs := by
  rw [List.length_append, Nat.add_sub_cancel, List.take_left]

section

variable {β : Type*}

/-- A repetition takes a run of its class and leaves what the continuation accepts. -/
theorem taken_of_repeatWith {cls : Char → Bool} {lo : Nat} {hi : Option Nat} {input : List Char}
    {k : List Char → Option β} {r : β} (h : repeatWith cls lo hi input k = some r) :
    ∃ run rest, input = run ++ rest ∧ (∀ c ∈ run, cls c = true) ∧ lo ≤ run.length ∧
      (∀ n ∈ hi, run.length ≤ n) ∧ k rest = some r := by
  have hstop : ∀ {lo : Nat} {hi : Option Nat} {input : List Char},
      (if lo = 0 then k input else none) = some r →
      ∃ run rest, input = run ++ rest ∧ (∀ c ∈ run, cls c = true) ∧ lo ≤ run.length ∧
        (∀ n ∈ hi, run.length ≤ n) ∧ k rest = some r := by
    intro lo hi input hk
    obtain ⟨rfl, hk⟩ := Option.ite_none_right_eq_some.mp hk
    exact ⟨[], input, rfl, by simp, Nat.le_refl 0, by simp, hk⟩
  induction input generalizing lo hi with
  | nil => exact hstop h
  | cons c cs ih =>
      unfold repeatWith at h
      dsimp only at h
      split at h
      · next hmore =>
        rw [Bool.and_eq_true, bne_iff_ne] at hmore
        rcases Option.or_eq_some_iff.mp h with h | ⟨-, h⟩
        · obtain ⟨run, rest, rfl, hrun, hleast, hmost, hk⟩ := ih h
          refine ⟨c :: run, rest, rfl, ?_, ?_, ?_, hk⟩
          · simpa using ⟨hmore.1, hrun⟩
          · rw [List.length_cons]
            omega
          · intro n hn
            have hlt := hmost (n - 1) (by simp [Option.mem_def.mp hn])
            have hne : n ≠ 0 := fun hzero => hmore.2 (hzero ▸ hn)
            rw [List.length_cons]
            omega
        · exact hstop h
      · exact hstop h

/-- If the continuation accepts what is left of a run, the repetition succeeds. -/
theorem repeatWith_isSome {cls : Char → Bool} {lo : Nat} {hi : Option Nat} {run rest : List Char}
    {k : List Char → Option β} (hrun : ∀ c ∈ run, cls c = true) (hlo : lo ≤ run.length)
    (hhi : ∀ n ∈ hi, run.length ≤ n) (hk : (k rest).isSome) :
    (repeatWith cls lo hi (run ++ rest) k).isSome := by
  induction run generalizing lo hi with
  | nil =>
      obtain rfl : lo = 0 := Nat.le_zero.mp hlo
      cases rest with
      | nil => simpa [repeatWith] using hk
      | cons c cs =>
          simp only [List.nil_append, repeatWith, if_pos]
          split
          · rw [Option.isSome_or, hk, Bool.or_true]
          · exact hk
  | cons c run ih =>
      have hc : cls c = true := hrun c List.mem_cons_self
      have hne : (hi != some 0) = true := by
        rw [bne_iff_ne]
        rintro rfl
        exact absurd (hhi 0 rfl) (by simp)
      have htail : (repeatWith cls (lo - 1) (hi.map (· - 1)) (run ++ rest) k).isSome := by
        refine ih (fun x hx => hrun x (List.mem_cons_of_mem _ hx)) ?_ ?_
        · rw [List.length_cons] at hlo
          omega
        · intro n hn
          obtain ⟨m, hm, rfl⟩ := Option.map_eq_some_iff.mp hn
          have hle := hhi m hm
          rw [List.length_cons] at hle
          omega
      rw [List.cons_append, repeatWith, if_pos (by rw [hc, hne]; rfl), Option.isSome_or, htail,
        Bool.true_or]

/-- A match takes a text of the pattern. -/
theorem takes_of_matchWith {p : Pattern} {input : List Char} {caps : Captures}
    {k : List Char → Captures → Option β} {r : β} (h : p.matchWith input caps k = some r) :
    ∃ taken rest caps', input = taken ++ rest ∧ Takes p caps taken caps' ∧
      k rest caps' = some r := by
  induction p generalizing input caps k with
  | text s =>
      obtain ⟨hpre, hk⟩ := Option.ite_none_right_eq_some.mp h
      obtain ⟨rest, rfl⟩ := List.isPrefixOf_iff_prefix.mp hpre
      rw [List.drop_left] at hk
      exact ⟨s, rest, caps, rfl, .text, hk⟩
  | many cls lo hi =>
      obtain ⟨run, rest, rfl, hrun, hlo, hhi, hk⟩ := taken_of_repeatWith h
      exact ⟨run, rest, caps, rfl, .many hrun hlo hhi, hk⟩
  | seq p q ihp ihq =>
      obtain ⟨xs, rest, caps', rfl, hp, hq⟩ := ihp h
      obtain ⟨ys, rest, caps'', rfl, hq, hk⟩ := ihq hq
      exact ⟨xs ++ ys, rest, caps'', (List.append_assoc _ _ _).symm, .seq hp hq, hk⟩
  | opt p ih =>
      rcases Option.or_eq_some_iff.mp h with h | ⟨-, hk⟩
      · obtain ⟨xs, rest, caps', rfl, hp, hk⟩ := ih h
        exact ⟨xs, rest, caps', rfl, .optSome hp, hk⟩
      · exact ⟨[], input, caps, rfl, .optNone, hk⟩
  | group n p ih =>
      obtain ⟨xs, rest, caps', rfl, hp, hk⟩ := ih h
      rw [take_append_sub] at hk
      exact ⟨xs, rest, _, rfl, .group hp, hk⟩

/-- Where the continuation accepts what a text of the pattern leaves, the match succeeds. -/
theorem matchWith_isSome {p : Pattern} {caps caps' : Captures} {taken rest : List Char}
    (h : Takes p caps taken caps') {k : List Char → Captures → Option β}
    (hk : (k rest caps').isSome) : (p.matchWith (taken ++ rest) caps k).isSome := by
  induction h generalizing rest k with
  | text =>
      rw [matchWith, if_pos (by simp), List.drop_left]
      exact hk
  | many chars least most => exact repeatWith_isSome chars least most hk
  | seq left right ihp ihq =>
      rw [List.append_assoc]
      exact ihp (ihq hk)
  | optSome taken ih =>
      rw [matchWith, Option.isSome_or, ih hk, Bool.true_or]
  | optNone =>
      rw [matchWith, Option.isSome_or, List.nil_append, hk, Bool.or_true]
  | group taken ih =>
      rw [matchWith]
      refine ih ?_
      rw [take_append_sub]
      exact hk

end

/-- A pattern accepts exactly the texts that it can take. -/
theorem fullMatch_isSome {p : Pattern} {input : List Char} :
    (p.fullMatch input).isSome ↔ ∃ caps, Takes p (fun _ => none) input caps := by
  constructor
  · intro h
    obtain ⟨caps, hcaps⟩ := Option.isSome_iff_exists.mp h
    obtain ⟨taken, rest, caps', rfl, htaken, hrest⟩ := takes_of_matchWith hcaps
    obtain ⟨hnil, -⟩ := Option.ite_none_right_eq_some.mp hrest
    rw [List.isEmpty_iff.mp hnil, List.append_nil]
    exact ⟨caps', htaken⟩
  · intro h
    obtain ⟨caps, htaken⟩ := h
    have hmatch := matchWith_isSome htaken
      (k := fun rest caps => if rest.isEmpty then some caps else none)
      (show (if ([] : List Char).isEmpty then some caps else none).isSome from rfl)
    rwa [List.append_nil] at hmatch

/-- Every character that the pattern can take meets the predicate. -/
def Only (q : Char → Prop) : Pattern → Prop
  | .text s => ∀ c ∈ s, q c
  | .many cls _ _ => ∀ c, cls c = true → q c
  | .seq p r => p.Only q ∧ r.Only q
  | .opt p => p.Only q
  | .group _ p => p.Only q

theorem Takes.only {q : Char → Prop} {p : Pattern} {caps caps' : Captures} {xs : List Char}
    (h : Takes p caps xs caps') (hp : p.Only q) : ∀ c ∈ xs, q c := by
  induction h with
  | text => exact hp
  | many chars => exact fun c hc => hp c (chars c hc)
  | seq left right ihp ihq =>
      intro c hc
      rcases List.mem_append.mp hc with hc | hc
      · exact ihp hp.1 c hc
      · exact ihq hp.2 c hc
  | optSome taken ih => exact ih hp
  | optNone => exact fun c hc => absurd hc List.not_mem_nil
  | group taken ih => exact ih hp

/-! ## The first attempt of a pattern -/

/-- On this input, the first attempt of the pattern takes the text and leaves the captures: it
    is the match, as long as what comes after it succeeds on the rest. -/
structure First (p : Pattern) (caps : Captures) (taken rest : List Char) (caps' : Captures) :
    Prop where
  matchWith : ∀ {β : Type} {k : List Char → Captures → Option β} {r : β}, k rest caps' = some r →
    p.matchWith (taken ++ rest) caps k = some r

namespace First

variable {p q : Pattern} {caps caps' caps'' : Captures} {xs ys rest : List Char}

theorem fullMatch (h : First p (fun _ => none) xs [] caps) : p.fullMatch xs = some caps := by
  have hmatch := h.matchWith (k := fun rest caps => if rest.isEmpty then some caps else none)
    (r := caps) rfl
  rwa [List.append_nil] at hmatch

theorem text (s : List Char) : First (.text s) caps s rest caps := by
  refine ⟨fun {β k r} hk => ?_⟩
  rw [Pattern.matchWith, if_pos (by simp), List.drop_left]
  exact hk

/-- A repetition takes the longest run there is. -/
theorem many {cls : Char → Bool} {lo : Nat} {hi : Option Nat} {run : List Char}
    (chars : ∀ c ∈ run, cls c = true) (least : lo ≤ run.length) (most : ∀ n ∈ hi, run.length ≤ n)
    (longest : (∃ n ∈ hi, run.length = n) ∨ ∀ c ∈ rest.head?, cls c = false) :
    First (.many cls lo hi) caps run rest caps := by
  refine ⟨fun {β k r} hk => ?_⟩
  show repeatWith cls lo hi (run ++ rest) (fun rest => k rest caps) = some r
  induction run generalizing lo hi with
  | nil =>
      obtain rfl : lo = 0 := Nat.le_zero.mp least
      cases rest with
      | nil => simpa [repeatWith] using hk
      | cons c cs =>
          have hstop : (cls c && hi != some 0) = false := by
            rw [Bool.and_eq_false_iff]
            rcases longest with ⟨n, hn, hzero⟩ | hclass
            · right
              rw [Option.mem_def.mp hn, ← hzero]
              rfl
            · exact Or.inl (hclass c rfl)
          rw [List.nil_append, repeatWith]
          simpa [hstop] using hk
  | cons c run ih =>
      have hc : cls c = true := chars c List.mem_cons_self
      have hne : (hi != some 0) = true := by
        rw [bne_iff_ne]
        rintro rfl
        exact absurd (most 0 rfl) (by simp)
      have htail : repeatWith cls (lo - 1) (hi.map (· - 1)) (run ++ rest)
          (fun rest => k rest caps) = some r := by
        rw [List.length_cons] at least
        refine ih (fun x hx => chars x (List.mem_cons_of_mem _ hx)) (by omega) ?_ ?_
        · intro n hn
          obtain ⟨m, hm, rfl⟩ := Option.map_eq_some_iff.mp hn
          have hle := most m hm
          rw [List.length_cons] at hle
          omega
        · refine longest.imp_left fun hex => ?_
          obtain ⟨n, hn, hlen⟩ := hex
          refine ⟨n - 1, Option.map_eq_some_iff.mpr ⟨n, hn, rfl⟩, ?_⟩
          rw [← hlen, List.length_cons, Nat.add_sub_cancel]
      rw [List.cons_append, repeatWith, if_pos (by rw [hc, hne]; rfl), htail]
      rfl

/-- Some run is the longest. -/
theorem exists_run (cls : Char → Bool) (hi : Option Nat) (cs : List Char) :
    ∃ run rest, cs = run ++ rest ∧ (∀ c ∈ run, cls c = true) ∧ (∀ n ∈ hi, run.length ≤ n) ∧
      ((∃ n ∈ hi, run.length = n) ∨ ∀ c ∈ rest.head?, cls c = false) := by
  induction cs generalizing hi with
  | nil => exact ⟨[], [], rfl, by simp, by simp, Or.inr (by simp)⟩
  | cons c cs ih =>
      by_cases hzero : hi = some 0
      · exact ⟨[], c :: cs, rfl, by simp, by simp, Or.inl ⟨0, hzero, rfl⟩⟩
      cases hc : cls c with
      | false => exact ⟨[], c :: cs, rfl, by simp, by simp, Or.inr (by simpa using hc)⟩
      | true =>
          obtain ⟨run, rest, rfl, hrun, hmost, hlongest⟩ := ih (hi.map (· - 1))
          have hpos : ∀ n ∈ hi, n ≠ 0 := fun n hn hnil => hzero (hnil ▸ hn)
          refine ⟨c :: run, rest, rfl, by simpa using ⟨hc, hrun⟩, fun n hn => ?_,
            hlongest.imp_left fun hex => ?_⟩
          · have hle := hmost (n - 1) (Option.mem_map_of_mem (· - 1) hn)
            have hne := hpos n hn
            rw [List.length_cons]
            omega
          · obtain ⟨m, hm, hlen⟩ := hex
            obtain ⟨n, hn, rfl⟩ := Option.map_eq_some_iff.mp hm
            have hne := hpos n hn
            refine ⟨n, hn, ?_⟩
            rw [List.length_cons]
            omega

theorem seq (hp : First p caps xs (ys ++ rest) caps') (hq : First q caps' ys rest caps'') :
    First (.seq p q) caps (xs ++ ys) rest caps'' := by
  refine ⟨fun {β k r} hk => ?_⟩
  rw [List.append_assoc]
  exact hp.matchWith (hq.matchWith hk)

theorem opt (h : First p caps xs rest caps') : First (.opt p) caps xs rest caps' := by
  refine ⟨fun {β k r} hk => ?_⟩
  rw [Pattern.matchWith, h.matchWith hk]
  rfl

/-- An optional part is left out where it can take no prefix of the input. -/
theorem skip (h : ∀ taken left caps', rest = taken ++ left → ¬ Takes p caps taken caps') :
    First (.opt p) caps [] rest caps := by
  refine ⟨fun {β k r} hk => ?_⟩
  have hnone : p.matchWith rest caps k = none := by
    cases hmatch : p.matchWith rest caps k with
    | none => rfl
    | some r' =>
        obtain ⟨taken, left, caps', heq, htaken, -⟩ := takes_of_matchWith hmatch
        exact absurd htaken (h taken left caps' heq)
  rw [Pattern.matchWith, List.nil_append, hnone]
  exact hk

/-- An optional part is left out where nothing that it takes lets the next pattern go on. -/
theorem skip_seq (h : ∀ taken next left caps' caps'', xs ++ rest = taken ++ (next ++ left) →
      Takes p caps taken caps' → ¬ Takes q caps' next caps'')
    (hq : First q caps xs rest caps') : First (.seq (.opt p) q) caps xs rest caps' := by
  refine ⟨fun {β k r} hk => ?_⟩
  have hnone : p.matchWith (xs ++ rest) caps (fun rest caps => q.matchWith rest caps k) = none := by
    cases hmatch : p.matchWith (xs ++ rest) caps (fun rest caps => q.matchWith rest caps k) with
    | none => rfl
    | some r' =>
        obtain ⟨taken, left, caps', heq, htaken, hrest⟩ := takes_of_matchWith hmatch
        obtain ⟨next, left, caps'', rfl, hnext, -⟩ := takes_of_matchWith hrest
        exact absurd hnext (h taken next left caps' caps'' heq htaken)
  rw [Pattern.matchWith, Pattern.matchWith, hnone]
  exact hq.matchWith hk

theorem group (n : Nat) (h : First p caps xs rest caps') :
    First (.group n p) caps xs rest (Function.update caps' n (some xs)) := by
  refine ⟨fun {β k r} hk => ?_⟩
  rw [Pattern.matchWith]
  refine h.matchWith ?_
  rw [take_append_sub]
  exact hk

end First

/-! ## A class of characters behind a mark -/

/-- `(c(cls{lo,hi}))` with the group numbers `outer` and `inner`. -/
def marked (outer inner : Nat) (c : Char) (cls : Char → Bool) (lo : Nat) (hi : Option Nat) :
    Pattern :=
  .group outer (.seq (.text [c]) (.group inner (.many cls lo hi)))

/-- The captures with those of two nested groups, if they took part in the match. -/
def Captures.note (caps : Captures) (outer inner : Nat) (wrap : List Char → List Char) :
    Option (List Char) → Captures
  | none => caps
  | some xs => Function.update (Function.update caps inner (some xs)) outer (some (wrap xs))

theorem Captures.note_apply (caps : Captures) (outer inner : Nat) (wrap : List Char → List Char)
    (x : Option (List Char)) (n : Nat) : caps.note outer inner wrap x n =
      if n = outer then (x.map wrap).or (caps n) else if n = inner then x.or (caps n) else caps n := by
  cases x with
  | none => simp [note]
  | some xs => simp only [note, Function.update_apply, Option.map_some, Option.some_or]

theorem takes_marked {outer inner lo : Nat} {c : Char} {cls : Char → Bool} {hi : Option Nat}
    {caps caps' : Captures} {xs : List Char}
    (h : Takes (marked outer inner c cls lo hi) caps xs caps') :
    ∃ run, xs = c :: run ∧ (∀ d ∈ run, cls d = true) ∧ lo ≤ run.length := by
  cases h with
  | group h =>
    cases h with
    | seq left right =>
      cases left
      cases right with
      | group h =>
        cases h with
        | many chars least most => exact ⟨_, rfl, chars, least⟩

theorem First.marked {outer inner lo : Nat} {c : Char} {cls : Char → Bool} {hi : Option Nat}
    {caps : Captures} {x : Option (List Char)} {rest : List Char}
    (present : ∀ run ∈ x, (∀ d ∈ run, cls d = true) ∧ lo ≤ run.length ∧
      (∀ n ∈ hi, run.length ≤ n) ∧
      ((∃ n ∈ hi, run.length = n) ∨ ∀ d ∈ rest.head?, cls d = false))
    (absent : x = none → ∀ run left, rest = c :: (run ++ left) →
      (∀ d ∈ run, cls d = true) → ¬ lo ≤ run.length) :
    First (.opt (marked outer inner c cls lo hi)) caps (x.elim [] (c :: ·)) rest
      (caps.note outer inner (c :: ·) x) := by
  cases x with
  | none =>
      refine First.skip fun taken left caps' heq htaken => ?_
      obtain ⟨run, rfl, hrun, hlo⟩ := takes_marked htaken
      exact absent rfl run left heq hrun hlo
  | some run =>
      obtain ⟨chars, least, most, longest⟩ := present run rfl
      exact First.opt (First.group _ (First.seq (First.text [c])
        (First.group _ (First.many chars least most longest))))

end Pattern
