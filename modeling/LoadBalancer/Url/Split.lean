/-
  How `Url::url_pattern` splits a text.

  A `Split` is a text cut into the parts of the pattern. It is `Longest` where each part is as
  long as the greedy pattern takes it: the host runs up to the next `/`, `:` or whitespace,
  the port has two to five digits, and a scheme is recognised wherever a host can follow it.
  The matcher finds the longest split of a text (`fullMatch_text`), and the texts that have
  one are those that begin with a host character and have no whitespace (`exists_split`,
  `isUrl_iff`). So results on the parser are results on longest splits.
-/
import LoadBalancer.Url

namespace LoadBalancer

namespace Url

open Pattern

/-- `[^/\s:]` -/
def isHostChar (c : Char) : Bool := !(c == '/' || isSpace c || c == ':')

/-- `[^?\s#]` -/
def isPathChar (c : Char) : Bool := !(c == '?' || isSpace c || c == '#')

/-- `[^\s#]` -/
def isQueryChar (c : Char) : Bool := !(isSpace c || c == '#')

def separator : List Char := [':', '/', '/']

/-- What follows the host. -/
structure Tail where
  port : Option (List Char)
  path : List Char
  query : Option (List Char)
  fragment : Option (List Char)

namespace Tail

def fragmentText (t : Tail) : List Char := t.fragment.elim [] ('#' :: ·)

def queryText (t : Tail) : List Char := t.query.elim [] ('?' :: ·)

def portText (t : Tail) : List Char := t.port.elim [] (':' :: ·)

/-- The text after the port. -/
def rest (t : Tail) : List Char := t.path ++ (t.queryText ++ t.fragmentText)

def text (t : Tail) : List Char := t.portText ++ t.rest

/-- A colon and the two digits that make a port. -/
def PortAhead (cs : List Char) : Prop :=
  ∃ d e left, cs = ':' :: d :: e :: left ∧ d.isDigit = true ∧ e.isDigit = true

/-- The parts as the pattern takes them. -/
structure Longest (t : Tail) : Prop where
  digits : ∀ ds ∈ t.port, (∀ c ∈ ds, c.isDigit = true) ∧ 2 ≤ ds.length ∧ ds.length ≤ 5
  port_longest : ∀ ds ∈ t.port, ds.length = 5 ∨ ∀ c ∈ t.rest.head?, c.isDigit = false
  no_port : t.port = none → ¬ PortAhead t.rest
  path : ∀ c ∈ t.path, isPathChar c = true
  query : ∀ cs ∈ t.query, ∀ c ∈ cs, isQueryChar c = true
  fragment : ∀ cs ∈ t.fragment, ∀ c ∈ cs, isSpace c = false

end Tail

structure Split where
  scheme : Option (List Char)
  host : List Char
  tail : Tail

/-- A scheme, its separator, and a host after it. -/
def SchemeAhead (cs : List Char) : Prop :=
  ∃ scheme left, cs = scheme ++ (separator ++ left) ∧ scheme ≠ [] ∧
    (∀ c ∈ scheme, isWord c = true) ∧ ∃ c ∈ left.head?, isHostChar c = true

namespace Split

def schemeText (sp : Split) : List Char := sp.scheme.elim [] (· ++ separator)

def authority (sp : Split) : List Char := sp.host ++ sp.tail.text

def text (sp : Split) : List Char := sp.schemeText ++ sp.authority

/-- The parts as the pattern takes them. -/
structure Longest (sp : Split) : Prop where
  scheme : ∀ cs ∈ sp.scheme, cs ≠ [] ∧ ∀ c ∈ cs, isWord c = true
  no_scheme : sp.scheme = none → ¬ SchemeAhead sp.authority
  host_ne : sp.host ≠ []
  host : ∀ c ∈ sp.host, isHostChar c = true
  host_longest : ∀ c ∈ sp.tail.text.head?, isHostChar c = false
  tail : sp.tail.Longest

end Split

/-! ## Characters -/

theorem toNat_of_space {c : Char} (h : isSpace c = true) : c.toNat ≤ 32 := by
  simp only [isSpace, Bool.or_eq_true, beq_iff_eq] at h
  rcases h with ((((rfl | rfl) | rfl) | rfl) | h) | h
  all_goals first | decide | omega

theorem toNat_of_word {c : Char} (h : isWord c = true) : 48 ≤ c.toNat := by
  delta isWord Char.isAlphanum Char.isAlpha Char.isUpper Char.isLower Char.isDigit at h
  simp only [Bool.or_eq_true, Bool.and_eq_true, decide_eq_true_eq, beq_iff_eq,
    UInt32.le_iff_toNat_le] at h
  rcases h with ((h | h) | h) | rfl
  · exact Nat.le_trans (by decide) h.1
  · exact Nat.le_trans (by decide) h.1
  · exact Nat.le_trans (by decide) h.1
  · decide

theorem isWord_of_digit {c : Char} (h : c.isDigit = true) : isWord c = true := by
  simp [isWord, Char.isAlphanum, h]

theorem isSpace_of_word {c : Char} (h : isWord c = true) : isSpace c = false := by
  by_contra hspace
  have hlow := toNat_of_space (by simpa using hspace)
  have hhigh := toNat_of_word h
  omega

theorem isHostChar_eq_true {c : Char} :
    isHostChar c = true ↔ c ≠ '/' ∧ isSpace c = false ∧ c ≠ ':' := by
  simp [isHostChar, and_assoc]

theorem isHostChar_eq_false {c : Char} (h : isSpace c = false) :
    isHostChar c = false ↔ c = '/' ∨ c = ':' := by
  simp [isHostChar, h, or_iff_not_imp_left]

theorem isHostChar_of_word {c : Char} (h : isWord c = true) : isHostChar c = true := by
  rw [isHostChar_eq_true]
  refine ⟨?_, isSpace_of_word h, ?_⟩
  · rintro rfl
    exact absurd h (by decide)
  · rintro rfl
    exact absurd h (by decide)

theorem isPathChar_eq_false {c : Char} (h : isSpace c = false) :
    isPathChar c = false ↔ c = '?' ∨ c = '#' := by
  simp [isPathChar, h, or_iff_not_imp_left]

theorem isPathChar_of_word {c : Char} (h : isWord c = true) : isPathChar c = true := by
  rw [← Bool.not_eq_false, isPathChar_eq_false (isSpace_of_word h)]
  rintro (rfl | rfl)
  · exact absurd h (by decide)
  · exact absurd h (by decide)

theorem isQueryChar_eq_false {c : Char} (h : isSpace c = false) :
    isQueryChar c = false ↔ c = '#' := by
  simp [isQueryChar, h]

theorem space_of_marked {mark : Char} {x : Option (List Char)} (hmark : isSpace mark = false)
    (hx : ∀ cs ∈ x, ∀ c ∈ cs, isSpace c = false) :
    ∀ c ∈ x.elim [] (mark :: ·), isSpace c = false := by
  intro c hc
  cases x with
  | none => exact absurd hc List.not_mem_nil
  | some cs =>
      rcases List.mem_cons.mp hc with rfl | hc
      · exact hmark
      · exact hx cs rfl c hc

theorem Tail.Longest.space {t : Tail} (ht : t.Longest) : ∀ c ∈ t.text, isSpace c = false := by
  intro c hc
  rw [Tail.text, Tail.rest, List.mem_append, List.mem_append, List.mem_append] at hc
  rcases hc with hc | hc | hc | hc
  · refine space_of_marked (by decide) (fun ds hds d hd => ?_) c hc
    exact isSpace_of_word (isWord_of_digit ((ht.digits ds hds).1 d hd))
  · have hpath := ht.path c hc
    simp only [isPathChar, Bool.not_eq_true', Bool.or_eq_false_iff] at hpath
    exact hpath.1.2
  · refine space_of_marked (by decide) (fun cs hcs d hd => ?_) c hc
    have hquery := ht.query cs hcs d hd
    simp only [isQueryChar, Bool.not_eq_true', Bool.or_eq_false_iff] at hquery
    exact hquery.1
  · exact space_of_marked (by decide) ht.fragment c hc

/-! ## The parts of the pattern -/

def schemePattern : Pattern :=
  .group 1 (.seq (.group 2 (.many isWord 1 none)) (.text separator))

def hostPattern : Pattern := .group 3 (.many isHostChar 1 none)

def portPattern : Pattern := .marked 4 5 ':' Char.isDigit 2 (some 5)

def pathPattern : Pattern := .group 6 (.many isPathChar 0 none)

def queryPattern : Pattern := .marked 7 8 '?' isQueryChar 0 none

def fragmentPattern : Pattern := .marked 9 10 '#' (fun c => !isSpace c) 0 none

def tailPattern : Pattern :=
  .seq (.opt portPattern) (.seq pathPattern (.seq (.opt queryPattern) (.opt fragmentPattern)))

theorem urlPattern_eq :
    urlPattern = .seq (.opt schemePattern) (.seq hostPattern tailPattern) := rfl

/-! ## The first attempt of the matcher -/

namespace Tail

variable {t : Tail}

/-- What the matcher records of the tail. -/
def captures (t : Tail) (caps : Captures) : Captures :=
  let caps : Captures := Function.update (caps.note 4 5 (':' :: ·) t.port) 6 (some t.path)
  (caps.note 7 8 ('?' :: ·) t.query).note 9 10 ('#' :: ·) t.fragment

theorem first_fragment (ht : t.Longest) (caps : Captures) :
    First (.opt fragmentPattern) caps t.fragmentText [] (caps.note 9 10 ('#' :: ·) t.fragment) := by
  refine First.marked (fun run hrun => ?_) (fun _ run left h => by cases h)
  exact ⟨by simpa using ht.fragment run hrun, Nat.zero_le _, by simp, Or.inr (by simp)⟩

theorem first_query (ht : t.Longest) (caps : Captures) :
    First (.opt queryPattern) caps t.queryText (t.fragmentText ++ [])
      (caps.note 7 8 ('?' :: ·) t.query) := by
  refine First.marked (fun run hrun => ?_) (fun _ run left h => ?_)
  · refine ⟨ht.query run hrun, Nat.zero_le _, by simp, Or.inr fun c hc => ?_⟩
    unfold fragmentText at hc
    cases hfragment : t.fragment with
    | none => simp [hfragment] at hc
    | some cs =>
        obtain rfl : '#' = c := by simpa [hfragment] using hc
        decide
  · unfold fragmentText at h
    cases hfragment : t.fragment with
    | none => simp [hfragment] at h
    | some cs => simp [hfragment] at h

theorem head?_query_fragment (t : Tail) :
    ∀ c ∈ (t.queryText ++ t.fragmentText).head?, c = '?' ∨ c = '#' := by
  intro c hc
  unfold queryText fragmentText at hc
  cases hquery : t.query with
  | some cs =>
      obtain rfl : '?' = c := by simpa [hquery] using hc
      exact Or.inl rfl
  | none =>
      cases hfragment : t.fragment with
      | none => simp [hquery, hfragment] at hc
      | some cs =>
          obtain rfl : '#' = c := by simpa [hquery, hfragment] using hc
          exact Or.inr rfl

theorem first_path (ht : t.Longest) (caps : Captures) :
    First pathPattern caps t.path ((t.queryText ++ t.fragmentText) ++ [])
      (Function.update caps 6 (some t.path)) := by
  refine First.group 6 (First.many ht.path (Nat.zero_le _) (by simp) (Or.inr fun c hc => ?_))
  rw [List.append_nil] at hc
  rcases t.head?_query_fragment c hc with rfl | rfl
  · decide
  · decide

theorem first_port (ht : t.Longest) (caps : Captures) :
    First (.opt portPattern) caps t.portText (t.rest ++ []) (caps.note 4 5 (':' :: ·) t.port) := by
  rw [List.append_nil]
  refine First.marked (fun run hrun => ?_) (fun hnone run left h hrun hlength => ?_)
  · obtain ⟨hdigits, hleast, hmost⟩ := ht.digits run hrun
    refine ⟨hdigits, hleast, by simpa using hmost, ?_⟩
    exact (ht.port_longest run hrun).imp_left fun hfive => ⟨5, rfl, hfive⟩
  · obtain ⟨d, e, digits, rfl⟩ : ∃ d e digits, run = d :: e :: digits := by
      match run, hlength with
      | d :: e :: digits, _ => exact ⟨d, e, digits, rfl⟩
    exact ht.no_port hnone ⟨d, e, digits ++ left, h, hrun d (by simp), hrun e (by simp)⟩

theorem first (ht : t.Longest) (caps : Captures) :
    First tailPattern caps t.text [] (t.captures caps) :=
  First.seq (first_port ht caps) (First.seq (first_path ht _)
    (First.seq (first_query ht _) (first_fragment ht _)))

end Tail

namespace Split

variable {sp : Split}

/-- What the matcher records of the text. -/
def captures (sp : Split) : Captures :=
  sp.tail.captures
    (Function.update (Captures.note (fun _ => none) 1 2 (· ++ separator) sp.scheme) 3 (some sp.host))

theorem first_host (hsp : sp.Longest) (caps : Captures) :
    First hostPattern caps sp.host (sp.tail.text ++ []) (Function.update caps 3 (some sp.host)) := by
  rw [List.append_nil]
  exact First.group 3 (First.many hsp.host (List.length_pos_iff.mpr hsp.host_ne) (by simp)
    (Or.inr hsp.host_longest))

theorem takes_scheme {caps caps' : Captures} {xs : List Char}
    (h : Takes schemePattern caps xs caps') :
    ∃ scheme, xs = scheme ++ separator ∧ scheme ≠ [] ∧ ∀ c ∈ scheme, isWord c = true := by
  cases h with
  | group h =>
    cases h with
    | seq left right =>
      cases right
      cases left with
      | group h =>
        cases h with
        | many chars least most => exact ⟨_, rfl, List.length_pos_iff.mp least, chars⟩

theorem takes_host {caps caps' : Captures} {xs : List Char} (h : Takes hostPattern caps xs caps') :
    xs ≠ [] ∧ ∀ c ∈ xs, isHostChar c = true := by
  cases h with
  | group h =>
    cases h with
    | many chars least _ => exact ⟨List.length_pos_iff.mp least, chars⟩

theorem first (hsp : sp.Longest) :
    First urlPattern (fun _ => none) sp.text [] sp.captures := by
  have hauthority : ∀ caps, First (.seq hostPattern tailPattern) caps sp.authority []
      (sp.tail.captures (Function.update caps 3 (some sp.host))) :=
    fun caps => First.seq (first_host hsp caps) (Tail.first hsp.tail _)
  rw [urlPattern_eq, text, captures]
  cases hscheme : sp.scheme with
  | some cs =>
      obtain ⟨hne, hword⟩ := hsp.scheme cs hscheme
      have hfirst : First schemePattern (fun _ => none) (cs ++ separator) (sp.authority ++ []) _ :=
        First.group 1 (First.seq (First.group 2 (First.many hword (List.length_pos_iff.mpr hne)
          (by simp) (Or.inr (by simp [separator]; decide)))) (First.text separator))
      rw [schemeText, hscheme]
      exact First.seq (First.opt hfirst) (hauthority _)
  | none =>
      rw [schemeText, hscheme]
      refine First.skip_seq (fun taken next left caps' caps'' heq htaken hnext => ?_) (hauthority _)
      obtain ⟨scheme, rfl, hne, hword⟩ := takes_scheme htaken
      cases hnext with
      | @seq _ _ _ _ _ host rest hhost _ =>
        obtain ⟨hhostne, hchars⟩ := takes_host hhost
        obtain ⟨c, host, rfl⟩ := List.exists_cons_of_ne_nil hhostne
        refine hsp.no_scheme hscheme ⟨scheme, c :: host ++ rest ++ left, ?_, hne, hword, c, rfl,
          hchars c List.mem_cons_self⟩
        simpa using heq

/-- The matcher finds the longest split. -/
theorem fullMatch_text (hsp : sp.Longest) : urlPattern.fullMatch sp.text = some sp.captures :=
  First.fullMatch (first hsp)

/-- What each group takes. -/
theorem captures_apply (sp : Split) (n : Nat) : sp.captures n =
    match n with
    | 1 => sp.scheme.map (· ++ separator)
    | 2 => sp.scheme
    | 3 => some sp.host
    | 4 => sp.tail.port.map (':' :: ·)
    | 5 => sp.tail.port
    | 6 => some sp.tail.path
    | 7 => sp.tail.query.map ('?' :: ·)
    | 8 => sp.tail.query
    | 9 => sp.tail.fragment.map ('#' :: ·)
    | 10 => sp.tail.fragment
    | _ => none := by
  split
  all_goals simp [captures, Tail.captures, Captures.note_apply, Function.update_apply]
  split
  all_goals simp_all

end Split

/-! ## Every text that can be split has a longest split -/

/-- A host is no scheme unless a word or a slash after a colon follows it. -/
theorem not_schemeAhead {host left : List Char} (hhost : ∀ c ∈ host, isHostChar c = true)
    (hword : ∀ c ∈ left.head?, isWord c = false)
    (hslash : ∀ c rest, left = ':' :: c :: rest → c ≠ '/') : ¬ SchemeAhead (host ++ left) := by
  intro h
  obtain ⟨scheme, rest, heq, -, hscheme, -⟩ := h
  rcases List.append_eq_append_iff.mp heq with ⟨more, rfl, hleft⟩ | ⟨more, rfl, hrest⟩
  · cases more with
    | nil => exact hslash '/' _ hleft rfl
    | cons c more =>
        have hnot := hword c (by simp [hleft])
        have hyes := hscheme c (by simp)
        simp [hyes] at hnot
  · cases more with
    | nil => exact hslash '/' _ hrest.symm rfl
    | cons c more =>
        -- the separator's colon would be a host character
        obtain ⟨rfl, -⟩ := List.cons.inj hrest
        exact absurd (hhost ':' (by simp)) (by decide)

theorem exists_fragment {cs : List Char} (hspace : ∀ c ∈ cs, isSpace c = false)
    (hhead : ∀ c ∈ cs.head?, c = '#') :
    ∃ fragment : Option (List Char), cs = fragment.elim [] ('#' :: ·) ∧
      ∀ run ∈ fragment, ∀ c ∈ run, isSpace c = false := by
  cases cs with
  | nil => exact ⟨none, rfl, by simp⟩
  | cons c cs =>
      obtain rfl := hhead c rfl
      exact ⟨some cs, rfl, by simpa using fun c hc => hspace c (List.mem_cons_of_mem _ hc)⟩

theorem exists_query {cs : List Char} (hspace : ∀ c ∈ cs, isSpace c = false)
    (hhead : ∀ c ∈ cs.head?, c = '?' ∨ c = '#') :
    ∃ query : Option (List Char), ∃ left, cs = query.elim [] ('?' :: ·) ++ left ∧
      (∀ run ∈ query, ∀ c ∈ run, isQueryChar c = true) ∧ ∀ c ∈ left.head?, c = '#' := by
  cases cs with
  | nil => exact ⟨none, [], rfl, by simp, by simp⟩
  | cons c cs =>
      rcases hhead c rfl with rfl | rfl
      · obtain ⟨run, left, rfl, hrun, -, hlast⟩ := First.exists_run isQueryChar none cs
        refine ⟨some run, left, rfl, by simpa using hrun, fun c hc => ?_⟩
        have hmem : c ∈ '?' :: (run ++ left) :=
          List.mem_cons_of_mem _ (List.mem_append_right _ (List.mem_of_mem_head? hc))
        have hclass := hlast.resolve_left (by simp) c hc
        exact (isQueryChar_eq_false (hspace c hmem)).mp hclass
      · exact ⟨none, '#' :: cs, rfl, by simp, by simp⟩

/-- The part after the port. -/
theorem exists_rest {cs : List Char} (hspace : ∀ c ∈ cs, isSpace c = false) :
    ∃ path query fragment, cs = (Tail.mk none path query fragment).rest ∧
      (∀ c ∈ path, isPathChar c = true) ∧ (∀ run ∈ query, ∀ c ∈ run, isQueryChar c = true) ∧
      ∀ run ∈ fragment, ∀ c ∈ run, isSpace c = false := by
  obtain ⟨path, left, rfl, hpath, -, hlast⟩ := First.exists_run isPathChar none cs
  have hleft : ∀ c ∈ left, isSpace c = false := fun c hc => hspace c (List.mem_append_right _ hc)
  obtain ⟨query, left', rfl, hquery, hhead⟩ := exists_query hleft fun c hc =>
    (isPathChar_eq_false (hleft c (List.mem_of_mem_head? hc))).mp
      (hlast.resolve_left (by simp) c hc)
  obtain ⟨fragment, rfl, hfragment⟩ := exists_fragment
    (fun c hc => hleft c (List.mem_append_right _ hc)) hhead
  exact ⟨path, query, fragment, rfl, hpath, hquery, hfragment⟩

theorem exists_tail {cs : List Char} (hspace : ∀ c ∈ cs, isSpace c = false) :
    ∃ t : Tail, t.Longest ∧ t.text = cs := by
  by_cases hport : Tail.PortAhead cs
  · obtain ⟨d, e, left, rfl, hd, he⟩ := hport
    obtain ⟨digits, left', rfl, hdigits, hmost, hlongest⟩ :=
      First.exists_run Char.isDigit (some 3) left
    obtain ⟨path, query, fragment, rfl, hpath, hquery, hfragment⟩ := @exists_rest left'
      fun c hc => hspace c (by simp [hc])
    refine ⟨⟨some (d :: e :: digits), path, query, fragment⟩, ⟨?_, ?_, ?_, hpath, hquery,
      hfragment⟩, rfl⟩
    · rintro ds ⟨⟩
      have hle := hmost 3 rfl
      refine ⟨by simpa [hd, he] using hdigits, ?_, ?_⟩
      all_goals
        simp only [List.length_cons]
        omega
    · rintro ds ⟨⟩
      refine hlongest.imp_left fun hex => ?_
      obtain ⟨n, ⟨⟩, hlen⟩ := hex
      simp only [List.length_cons, hlen]
    · rintro ⟨⟩
  · obtain ⟨path, query, fragment, rfl, hpath, hquery, hfragment⟩ := exists_rest hspace
    exact ⟨⟨none, path, query, fragment⟩, ⟨by simp, by simp, fun _ => hport, hpath, hquery,
      hfragment⟩, rfl⟩

/-- The texts of the pattern: a host character at the front and no whitespace. -/
def Accepted (cs : List Char) : Prop :=
  cs ≠ [] ∧ (∀ c ∈ cs, isSpace c = false) ∧ ∀ c ∈ cs.head?, c ≠ '/' ∧ c ≠ ':'

/-- A host and what follows it are a longest split. -/
theorem exists_longest {scheme : Option (List Char)} {cs : List Char}
    (hscheme : ∀ xs ∈ scheme, xs ≠ [] ∧ ∀ c ∈ xs, isWord c = true)
    (hno : scheme = none → ¬ SchemeAhead cs) (hcs : Accepted cs) :
    ∃ sp : Split, sp.Longest ∧ sp.scheme = scheme ∧ sp.authority = cs := by
  obtain ⟨hne, hspace, hhead⟩ := hcs
  obtain ⟨host, left, rfl, hhost, -, hlast⟩ := First.exists_run isHostChar none cs
  obtain ⟨t, ht, rfl⟩ := @exists_tail left fun c hc =>
    hspace c (List.mem_append_right _ hc)
  refine ⟨⟨scheme, host, t⟩, ⟨hscheme, hno, ?_, hhost, hlast.resolve_left (by simp), ht⟩, rfl, rfl⟩
  -- the first character is one of the host's
  rintro rfl
  obtain ⟨c, cs, heq⟩ := List.exists_cons_of_ne_nil hne
  rw [List.nil_append] at heq
  have hc : c ∈ t.text.head? := by simp [heq]
  have hstart := hhead c (by simpa using hc)
  have hclass := hlast.resolve_left (by simp) c hc
  have hfree := hspace c (by simp [heq])
  rw [isHostChar_eq_false hfree] at hclass
  exact hclass.elim hstart.1 hstart.2

theorem exists_split {cs : List Char} (hcs : Accepted cs) :
    ∃ sp : Split, sp.Longest ∧ sp.text = cs := by
  by_cases hscheme : SchemeAhead cs
  · obtain ⟨scheme, left, rfl, hne, hword, c, hc, hhost⟩ := hscheme
    have hleft : Accepted left := by
      refine ⟨?_, fun d hd => hcs.2.1 d (by simp [hd]), fun d hd => ?_⟩
      · rintro rfl
        exact absurd hc (by simp)
      · obtain rfl := Option.mem_unique hc hd
        exact ⟨(isHostChar_eq_true.mp hhost).1, (isHostChar_eq_true.mp hhost).2.2⟩
    obtain ⟨sp, hsp, hsome, rfl⟩ := @exists_longest (some scheme) left
      (by rintro xs ⟨⟩; exact ⟨hne, hword⟩) (by simp) hleft
    refine ⟨sp, hsp, ?_⟩
    rw [Split.text, Split.schemeText, hsome]
    simp
  · obtain ⟨sp, hsp, hnone, rfl⟩ := @exists_longest none cs (by simp)
      (fun _ => hscheme) hcs
    refine ⟨sp, hsp, ?_⟩
    rw [Split.text, Split.schemeText, hnone]
    rfl

/-! ## What the parser accepts and reads -/

theorem only_urlPattern : urlPattern.Only (isSpace · = false) := by
  simp only [urlPattern, Only, List.forall_mem_cons, List.not_mem_nil, false_imp_iff,
    implies_true, and_true, Bool.not_eq_true', Bool.or_eq_false_iff]
  refine ⟨⟨fun c => isSpace_of_word, by decide⟩, fun c h => h.1.2, ⟨by decide, fun c h =>
    isSpace_of_word (isWord_of_digit h)⟩, fun c h => h.1.2, ⟨by decide, fun c h => h.1⟩, by decide,
    fun c h => h⟩

theorem accepted_of_takes {caps caps' : Captures} {cs : List Char}
    (h : Takes urlPattern caps cs caps') : Accepted cs := by
  have hhead : ∃ c cs', cs = c :: cs' ∧ isHostChar c = true := by
    rw [urlPattern_eq] at h
    cases h with
    | seq left right =>
      cases left with
      | optSome taken =>
        obtain ⟨scheme, rfl, hne, hword⟩ := Split.takes_scheme taken
        obtain ⟨c, scheme, rfl⟩ := List.exists_cons_of_ne_nil hne
        exact ⟨c, _, rfl, isHostChar_of_word (hword c List.mem_cons_self)⟩
      | optNone =>
        cases right with
        | seq hhost _ =>
          obtain ⟨hne, hchars⟩ := Split.takes_host hhost
          obtain ⟨c, host, rfl⟩ := List.exists_cons_of_ne_nil hne
          exact ⟨c, _, rfl, hchars c List.mem_cons_self⟩
  obtain ⟨c, cs', rfl, hc⟩ := hhead
  refine ⟨by simp, h.only only_urlPattern, ?_⟩
  rintro d ⟨⟩
  exact ⟨(isHostChar_eq_true.mp hc).1, (isHostChar_eq_true.mp hc).2.2⟩

theorem isUrl_iff {s : String} : isUrl s = true ↔ Accepted s.toList := by
  rw [isUrl, matchUrl, fullMatch_isSome]
  constructor
  · intro h
    obtain ⟨caps, htaken⟩ := h
    exact accepted_of_takes htaken
  · intro h
    obtain ⟨sp, hsp, htext⟩ := exists_split h
    rw [← htext]
    exact fullMatch_isSome.mp (by rw [Split.fullMatch_text hsp]; rfl)

namespace Split

variable {sp : Split}

def protocol (sp : Split) : String := sp.scheme.elim "http" String.ofList

def port (sp : Split) : Except Exception String :=
  sp.tail.port.elim (defaultProtocolPort sp.protocol) fun ds => .ok (String.ofList ds)

/-- What the constructor makes of the parts. -/
def parts (sp : Split) (port : String) : UrlParts where
  protocol := sp.protocol
  hostname := String.ofList sp.host
  port := port
  path := String.ofList sp.tail.path
  query := String.ofList (sp.tail.query.getD [])
  fragment := String.ofList (sp.tail.fragment.getD [])

theorem parse_text (hsp : sp.Longest) :
    parse (String.ofList sp.text) = sp.parts <$> sp.port := by
  have hmatch : matchUrl (String.ofList sp.text) = some sp.captures := by
    rw [matchUrl, String.toList_ofList, fullMatch_text hsp]
  have hprotocol : (if sp.captures.text 2 ≠ "" then sp.captures.text 2 else "http") =
      sp.protocol := by
    rw [Captures.text, captures_apply, protocol]
    cases hscheme : sp.scheme with
    | none => rfl
    | some cs =>
        have hne := (hsp.scheme cs hscheme).1
        rw [if_pos]
        · rfl
        · simpa using hne
  have hport : (if sp.captures.text 5 ≠ "" then pure (sp.captures.text 5)
      else defaultProtocolPort sp.protocol) = sp.port := by
    rw [Captures.text, captures_apply, port]
    cases hdigits : sp.tail.port with
    | none => rfl
    | some ds =>
        have hne : ds ≠ [] := by
          rintro rfl
          exact absurd (hsp.tail.digits [] hdigits).2.1 (by simp)
        rw [if_pos]
        · rfl
        · simpa using hne
  rw [parse, hmatch, ← hport]
  simp only [hprotocol]
  simp only [Captures.text, captures_apply, Option.getD_some]
  split
  · rfl
  · cases defaultProtocolPort sp.protocol with
    | error e => rfl
    | ok port => rfl

end Split

end Url

end LoadBalancer
