/-
  The port of a URL whose authority names one.

  The pattern takes two to five digits after the first colon that is not part of the scheme's
  separator. A single digit makes no port group, so the URL has its protocol's default port and
  the colon goes to the path; of six digits or more the first five are the port and the others
  go to the path. Where the scheme is no word or the host has a colon, an earlier colon is
  taken for the one before the port. Neither is an error.

  `port_eq_iff`: the port is the one that the authority names if the scheme is a word, the host
  has no colon and the port two to five digits (`Plain`); otherwise only by chance, where the
  pattern comes upon the same digits at the earlier colon (`Coincides`).
-/
import LoadBalancer.Lib.Except
import LoadBalancer.Url.Language

namespace LoadBalancer

namespace Url

/-- What ends an authority. -/
def isDelimiter (c : Char) : Bool := c == '/' || c == '?' || c == '#'

/-- A scheme, if there is one, a host, the digits of a port, and what follows them. -/
structure Authority where
  scheme : Option (List Char)
  host : List Char
  run : List Char
  left : List Char

/-- The authority of the text is a host, a colon and a run of digits. The scheme and the host
    may have any characters but those that end an authority; a `://` that comes after one of
    these belongs to a path, a query or a fragment. -/
structure AuthorityPort (cs : List Char) (a : Authority) : Prop where
  text : cs = a.scheme.elim [] (· ++ separator) ++ (a.host ++ (':' :: (a.run ++ a.left)))
  scheme : ∀ p ∈ a.scheme, ∀ c ∈ p, isDelimiter c = false
  host_ne : a.host ≠ []
  host : ∀ c ∈ a.host, isDelimiter c = false
  run_ne : a.run ≠ []
  digits : ∀ c ∈ a.run, c.isDigit = true
  left : ∀ c ∈ a.left.head?, isDelimiter c = true

/-- What the pattern takes for a scheme. -/
def WordScheme (scheme : Option (List Char)) : Prop :=
  ∀ p ∈ scheme, p ≠ [] ∧ ∀ c ∈ p, isWord c = true

namespace Authority

/-- The pattern reads the scheme and the host as they are. -/
def Plain (a : Authority) : Prop := WordScheme a.scheme ∧ ':' ∉ a.host

/-- The pattern takes an earlier colon for the one before the port: after `name`, which it takes
    for the host of a URL with this protocol, comes a colon and then `after`. -/
inductive EarlierColon : Authority → String → List Char → Prop
  | host {scheme : Option (List Char)} {name after run left : List Char}
      (scheme_word : WordScheme scheme) (name_ne : name ≠ []) (name_colon : ':' ∉ name) :
      EarlierColon ⟨scheme, name ++ ':' :: after, run, left⟩ (scheme.elim "http" String.ofList)
        after
  | scheme {name after host run left : List Char} (name_colon : ':' ∉ name) :
      EarlierColon ⟨some (name ++ ':' :: after), host, run, left⟩ "http" after
  -- the colon of the separator, which two slashes follow
  | separator {name host run left : List Char} (name_colon : ':' ∉ name)
      (unread : (∃ c ∈ name, isWord c = false) ∨ host.head? = some ':') :
      EarlierColon ⟨some name, host, run, left⟩ "http" []

end Authority

/-- After a colon the pattern reads the port `run`: the digits there, five at most; or, where two
    digits are missing, the protocol's default port. -/
def ReadsPort (protocol : String) (after run : List Char) : Prop :=
  (2 ≤ run.length ∧ run.length ≤ 5 ∧ ∃ more, after = run ++ more ∧
    (run.length = 5 ∨ ∀ c ∈ more.head?, c.isDigit = false)) ∨
  (¬ Tail.PortAhead (':' :: after) ∧ defaultProtocolPort protocol = .ok (String.ofList run))

/-- The pattern finds the named port at an earlier colon. -/
def Authority.Coincides (a : Authority) : Prop :=
  ∃ protocol after, a.EarlierColon protocol after ∧ ReadsPort protocol after a.run

/-- The port is one that the pattern can read, where it reads it, or it comes upon it by chance. -/
def Authority.Fits (a : Authority) : Prop :=
  (a.Plain ∧ 2 ≤ a.run.length ∧ a.run.length ≤ 5) ∨ a.Coincides

/-- The number that a run of digits spells. -/
def portNumber (run : List Char) : Nat := Nat.ofDigitChars 10 run 0

theorem two_le_length_of_defaultProtocolPort {protocol port : String}
    (h : defaultProtocolPort protocol = .ok port) : 2 ≤ port.toList.length := by
  unfold defaultProtocolPort at h
  split at h
  · next p hp =>
    obtain rfl := Except.ok.inj h
    obtain ⟨before, after, heq, -⟩ := List.lookup_eq_some_iff.mp hp
    have hall : ∀ entry ∈ before ++ (protocol, p) :: after, 2 ≤ entry.2.toList.length := by
      rw [← heq]
      decide
    exact hall (protocol, p) (by simp)
  · cases h

theorem not_isDigit_of_delimiter {c : Char} (h : isDelimiter c = true) : c.isDigit = false := by
  simp only [isDelimiter, Bool.or_eq_true, beq_iff_eq] at h
  rcases h with (rfl | rfl) | rfl
  all_goals decide

theorem not_slash_of_not_delimiter {c : Char} (h : isDelimiter c = false) : c ≠ '/' := by
  rintro rfl
  cases h

/-- No slash comes first where a colon ends a text without delimiters. -/
theorem head_ne_slash {after rest : List Char} (hafter : ∀ c ∈ after, isDelimiter c = false) :
    ∀ c ∈ (after ++ ':' :: rest).head?, c ≠ '/' := by
  intro c hc
  cases after with
  | nil =>
      obtain rfl : ':' = c := Option.some.inj hc
      decide
  | cons d after =>
      obtain rfl : d = c := Option.some.inj hc
      exact not_slash_of_not_delimiter (hafter d List.mem_cons_self)

/-- One of two runs of digits at the front of a text goes on in the other's rest. -/
theorem digits_le {ds rest mid more : List Char} (hrest : rest = mid ++ more)
    (hmid : ∀ c ∈ mid, c.isDigit = true) (hfive : (ds ++ mid).length ≤ 5)
    (hlongest : ds.length = 5 ∨ ∀ c ∈ rest.head?, c.isDigit = false) : mid = [] := by
  cases mid with
  | nil => rfl
  | cons c mid =>
      rw [List.length_append, List.length_cons] at hfive
      have hno := hlongest.resolve_left (by omega) c (by simp [hrest])
      rw [hmid c List.mem_cons_self] at hno
      cases hno

/-- Only one run of at most five digits at the front of a text is longest. -/
theorem digits_unique {ds rest run more : List Char} (h : ds ++ rest = run ++ more)
    (hds : ∀ c ∈ ds, c.isDigit = true) (hrun : ∀ c ∈ run, c.isDigit = true)
    (hfive : ds.length ≤ 5) (hfive' : run.length ≤ 5)
    (hlongest : ds.length = 5 ∨ ∀ c ∈ rest.head?, c.isDigit = false)
    (hlongest' : run.length = 5 ∨ ∀ c ∈ more.head?, c.isDigit = false) : ds = run := by
  rcases List.append_eq_append_iff.mp h with ⟨mid, rfl, hrest⟩ | ⟨mid, rfl, hmore⟩
  · have hmid := digits_le hrest (fun c hc => hrun c (List.mem_append_right _ hc)) hfive' hlongest
    rw [hmid, List.append_nil]
  · have hmid := digits_le hmore (fun c hc => hds c (List.mem_append_right _ hc)) hfive hlongest'
    rw [hmid, List.append_nil]

theorem portAhead_of_digits {run more : List Char} (hrun : ∀ c ∈ run, c.isDigit = true)
    (hlen : 2 ≤ run.length) : Tail.PortAhead (':' :: (run ++ more)) := by
  match run, hlen with
  | d :: e :: run, _ => exact ⟨d, e, run ++ more, rfl, hrun d (by simp), hrun e (by simp)⟩

/-- What follows a character that is no digit does not matter. -/
theorem portAhead_append {after left : List Char} (hleft : ∀ c ∈ left.head?, c.isDigit = false) :
    Tail.PortAhead (':' :: (after ++ left)) ↔ Tail.PortAhead (':' :: after) := by
  constructor
  · intro h
    obtain ⟨d, e, rest, heq, hd, he⟩ := h
    obtain ⟨-, heq⟩ := List.cons.inj heq
    match after with
    | [] =>
        have hno := hleft d (by simp at heq; simp [heq])
        simp [hd] at hno
    | [c] =>
        have hno := hleft e (by simp at heq; simp [heq])
        simp [he] at hno
    | c :: c' :: after =>
        simp only [List.cons_append, List.cons.injEq] at heq
        obtain ⟨rfl, rfl, -⟩ := heq
        exact ⟨c, c', after, rfl, hd, he⟩
  · intro h
    obtain ⟨d, e, rest, heq, hd, he⟩ := h
    obtain ⟨-, rfl⟩ := List.cons.inj heq
    exact ⟨d, e, rest ++ left, rfl, hd, he⟩

/-- Two digits or more after the colon make a port. -/
theorem portAhead_iff {run left : List Char} (hrun : ∀ c ∈ run, c.isDigit = true)
    (hleft : ∀ c ∈ left.head?, c.isDigit = false) :
    Tail.PortAhead (':' :: (run ++ left)) ↔ 2 ≤ run.length := by
  constructor
  · intro h
    obtain ⟨d, e, rest, heq, -⟩ := (portAhead_append hleft).mp h
    obtain ⟨-, rfl⟩ := List.cons.inj heq
    simp
  · exact portAhead_of_digits hrun

theorem readsPort_append {protocol : String} {after left run : List Char}
    (hrun : ∀ c ∈ run, c.isDigit = true) (hleft : ∀ c ∈ left.head?, c.isDigit = false) :
    ReadsPort protocol (after ++ left) run ↔ ReadsPort protocol after run := by
  unfold ReadsPort
  rw [portAhead_append hleft]
  refine or_congr_left (and_congr_right fun _ => and_congr_right fun hfive => ?_)
  constructor
  · intro h
    obtain ⟨more, heq, hlongest⟩ := h
    rcases List.append_eq_append_iff.mp heq with ⟨mid, rfl, hmid⟩ | ⟨mid, rfl, rfl⟩
    · have hnil : mid = [] := by
        cases mid with
        | nil => rfl
        | cons c mid =>
            have hno := hleft c (by simp [hmid])
            rw [hrun c (by simp)] at hno
            cases hno
      subst hnil
      exact ⟨[], by simp, Or.inr (by simp)⟩
    · refine ⟨mid, rfl, hlongest.imp_right fun hmore c hc => hmore c ?_⟩
      cases mid with
      | nil => cases hc
      | cons d mid => exact hc
  · intro h
    obtain ⟨more, rfl, hlongest⟩ := h
    refine ⟨more ++ left, List.append_assoc _ _ _, hlongest.imp_right fun hmore c hc => ?_⟩
    cases more with
    | nil => exact hleft c hc
    | cons d more => exact hmore c hc

/-- A run of digits is read as the port where it has two to five of them. -/
theorem readsPort_self {protocol : String} {run left : List Char}
    (hrun : ∀ c ∈ run, c.isDigit = true) (hleft : ∀ c ∈ left.head?, c.isDigit = false) :
    ReadsPort protocol (run ++ left) run ↔ 2 ≤ run.length ∧ run.length ≤ 5 := by
  rw [readsPort_append hrun hleft]
  constructor
  · intro h
    rcases h with ⟨hleast, hmost, -⟩ | ⟨hahead, hdefault⟩
    · exact ⟨hleast, hmost⟩
    · have hlen := two_le_length_of_defaultProtocolPort hdefault
      rw [String.toList_ofList] at hlen
      refine absurd ?_ hahead
      simpa using @portAhead_of_digits run [] hrun hlen
  · intro h
    exact Or.inl ⟨h.1, h.2, [], (List.append_nil run).symm, Or.inr (by simp)⟩

@[simp] theorem Tail.rest_path (port : Option (List Char)) (path : List Char) :
    (Tail.mk port path none none).rest = path := by
  simp [Tail.rest, Tail.queryText, Tail.fragmentText]

/-- A port of two to five digits, and nothing after it. -/
theorem Tail.longest_port {ds : List Char} (hds : ∀ c ∈ ds, c.isDigit = true)
    (hlen : 2 ≤ ds.length ∧ ds.length ≤ 5) : (Tail.mk (some ds) [] none none).Longest where
  digits := by
    intro run hrun
    obtain rfl := Option.some.inj hrun
    exact ⟨hds, hlen⟩
  port_longest := fun _ _ => Or.inr (by simp)
  no_port := by simp
  path := by simp
  query := by simp
  fragment := by simp

/-- A single digit makes no port, so the colon begins the path. -/
theorem Tail.longest_digit {ds : List Char} (hds : ∀ c ∈ ds, c.isDigit = true)
    (hlen : ds.length < 2) : (Tail.mk none (':' :: ds) none none).Longest where
  digits := by simp
  port_longest := by simp
  no_port := by
    intro _ hahead
    have htwo := (@portAhead_iff ds [] hds (by simp)).mp
      (by simpa using hahead)
    omega
  path := by
    intro c hc
    rcases List.mem_cons.mp hc with rfl | hc
    · decide
    · exact isPathChar_of_word (isWord_of_digit (hds c hc))
  query := by simp
  fragment := by simp

/-- A colon that no slash follows ends the host, and makes no protocol of it. -/
theorem Split.longest_of_colon {scheme : Option (List Char)} {host left : List Char} {t : Tail}
    (hscheme : WordScheme scheme) (hhost : host ≠ []) (hchars : ∀ c ∈ host, isHostChar c = true)
    (hleft : ∀ c ∈ left.head?, c ≠ '/') (ht : t.Longest) (htext : t.text = ':' :: left) :
    (Split.mk scheme host t).Longest where
  scheme := hscheme
  no_scheme := by
    intro _
    show ¬ SchemeAhead (host ++ t.text)
    rw [htext]
    refine not_schemeAhead hchars (by simp; decide) fun c rest heq => ?_
    obtain ⟨-, rfl⟩ := List.cons.inj heq
    exact hleft c rfl
  host_ne := hhost
  host := hchars
  host_longest := by
    show ∀ c ∈ t.text.head?, isHostChar c = false
    rw [htext]
    simp
    decide
  tail := ht

/-- A colon and a digit end the host, and make no protocol of it. -/
theorem Split.longest_of_run {scheme : Option (List Char)} {host run left : List Char} {t : Tail}
    (hscheme : WordScheme scheme) (hhost : host ≠ [])
    (hchars : ∀ c ∈ host, isHostChar c = true) (hrun : ∀ c ∈ run, c.isDigit = true)
    (hne : run ≠ []) (ht : t.Longest) (htext : t.text = ':' :: (run ++ left)) :
    (Split.mk scheme host t).Longest := by
  refine Split.longest_of_colon hscheme hhost hchars (fun c hc => ?_) ht htext
  obtain ⟨d, run, rfl⟩ := List.exists_cons_of_ne_nil hne
  obtain rfl : d = c := Option.some.inj hc
  have hdigit := hrun d List.mem_cons_self
  rintro rfl
  cases hdigit

/-- The colons of two texts without colons before them are the same one. -/
theorem eq_of_append_colon {xs ys left right : List Char} (hxs : ':' ∉ xs) (hys : ':' ∉ ys)
    (h : xs ++ ':' :: left = ys ++ ':' :: right) : xs = ys ∧ left = right := by
  rcases List.append_eq_append_iff.mp h with ⟨mid, rfl, hmid⟩ | ⟨mid, rfl, hmid⟩
  all_goals
    cases mid with
    | nil => simpa [eq_comm] using hmid
    | cons c mid =>
        obtain ⟨rfl, -⟩ := List.cons.inj hmid
        simp at hxs hys

/-- A separator makes no protocol of a name that is no word, or where no host follows. -/
theorem Split.longest_of_separator {name left : List Char} {t : Tail} (hname : name ≠ [])
    (hchars : ∀ c ∈ name, isHostChar c = true) (hcolon : ':' ∉ name)
    (hunread : (∃ c ∈ name, isWord c = false) ∨ left.head? = some ':') (ht : t.Longest)
    (htext : t.text = separator ++ left) : (Split.mk none name t).Longest where
  scheme := by simp
  no_scheme := by
    intro _ hahead
    obtain ⟨scheme, right, heq, -, hword, c, hc, hhost⟩ := hahead
    have hsame : name ++ ':' :: ('/' :: '/' :: left) = scheme ++ ':' :: ('/' :: '/' :: right) := by
      have hauthority : name ++ t.text = scheme ++ (separator ++ right) := heq
      rwa [htext] at hauthority
    have hno : ':' ∉ scheme := fun hmem => absurd (hword _ hmem) (by decide)
    obtain ⟨rfl, hright⟩ := eq_of_append_colon hcolon hno hsame
    obtain rfl : left = right := (List.cons.inj (List.cons.inj hright).2).2
    rcases hunread with ⟨d, hd, hnot⟩ | hleft
    · rw [hword d hd] at hnot
      cases hnot
    · rw [hleft] at hc
      obtain rfl : ':' = c := Option.some.inj hc
      exact absurd hhost (by decide)
  host_ne := hname
  host := hchars
  host_longest := by
    show ∀ c ∈ t.text.head?, isHostChar c = false
    rw [htext]
    simp [separator]
    decide
  tail := ht

/-- A split whose host ends at a colon has the port that is read there. -/
theorem Split.port_eq_ok {sp : Split} (hsp : sp.Longest) {after run : List Char}
    (htext : sp.tail.text = ':' :: after) (hrun : ∀ c ∈ run, c.isDigit = true) :
    sp.port = .ok (String.ofList run) ↔ ReadsPort sp.protocol after run := by
  have hahead := Tail.portAhead_text hsp.tail
  rw [htext] at hahead
  unfold Split.port ReadsPort
  cases hport : sp.tail.port with
  | none =>
      have hno : ¬ Tail.PortAhead (':' :: after) := fun h => hahead.mp h hport
      rw [Option.elim_none, or_iff_right, and_iff_right hno]
      rintro ⟨hleast, -, more, rfl, -⟩
      exact hno (portAhead_of_digits hrun hleast)
  | some ds =>
      have hyes : Tail.PortAhead (':' :: after) := hahead.mpr (by simp [hport])
      obtain ⟨hdigits, hleast, hmost⟩ := hsp.tail.digits ds hport
      have hlongest := hsp.tail.port_longest ds hport
      rw [Tail.text, Tail.portText, hport] at htext
      obtain rfl : ds ++ sp.tail.rest = after := (List.cons.inj htext).2
      rw [Option.elim_some, or_iff_left fun h => h.1 hyes, Except.ok.injEq, String.ofList_inj]
      constructor
      · rintro rfl
        exact ⟨hleast, hmost, sp.tail.rest, rfl, hlongest⟩
      · intro h
        obtain ⟨-, hmost', more, heq, hlongest'⟩ := h
        exact digits_unique heq hdigits hrun hmost hmost' hlongest hlongest'

/-- The pattern splits the text after `name`, and reads the port at the colon there. -/
theorem port_of_split {text : String} {url : Url} (hurl : ofString text = .ok url)
    {scheme : Option (List Char)} {name after run : List Char}
    (htext : text.toList = scheme.elim [] (· ++ separator) ++ (name ++ (':' :: after)))
    (hsplit : ∀ {t : Tail}, t.Longest → t.text = ':' :: after → (Split.mk scheme name t).Longest)
    (hrun : ∀ c ∈ run, c.isDigit = true) :
    url.parts.port = String.ofList run ↔
      ReadsPort (scheme.elim "http" String.ofList) after run := by
  obtain ⟨t, ht, hafter⟩ := @exists_tail (':' :: after) fun c hc =>
    (accepted_of_ofString hurl).2.1 c (by rw [htext]; simp [hc])
  have hsp := hsplit ht hafter
  have hparse := ofString_eq_ok.mp ⟨url, hurl, rfl⟩
  have hwhole : (Split.mk scheme name t).text = text.toList := by
    rw [htext, ← hafter]
    rfl
  rw [← String.ofList_toList (s := text), ← hwhole, Split.parse_text hsp] at hparse
  obtain ⟨port, hport, hparts⟩ := Except.map_eq_ok.mp hparse
  have hvalue : url.parts.port = port := by rw [← hparts]; rfl
  have hreads := Split.port_eq_ok hsp hafter hrun
  rw [hport, Except.ok.injEq] at hreads
  rw [hvalue]
  exact hreads

namespace AuthorityPort

variable {text : String} {url : Url} {a : Authority}

theorem isHostChar_of_free {cs : List Char} (hspace : ∀ c ∈ cs, isSpace c = false)
    (hfree : ∀ c ∈ cs, isDelimiter c = false) (hcolon : ':' ∉ cs) :
    ∀ c ∈ cs, isHostChar c = true := by
  intro c hc
  refine isHostChar_eq_true.mpr ⟨not_slash_of_not_delimiter (hfree c hc), hspace c hc, ?_⟩
  rintro rfl
  exact hcolon hc

/-- Where the pattern reads the scheme and the host as they are, it reads the port at the colon
    before it. -/
theorem port_of_plain (h : AuthorityPort text.toList a) (hurl : ofString text = .ok url)
    (hplain : a.Plain) :
    url.parts.port = String.ofList a.run ↔ 2 ≤ a.run.length ∧ a.run.length ≤ 5 := by
  have hspace := (accepted_of_ofString hurl).2.1
  have hchars := isHostChar_of_free (fun c hc => hspace c (by rw [h.text]; simp [hc])) h.host
    hplain.2
  have hsplit : ∀ {t : Tail}, t.Longest → t.text = ':' :: (a.run ++ a.left) →
      (Split.mk a.scheme a.host t).Longest := fun ht htext =>
    Split.longest_of_run hplain.1 h.host_ne hchars h.digits h.run_ne ht htext
  rw [port_of_split hurl h.text hsplit h.digits]
  exact readsPort_self h.digits fun c hc => not_isDigit_of_delimiter (h.left c hc)

/-- Otherwise it reads one at the earlier colon. -/
theorem port_of_earlierColon (h : AuthorityPort text.toList a) (hurl : ofString text = .ok url)
    {protocol : String} {after : List Char} (hearlier : a.EarlierColon protocol after) :
    url.parts.port = String.ofList a.run ↔ ReadsPort protocol after a.run := by
  have haccepted := accepted_of_ofString hurl
  have hspace := haccepted.2.1
  cases hearlier with
  | @host scheme name _ run left hscheme hname hcolon =>
      have htext := h.text
      have hhost := h.host
      simp only [List.append_assoc, List.cons_append] at htext
      have hchars := isHostChar_of_free (fun c hc => hspace c (by rw [htext]; simp [hc]))
        (fun c hc => hhost c (List.mem_append_left _ hc)) hcolon
      have hleft : ∀ c ∈ (after ++ ':' :: (run ++ left)).head?, c ≠ '/' :=
        head_ne_slash fun c hc => hhost c (by simp [hc])
      rw [port_of_split hurl htext (fun ht h => Split.longest_of_colon hscheme hname hchars hleft
        ht h) h.digits]
      exact readsPort_append h.digits (by simp)
  | @scheme name _ host run left hcolon =>
      have htext := h.text
      have hscheme := h.scheme _ rfl
      simp only [Option.elim_some, List.append_assoc, List.cons_append] at htext
      have hname : name ≠ [] := by
        rintro rfl
        exact (haccepted.2.2 ':' (by rw [htext]; rfl)).2 rfl
      have hchars := isHostChar_of_free (fun c hc => hspace c (by rw [htext]; simp [hc]))
        (fun c hc => hscheme c (List.mem_append_left _ hc)) hcolon
      have hleft : ∀ c ∈ (after ++ (separator ++ (host ++ ':' :: (run ++ left)))).head?, c ≠ '/' :=
        head_ne_slash fun c hc => hscheme c (by simp [hc])
      have hnone : text.toList = Option.elim none [] (· ++ separator) ++
          (name ++ ':' :: (after ++ (separator ++ (host ++ ':' :: (run ++ left))))) := htext
      rw [port_of_split hurl hnone (fun ht h => Split.longest_of_colon (by simp [WordScheme]) hname
        hchars hleft ht h) h.digits]
      exact readsPort_append h.digits (by simp [separator])
  | @separator name host run left hcolon hunread =>
      have htext := h.text
      have hscheme := h.scheme _ rfl
      simp only [Option.elim_some, List.append_assoc] at htext
      have hname : name ≠ [] := by
        rintro rfl
        exact (haccepted.2.2 ':' (by rw [htext]; rfl)).2 rfl
      have hchars := isHostChar_of_free (fun c hc => hspace c (by rw [htext]; simp [hc]))
        hscheme hcolon
      have hhead : (host ++ ':' :: (run ++ left)).head? = host.head? := by
        obtain ⟨c, host', hhost⟩ := List.exists_cons_of_ne_nil h.host_ne
        simp only at hhost
        rw [hhost]
        rfl
      have hnone : text.toList = Option.elim none [] (· ++ separator) ++
          (name ++ ':' :: ([] ++ ('/' :: '/' :: (host ++ ':' :: (run ++ left))))) := htext
      rw [port_of_split hurl hnone (fun ht h => Split.longest_of_separator hname hchars hcolon
        (hunread.imp_right hhead.trans) ht h) h.digits]
      exact readsPort_append h.digits (by simp)

/-- The pattern reads the scheme and the host as they are, or an earlier colon. -/
theorem plain_or_earlierColon (h : AuthorityPort text.toList a) (hurl : ofString text = .ok url) :
    a.Plain ∨ ∃ protocol after, a.EarlierColon protocol after := by
  -- no accepted text begins with a colon
  have hhead : ∀ left, text.toList ≠ ':' :: left := fun left heq =>
    ((accepted_of_ofString hurl).2.2 ':' (by rw [heq]; rfl)).2 rfl
  have htext := h.text
  obtain ⟨scheme, host, run, left⟩ := a
  cases scheme with
  | none =>
      by_cases hcolon : ':' ∈ host
      · obtain ⟨name, after, rfl, hname⟩ := List.eq_append_cons_of_mem hcolon
        refine Or.inr ⟨_, _, .host (by simp [WordScheme]) ?_ hname⟩
        rintro rfl
        exact hhead _ htext
      · exact Or.inl ⟨by simp [WordScheme], hcolon⟩
  | some p =>
      by_cases hp : ':' ∈ p
      · obtain ⟨name, after, rfl, hname⟩ := List.eq_append_cons_of_mem hp
        exact Or.inr ⟨_, _, .scheme hname⟩
      by_cases hword : ∀ c ∈ p, isWord c = true
      · have hscheme : WordScheme (some p) := by
          rintro _ ⟨⟩
          refine ⟨?_, hword⟩
          rintro rfl
          exact hhead _ htext
        by_cases hcolon : ':' ∈ host
        · obtain ⟨name, after, rfl, hname⟩ := List.eq_append_cons_of_mem hcolon
          cases name with
          | nil => exact Or.inr ⟨_, _, .separator hp (Or.inr rfl)⟩
          | cons c name => exact Or.inr ⟨_, _, .host hscheme (List.cons_ne_nil c name) hname⟩
        · exact Or.inl ⟨hscheme, hcolon⟩
      · refine Or.inr ⟨_, _, .separator hp (Or.inl ?_)⟩
        simpa using hword

end AuthorityPort

/-- The port is the one that the authority names exactly where the pattern reads the scheme and
    the host as they are and the port has two to five digits, or by chance. -/
theorem port_eq_iff {text : String} {url : Url} (hurl : ofString text = .ok url) {a : Authority}
    (ha : AuthorityPort text.toList a) : url.parts.port = String.ofList a.run ↔ a.Fits := by
  constructor
  · intro hport
    rcases ha.plain_or_earlierColon hurl with hplain | ⟨protocol, after, hearlier⟩
    · exact Or.inl ⟨hplain, (ha.port_of_plain hurl hplain).mp hport⟩
    · exact Or.inr ⟨protocol, after, hearlier, (ha.port_of_earlierColon hurl hearlier).mp hport⟩
  · intro h
    rcases h with ⟨hplain, hlen⟩ | ⟨protocol, after, hearlier, hreads⟩
    · exact (ha.port_of_plain hurl hplain).mpr hlen
    · exact (ha.port_of_earlierColon hurl hearlier).mpr hreads

end Url

end LoadBalancer
