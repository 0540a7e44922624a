/-
  The language of the URL parser and its two reasons to fail.

  A text is accepted exactly when it begins with a host character and has no whitespace. The
  constructor throws on every other text, and on a text whose protocol it does not know and
  which gives no port (`Unported`). The parts of an accepted text are all of it.
-/
import LoadBalancer.Url.Split

namespace LoadBalancer

namespace Url

open Pattern

/-- The protocols that have a default port. -/
def knownProtocols : List String := ["http", "https", "ftp", "ssh"]

/-- An unknown protocol, and a host run that no port follows. -/
def Unported (cs : List Char) : Prop :=
  ∃ protocol host left, cs = protocol ++ (separator ++ (host ++ left)) ∧
    protocol ≠ [] ∧ (∀ c ∈ protocol, isWord c = true) ∧ String.ofList protocol ∉ knownProtocols ∧
    host ≠ [] ∧ (∀ c ∈ host, isHostChar c = true) ∧ (∀ c ∈ left.head?, isHostChar c = false) ∧
    ¬ Tail.PortAhead left

theorem not_unported_of_no_slash {cs : List Char} (h : '/' ∉ cs) : ¬ Unported cs := by
  intro hunported
  obtain ⟨protocol, host, left, rfl, -⟩ := hunported
  exact h (by simp [separator])

theorem defaultProtocolPort_eq_error {protocol : String} :
    (∃ e, defaultProtocolPort protocol = .error e) ↔ protocol ∉ knownProtocols := by
  unfold defaultProtocolPort
  split
  · next port hport =>
    have hkey : protocol ∈ knownProtocols := by
      obtain ⟨entry, hentry, hkey⟩ := List.lookup_isSome_iff.mp (Option.isSome_of_eq_some hport)
      rw [beq_iff_eq.mp hkey]
      exact List.mem_map_of_mem (f := Prod.fst) hentry
    simpa using hkey
  · next hnone =>
    have hkeys := List.lookup_eq_none_iff.mp hnone
    simpa [knownProtocols] using hkeys

theorem ofString_eq_error {s : String} {e : Exception} :
    ofString s = .error e ↔ parse s = .error e := by
  unfold ofString
  split
  · next parts hparts => simp [hparts]
  · next e' he => simp [he]

theorem ofString_eq_ok {s : String} {parts : UrlParts} :
    (∃ url, ofString s = .ok url ∧ url.parts = parts) ↔ parse s = .ok parts := by
  unfold ofString
  split
  · next parts' hparts => simp [hparts]
  · next e he => simp [he]

/-- A `Url` is what the constructor makes of its text. -/
theorem ofString_wholeUrl (url : Url) : ofString url.wholeUrl = .ok url := by
  obtain ⟨s, parts, hparts⟩ := url
  unfold ofString
  split
  · exact congrArg Except.ok (ext rfl)
  · next e he =>
    rw [hparts] at he
    cases he

theorem accepted_of_ofString {s : String} {url : Url} (h : ofString s = .ok url) :
    Accepted s.toList := by
  have hparse := ofString_eq_ok.mp ⟨url, h, rfl⟩
  rw [← isUrl_iff, isUrl]
  unfold parse at hparse
  split at hparse
  · cases hparse
  · next results hresults => rw [hresults, Option.isSome_some]

/-- The matched parts with their separators. -/
def joined (results : Captures) : List Char :=
  (results 2).elim [] (· ++ separator) ++ (results 3).getD [] ++ (results 5).elim [] (':' :: ·) ++
    (results 6).getD [] ++ (results 8).elim [] ('?' :: ·) ++ (results 10).elim [] ('#' :: ·)

namespace Split

variable {sp : Split}

theorem joined_captures (sp : Split) : joined sp.captures = sp.text := by
  simp [joined, captures_apply, text, schemeText, authority, Tail.text, Tail.rest, Tail.portText,
    Tail.queryText, Tail.fragmentText]

/-- A longest split without a port throws exactly when its protocol is unknown. -/
theorem port_eq_error : (∃ e, sp.port = .error e) ↔
    sp.tail.port = none ∧ ∃ protocol ∈ sp.scheme, String.ofList protocol ∉ knownProtocols := by
  unfold port
  cases sp.tail.port with
  | some ds => simp
  | none =>
      rw [Option.elim_none, defaultProtocolPort_eq_error, protocol]
      cases sp.scheme with
      | none => simp [knownProtocols]
      | some cs => simp

end Split

theorem Tail.portAhead_text {t : Tail} (ht : t.Longest) :
    Tail.PortAhead t.text ↔ t.port ≠ none := by
  cases hport : t.port with
  | none =>
      have hno := ht.no_port hport
      simpa [Tail.text, Tail.portText, hport] using hno
  | some ds =>
      obtain ⟨hdigits, hleast, -⟩ := ht.digits ds hport
      obtain ⟨d, e, left, rfl⟩ : ∃ d e left, ds = d :: e :: left := by
        cases ds with
        | nil => simp at hleast
        | cons d ds =>
            cases ds with
            | nil => simp at hleast
            | cons e left => exact ⟨d, e, left, rfl⟩
      refine iff_of_true ⟨d, e, left ++ t.rest, ?_, hdigits d (by simp), hdigits e (by simp)⟩
        (by simp)
      simp [Tail.text, Tail.portText, hport]

/-- A split with a scheme is the longest one of its text. -/
theorem Split.longest_of_scheme {protocol host : List Char} {t : Tail} (hne : protocol ≠ [])
    (hword : ∀ c ∈ protocol, isWord c = true) (hhost : host ≠ [])
    (hchars : ∀ c ∈ host, isHostChar c = true) (hlast : ∀ c ∈ t.text.head?, isHostChar c = false)
    (ht : t.Longest) : (Split.mk (some protocol) host t).Longest where
  scheme := by
    rintro cs ⟨⟩
    exact ⟨hne, hword⟩
  no_scheme := by simp
  host_ne := hhost
  host := hchars
  host_longest := hlast
  tail := ht

theorem parse_eq_error {s : String} (haccepted : Accepted s.toList) :
    (∃ e, parse s = .error e) ↔ Unported s.toList := by
  have hmap : ∀ {sp : Split}, sp.Longest → s.toList = sp.text →
      ((∃ e, parse s = .error e) ↔ ∃ e, sp.port = .error e) := by
    intro sp hsp htext
    rw [← String.ofList_toList (s := s), htext, Split.parse_text hsp]
    cases sp.port with
    | error e => simp [Functor.map, Except.map]
    | ok port => simp [Functor.map, Except.map]
  constructor
  · intro h
    obtain ⟨sp, hsp, htext⟩ := exists_split haccepted
    obtain ⟨hport, protocol, hscheme, hunknown⟩ :=
      Split.port_eq_error.mp ((hmap hsp htext.symm).mp h)
    obtain ⟨hne, hword⟩ := hsp.scheme protocol hscheme
    refine ⟨protocol, sp.host, sp.tail.text, ?_, hne, hword, hunknown, hsp.host_ne, hsp.host,
      hsp.host_longest, fun hahead => (Tail.portAhead_text hsp.tail).mp hahead hport⟩
    rw [← htext, Split.text, Split.schemeText, Option.mem_def.mp hscheme]
    simp [Split.authority]
  · intro h
    obtain ⟨protocol, host, left, htext, hne, hword, hunknown, hhost, hchars, hlast, hport⟩ := h
    obtain ⟨t, ht, rfl⟩ := @exists_tail left fun c hc =>
      haccepted.2.1 c (by simp [htext, hc])
    have hsp := Split.longest_of_scheme hne hword hhost hchars hlast ht
    refine (hmap hsp ?_).mpr (Split.port_eq_error.mpr ⟨?_, protocol, rfl, hunknown⟩)
    · simp [htext, Split.text, Split.schemeText, Split.authority]
    · exact not_not.mp (mt (Tail.portAhead_text ht).mpr hport)

theorem exists_ofString {s : String} :
    (∃ url, ofString s = .ok url) ↔ Accepted s.toList ∧ ¬ Unported s.toList := by
  constructor
  · intro h
    obtain ⟨url, hurl⟩ := h
    have haccepted := accepted_of_ofString hurl
    refine ⟨haccepted, fun hunported => ?_⟩
    obtain ⟨e, he⟩ := (parse_eq_error haccepted).mpr hunported
    rw [← ofString_eq_error, hurl] at he
    cases he
  · intro h
    obtain ⟨haccepted, hported⟩ := h
    cases hurl : ofString s with
    | ok url => exact ⟨url, rfl⟩
    | error e => exact absurd ((parse_eq_error haccepted).mp ⟨e, ofString_eq_error.mp hurl⟩) hported

/-- The constructor throws on a text that is no URL and on one that names no port, and on no
    other; the matched parts of an accepted text, with their separators, are the text. -/
theorem accepted_language (s : String) :
    (isUrl s = true ↔ s ≠ "" ∧ (∀ c ∈ s.toList, isSpace c = false) ∧
      ∀ c ∈ s.toList.head?, c ≠ '/' ∧ c ≠ ':') ∧
    ((∃ e, ofString s = .error e) ↔ isUrl s = false ∨ Unported s.toList) ∧
    ∀ results, matchUrl s = some results → joined results = s.toList := by
  refine ⟨?_, ?_, fun results hresults => ?_⟩
  · rw [isUrl_iff, Accepted, ne_eq, String.toList_eq_nil_iff]
  · have hthrows : (∃ e, ofString s = .error e) ↔ ¬ ∃ url, ofString s = .ok url := by
      cases ofString s with
      | error e => simp
      | ok url => simp
    rw [hthrows, exists_ofString, ← isUrl_iff, not_and_or, not_not, Bool.not_eq_true]
  · have hurl : isUrl s = true := by rw [isUrl, hresults]; rfl
    obtain ⟨sp, hsp, htext⟩ := exists_split (isUrl_iff.mp hurl)
    rw [matchUrl, ← htext, Split.fullMatch_text hsp] at hresults
    rw [← Option.some.inj hresults, Split.joined_captures, htext]

end Url

end LoadBalancer
