/-
  Reading back a URL that was put together from its parts.

  A `Components` has the parts a caller would write: the host stops before `?` and `#`, the
  path starts with `/`. The pattern's host class does not leave these two characters out, so
  where neither a port nor a path stands between the host and a query or a fragment the host
  runs on (`HostRunsOn`). Everywhere else the parts are a longest split and are read back.
-/
import LoadBalancer.Lib.Except
import LoadBalancer.Url.Language

namespace LoadBalancer

namespace Url

/-- The parts of a URL, each without the characters that end it. -/
structure Components extends Split where
  scheme_word : ∀ cs ∈ scheme, cs ≠ [] ∧ ∀ c ∈ cs, isWord c = true
  known : tail.port = none → ∀ cs ∈ scheme, String.ofList cs ∈ knownProtocols
  host_ne : host ≠ []
  host_chars : ∀ c ∈ host, isHostChar c = true ∧ c ≠ '?' ∧ c ≠ '#'
  port_digits : ∀ ds ∈ tail.port, (∀ c ∈ ds, c.isDigit = true) ∧ 2 ≤ ds.length ∧ ds.length ≤ 5
  path_head : ∀ c ∈ tail.path.head?, c = '/'
  path_chars : ∀ c ∈ tail.path, isPathChar c = true
  query_chars : ∀ cs ∈ tail.query, ∀ c ∈ cs, isQueryChar c = true
  fragment_chars : ∀ cs ∈ tail.fragment, ∀ c ∈ cs, isSpace c = false

namespace Components

variable {u : Components}

/-- `[protocol "://"] host [":" port] path ["?" query] ["#" fragment]` -/
def assemble (u : Components) : String := String.ofList u.text

/-- The parts that the constructor is to read, each the one that was written. -/
structure ReadBack (u : Components) (parts : UrlParts) : Prop where
  protocol : parts.protocol = u.scheme.elim "http" String.ofList
  hostname : parts.hostname = String.ofList u.host
  port : ∀ ds ∈ u.tail.port, parts.port = String.ofList ds
  defaultPort : u.tail.port = none → defaultProtocolPort parts.protocol = .ok parts.port
  path : parts.path = String.ofList u.tail.path
  query : parts.query = u.tail.query.elim "" String.ofList
  fragment : parts.fragment = u.tail.fragment.elim "" String.ofList

/-- A query or a fragment right after the host. -/
def HostRunsOn (u : Components) : Prop :=
  u.tail.port = none ∧ u.tail.path = [] ∧ (u.tail.query ≠ none ∨ u.tail.fragment ≠ none)

theorem head?_rest (u : Components) : ∀ c ∈ u.tail.rest.head?,
    (u.tail.path ≠ [] ∧ c = '/') ∨
      (u.tail.path = [] ∧ (u.tail.query ≠ none ∨ u.tail.fragment ≠ none) ∧ (c = '?' ∨ c = '#')) := by
  intro c hc
  unfold Tail.rest at hc
  cases hpath : u.tail.path with
  | cons d path =>
      obtain rfl : d = c := by simpa [hpath] using hc
      exact Or.inl ⟨by simp, u.path_head d (by simp [hpath])⟩
  | nil =>
      rw [hpath, List.nil_append] at hc
      refine Or.inr ⟨rfl, ?_, u.tail.head?_query_fragment c hc⟩
      by_contra hnone
      rw [not_or, not_not, not_not] at hnone
      simp [Tail.queryText, Tail.fragmentText, hnone] at hc

theorem tail_longest (u : Components) : u.tail.Longest where
  digits := u.port_digits
  port_longest := by
    refine fun ds _ => Or.inr fun c hc => ?_
    rcases u.head?_rest c hc with ⟨-, rfl⟩ | ⟨-, -, rfl | rfl⟩
    all_goals decide
  no_port := by
    rintro - ⟨d, e, left, heq, -, -⟩
    rcases u.head?_rest ':' (by simp [heq]) with ⟨-, h⟩ | ⟨-, -, h | h⟩
    all_goals exact absurd h (by decide)
  path := u.path_chars
  query := u.query_chars
  fragment := u.fragment_chars

/-- What follows the host starts with one of the four separators. -/
theorem head?_text (u : Components) : ∀ c ∈ u.tail.text.head?,
    (u.HostRunsOn ∧ (c = '?' ∨ c = '#')) ∨ (¬ u.HostRunsOn ∧ (c = ':' ∨ c = '/')) := by
  intro c hc
  unfold Tail.text Tail.portText at hc
  cases hport : u.tail.port with
  | some ds =>
      obtain rfl : ':' = c := by simpa [hport] using hc
      exact Or.inr ⟨by simp [HostRunsOn, hport], Or.inl rfl⟩
  | none =>
      rw [hport, Option.elim_none, List.nil_append] at hc
      rcases u.head?_rest c hc with ⟨hpath, rfl⟩ | ⟨hpath, hsome, hc⟩
      · exact Or.inr ⟨by simp [HostRunsOn, hpath], Or.inr rfl⟩
      · exact Or.inl ⟨⟨hport, hpath, hsome⟩, hc⟩

/-- Nothing before the tail reads as a scheme. -/
theorem no_scheme (u : Components) : ¬ SchemeAhead u.authority := by
  refine not_schemeAhead (fun c hc => (u.host_chars c hc).1) (fun c hc => ?_) ?_
  · rcases u.head?_text c hc with ⟨-, rfl | rfl⟩ | ⟨-, rfl | rfl⟩
    all_goals decide
  · rintro c left heq rfl
    cases hport : u.tail.port with
    | none =>
        have hrest : u.tail.rest = ':' :: '/' :: left := by
          simpa [Tail.text, Tail.portText, hport] using heq
        rcases u.head?_rest ':' (by simp [hrest]) with ⟨-, h⟩ | ⟨-, -, h | h⟩
        all_goals exact absurd h (by decide)
    | some ds =>
        obtain ⟨hdigits, hleast, -⟩ := u.port_digits ds hport
        obtain ⟨d, ds, rfl⟩ := List.exists_cons_of_length_pos (Nat.lt_of_lt_of_le Nat.two_pos hleast)
        simp only [Tail.text, Tail.portText, hport, Option.elim_some, List.cons_append,
          List.cons.injEq, true_and] at heq
        exact absurd (hdigits d List.mem_cons_self) (by rw [heq.1]; decide)

theorem accepted_authority (u : Components) : Accepted u.authority := by
  have hchars : ∀ c ∈ u.host, isHostChar c = true := fun c hc => (u.host_chars c hc).1
  refine ⟨by simp [Split.authority, u.host_ne], fun c hc => ?_, fun c hc => ?_⟩
  · rcases List.mem_append.mp hc with hc | hc
    · exact (isHostChar_eq_true.mp (hchars c hc)).2.1
    · exact u.tail_longest.space c hc
  · obtain ⟨d, host, hhost⟩ := List.exists_cons_of_ne_nil u.host_ne
    obtain rfl : d = c := by simpa [Split.authority, hhost] using hc
    have hd := isHostChar_eq_true.mp (hchars d (by simp [hhost]))
    exact ⟨hd.1, hd.2.2⟩

theorem longest (h : ¬ u.HostRunsOn) : u.toSplit.Longest where
  scheme := u.scheme_word
  no_scheme := fun _ => u.no_scheme
  host_ne := u.host_ne
  host := fun c hc => (u.host_chars c hc).1
  host_longest := by
    intro c hc
    rcases u.head?_text c hc with ⟨hruns, -⟩ | ⟨-, rfl | rfl⟩
    · exact absurd hruns h
    all_goals decide
  tail := u.tail_longest

theorem exists_port (u : Components) : ∃ port, u.toSplit.port = .ok port := by
  cases hport : u.toSplit.port with
  | ok port => exact ⟨port, rfl⟩
  | error e =>
      obtain ⟨hnone, cs, hcs, hunknown⟩ := Split.port_eq_error.mp ⟨e, hport⟩
      exact absurd (u.known hnone cs hcs) hunknown

/-- The parts of the split are the ones that were written. -/
theorem readBack_parts {port : String} (hport : u.toSplit.port = .ok port) :
    u.ReadBack (u.parts port) := by
  rw [Split.port] at hport
  exact {
    protocol := rfl
    hostname := rfl
    port := by
      intro ds hds
      rw [Option.mem_def.mp hds] at hport
      exact (Except.ok.inj hport).symm
    defaultPort := by
      intro hnone
      rwa [hnone] at hport
    path := rfl
    query := by cases hquery : u.tail.query <;> simp [Split.parts, hquery]
    fragment := by cases hfragment : u.tail.fragment <;> simp [Split.parts, hfragment] }

theorem exists_head?_text (hruns : u.HostRunsOn) : ∃ c, c ∈ u.tail.text.head? := by
  obtain ⟨hport, hpath, hsome⟩ := hruns
  rw [Tail.text, Tail.portText, Tail.rest, hport, hpath, Tail.queryText, Tail.fragmentText]
  cases hquery : u.tail.query with
  | some cs => exact ⟨'?', rfl⟩
  | none =>
      obtain ⟨cs, hcs⟩ := Option.ne_none_iff_exists'.mp (hsome.resolve_left (by simp [hquery]))
      exact ⟨'#', by simp [hcs]⟩

/-- A host that is read back as it was written ends where the pattern ends it. -/
theorem host_longest_of_readBack {url : Url} (hurl : ofString u.assemble = .ok url)
    (hread : u.ReadBack url.parts) : ∀ c ∈ u.tail.text.head?, isHostChar c = false := by
  obtain ⟨sp, hsp, hscheme, hauthority⟩ :=
    exists_longest u.scheme_word (fun _ => u.no_scheme) u.accepted_authority
  have htext : u.assemble = String.ofList sp.text := by
    rw [assemble, Split.text, Split.text, Split.schemeText, Split.schemeText, hscheme, hauthority]
  have hparts := ofString_eq_ok.mp ⟨url, hurl, rfl⟩
  rw [htext, Split.parse_text hsp] at hparts
  obtain ⟨port, -, hparts⟩ := Except.map_eq_ok.mp hparts
  have hhost : sp.host = u.host := by
    have hname := hread.hostname
    rw [← hparts] at hname
    exact String.ofList_injective hname
  have htail : sp.tail.text = u.tail.text := by
    rw [Split.authority, Split.authority, hhost] at hauthority
    exact List.append_cancel_left hauthority
  have hlast := hsp.host_longest
  rw [htail] at hlast
  exact hlast

/-- The parser undoes the assembly except where the host runs on into the query or the
    fragment. -/
theorem parse_assemble (u : Components) :
    (∃ url, ofString u.assemble = .ok url ∧ u.ReadBack url.parts) ↔ ¬ u.HostRunsOn := by
  constructor
  · intro h hruns
    obtain ⟨url, hurl, hread⟩ := h
    have hlast := host_longest_of_readBack hurl hread
    obtain ⟨c, hc⟩ := exists_head?_text hruns
    rcases u.head?_text c hc with ⟨-, rfl | rfl⟩ | ⟨hnot, -⟩
    · exact absurd (hlast '?' hc) (by decide)
    · exact absurd (hlast '#' hc) (by decide)
    · exact hnot hruns
  · intro hruns
    obtain ⟨port, hport⟩ := u.exists_port
    have hparse : parse u.assemble = .ok (u.parts port) := by
      rw [assemble, Split.parse_text (u.longest hruns), hport]
      rfl
    obtain ⟨url, hurl, hparts⟩ := ofString_eq_ok.mpr hparse
    exact ⟨url, hurl, hparts ▸ readBack_parts hport⟩

/-- `http://h?x` as parts. -/
def queryAfterHost : Components where
  scheme := some ['h', 't', 't', 'p']
  host := ['h']
  tail := ⟨none, [], some ['x'], none⟩
  scheme_word := by
    rintro cs ⟨⟩
    exact ⟨by decide, List.all_eq_true.mp (by decide)⟩
  known := by
    rintro - cs ⟨⟩
    decide
  host_ne := by decide
  host_chars := by
    intro c hc
    obtain rfl := List.mem_singleton.mp hc
    decide
  port_digits := by simp
  path_head := by simp
  path_chars := by simp
  query_chars := by
    rintro cs ⟨⟩
    exact List.all_eq_true.mp (by decide)
  fragment_chars := by simp

/-- The host of `http://h?x` is read as `h?x`. -/
theorem queryAfterHost_not_readBack :
    ¬ ∃ url, ofString queryAfterHost.assemble = .ok url ∧ queryAfterHost.ReadBack url.parts := by
  intro h
  obtain ⟨url, hurl, hread⟩ := h
  have hparse : parse queryAfterHost.assemble =
      .ok ⟨"http", "h?x", "80", "", "", ""⟩ := rfl
  have hparts := hparse.symm.trans (ofString_eq_ok.mp ⟨url, hurl, rfl⟩)
  have hname := hread.hostname
  rw [← Except.ok.inj hparts] at hname
  exact absurd hname (by decide)

end Components

end Url

end LoadBalancer
