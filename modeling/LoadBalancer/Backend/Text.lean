/-
  The text of a backend: when `ToString` identifies it as `operator==` does.

  The heap selectors, the traits of the hash ring and `BackendHasher` know a backend by its
  text, the other selectors by `operator==`. Behind the last colon of an endpoint's text
  stands its port, so two endpoints with one text are equal, and two URLs with one text are
  equal by definition. But the pattern of a URL takes an address for a host, or for a host
  and a path: only an address that begins with a colon keeps an endpoint apart from every
  URL. Any other endpoint has its text in common with a URL, and the two are different
  backends under one key (`identifies_iff`). They need not be two ways to one server: the URL
  of an IPv4 endpoint with a port of one digit goes to port 80 (`hostname_port`).
-/
import LoadBalancer.Backend
import LoadBalancer.Lib.Text
import LoadBalancer.Reference
import LoadBalancer.Url.Port

namespace LoadBalancer

section

variable [Platform]

/-- `address::to_string` prints no whitespace and no slash. -/
class PlainAddresses : Prop where
  nonempty : ∀ a, (Platform.addressToString a).toList ≠ []
  plain : ∀ a, ∀ c ∈ (Platform.addressToString a).toList, isSpace c = false ∧ c ≠ '/'

namespace Backend

/-! ## The text of an endpoint -/

theorem toList_toString_endpoint (ep : Endpoint) : (Backend.endpoint ep).toString.toList =
    (Platform.addressToString ep.address).toList ++ ':' :: (toString ep.port.val).toList := by
  simp [Backend.toString]

/-- What follows the last colon is the port. -/
theorem endpoint_of_toString
    (hinj : ∀ x y, Platform.addressToString x = Platform.addressToString y → x = y)
    {a b : Endpoint} (h : (Backend.endpoint a).toString = (Backend.endpoint b).toString) :
    a = b := by
  have hlist := congrArg String.toList h
  rw [toList_toString_endpoint, toList_toString_endpoint] at hlist
  obtain ⟨haddress, hport⟩ := Text.append_cons_inj
    (Text.not_mem_digits (by decide) _) (Text.not_mem_digits (by decide) _) hlist
  have hval : a.port.val = b.port.val := Text.toString_injective hport
  obtain ⟨x, p⟩ := a
  obtain ⟨y, q⟩ := b
  obtain rfl := hinj x y (String.toList_injective haddress)
  obtain rfl := Fin.val_injective hval
  rfl

theorem sharp_not_mem_endpoint
    (hhash : ∀ x, '#' ∉ (Platform.addressToString x).toList) (ep : Endpoint) :
    '#' ∉ (Backend.endpoint ep).toString.toList := by
  rw [toList_toString_endpoint]
  intro hmem
  rcases List.mem_append.mp hmem with hmem | hmem
  · exact hhash _ hmem
  · rcases List.mem_cons.mp hmem with hmem | hmem
    · cases hmem
    · exact Text.not_mem_digits (by decide) _ hmem

theorem space_toString_endpoint [PlainAddresses] (ep : Endpoint) :
    ∀ c ∈ (Backend.endpoint ep).toString.toList, isSpace c = false := by
  rw [toList_toString_endpoint]
  intro c hc
  rcases List.mem_append.mp hc with hc | hc
  · exact (PlainAddresses.plain ep.address c hc).1
  · rcases List.mem_cons.mp hc with rfl | hc
    · decide
    · exact Url.isSpace_of_word (Url.isWord_of_digit (Text.isDigit_of_mem hc))

theorem slash_not_mem_endpoint [PlainAddresses] (ep : Endpoint) :
    '/' ∉ (Backend.endpoint ep).toString.toList := by
  rw [toList_toString_endpoint]
  intro hc
  rcases List.mem_append.mp hc with hc | hc
  · exact (PlainAddresses.plain ep.address _ hc).2 rfl
  · rcases List.mem_cons.mp hc with hc | hc
    · cases hc
    · exact Text.not_mem_digits (by decide) _ hc

/-- The text of an endpoint begins with a URL's character unless the address begins with a
    colon. -/
theorem accepted_endpoint [PlainAddresses] (ep : Endpoint) :
    Url.Accepted (Backend.endpoint ep).toString.toList ↔
      (Platform.addressToString ep.address).toList.head? ≠ some ':' := by
  obtain ⟨c, cs, hcs⟩ := List.exists_cons_of_ne_nil (PlainAddresses.nonempty ep.address)
  have hhead : (Backend.endpoint ep).toString.toList.head? = some c := by
    rw [toList_toString_endpoint, hcs]
    rfl
  have hslash : c ≠ '/' := (PlainAddresses.plain ep.address c (by simp [hcs])).2
  unfold Url.Accepted
  rw [hhead, hcs]
  constructor
  · intro h heq
    exact (h.2.2 c rfl).2 (by simpa using heq)
  · intro h
    refine ⟨?_, space_toString_endpoint ep, ?_⟩
    · rw [toList_toString_endpoint]
      simp
    · rintro d ⟨⟩
      exact ⟨hslash, fun heq => h (by simp [heq])⟩

theorem exists_ofUrlString {text : String} :
    (∃ b, ofUrlString text = .ok b) ↔ Url.Accepted text.toList ∧ ¬ Url.Unported text.toList := by
  rw [← Url.exists_ofString]
  unfold ofUrlString
  cases Url.ofString text with
  | error e => simp [bind, Except.bind]
  | ok u => simp [bind, Except.bind, pure, Except.pure]

end Backend

/-! ## URLs that are written like an endpoint -/

/-- The URL is written as the endpoint is printed: its address, a colon and its port. -/
def Endpoint.SpelledBy (ep : Endpoint) (u : Url) : Prop :=
  u.wholeUrl = Platform.addressToString ep.address ++ ":" ++ toString ep.port.val

theorem Endpoint.exists_spelledBy [PlainAddresses] (ep : Endpoint) :
    (∃ u, ep.SpelledBy u) ↔ (Platform.addressToString ep.address).toList.head? ≠ some ':' := by
  rw [← Backend.accepted_endpoint]
  constructor
  · intro h
    obtain ⟨u, hu⟩ := h
    have haccepted := Url.accepted_of_ofString (Url.ofString_wholeUrl u)
    rwa [hu] at haccepted
  · intro h
    -- without a slash there is no protocol, so the default port is that of http
    have hported := Url.not_unported_of_no_slash (Backend.slash_not_mem_endpoint ep)
    obtain ⟨u, hu⟩ := Url.exists_ofString.mpr ⟨h, hported⟩
    exact ⟨u, Url.wholeUrl_of_ofString hu⟩

/-- Where the address has no colon, it is the host, and what is left of the text the tail. -/
theorem Endpoint.SpelledBy.parts_eq [PlainAddresses] {ep : Endpoint} {u : Url}
    (h : ep.SpelledBy u) (hcolon : ':' ∉ (Platform.addressToString ep.address).toList)
    {t : Url.Tail} (ht : t.Longest) (htext : t.text = ':' :: (toString ep.port.val).toList) :
    Url.Split.parts ⟨none, (Platform.addressToString ep.address).toList, t⟩ <$>
      Url.Split.port ⟨none, (Platform.addressToString ep.address).toList, t⟩ = .ok u.parts := by
  have hchars : ∀ c ∈ (Platform.addressToString ep.address).toList, Url.isHostChar c = true := by
    intro c hc
    obtain ⟨hspace, hslash⟩ := PlainAddresses.plain _ c hc
    refine Url.isHostChar_eq_true.mpr ⟨hslash, hspace, ?_⟩
    rintro rfl
    exact hcolon hc
  have hlongest : (Url.Split.mk none (Platform.addressToString ep.address).toList t).Longest :=
    Url.Split.longest_of_run (by simp [Url.WordScheme]) (PlainAddresses.nonempty ep.address) hchars
      (fun c => Text.isDigit_of_mem) (Text.toList_toString_ne_nil _) ht
      (by rw [htext, List.append_nil])
  have hwhole : String.ofList
      (Url.Split.mk none (Platform.addressToString ep.address).toList t).text = u.wholeUrl := by
    rw [show u.wholeUrl = (Backend.endpoint ep).toString from h,
      ← String.toList_inj, String.toList_ofList, Backend.toList_toString_endpoint, ← htext]
    rfl
  rw [← Url.Split.parse_text hlongest, hwhole, u.parsed]

/-- Such a URL goes to the host and port of the endpoint; but one digit makes no port, and then
    it goes to the port of http. -/
theorem Endpoint.SpelledBy.hostname_port [PlainAddresses] {ep : Endpoint} {u : Url}
    (h : ep.SpelledBy u) (hcolon : ':' ∉ (Platform.addressToString ep.address).toList) :
    u.parts.hostname = Platform.addressToString ep.address ∧
      u.parts.port = if 10 ≤ ep.port.val then toString ep.port.val else "80" := by
  have hdigits : ∀ c ∈ (toString ep.port.val).toList, c.isDigit = true :=
    fun c => Text.isDigit_of_mem
  have hone := Text.length_toString_le_iff ep.port.val (show 0 < 1 by decide)
  have hfive := Text.length_toString_le_iff ep.port.val (show 0 < 5 by decide)
  have hlt := ep.port.isLt
  by_cases hten : 10 ≤ ep.port.val
  · have hparts := h.parts_eq hcolon (Url.Tail.longest_port hdigits (by omega))
      (by simp [Url.Tail.text, Url.Tail.portText])
    rw [if_pos hten, ← Except.ok.inj hparts]
    exact ⟨String.ofList_toList, String.ofList_toList⟩
  · have hparts := h.parts_eq hcolon (Url.Tail.longest_digit hdigits (by omega))
      (by simp [Url.Tail.text, Url.Tail.portText])
    rw [if_neg hten, ← Except.ok.inj hparts]
    exact ⟨String.ofList_toList, rfl⟩

/-! ## The text as an identity -/

namespace Backend

/-- One is an endpoint, and the other a URL that is written like it. -/
def Confused : Backend → Backend → Prop
  | .endpoint ep, .url u => ep.SpelledBy u
  | .url u, .endpoint ep => ep.SpelledBy u
  | _, _ => False

/-- An endpoint whose address begins with a colon, or a URL that is written like no endpoint. -/
def Unmistakable : Backend → Prop
  | .endpoint ep => (Platform.addressToString ep.address).toList.head? = some ':'
  | .url u => ∀ ep : Endpoint, ¬ ep.SpelledBy u

theorem Confused.ne {b c : Backend} (h : b.Confused c) : b ≠ c := by
  rintro rfl
  cases b with
  | endpoint ep => exact h
  | url u => exact h

/-- Backends have one text if they are equal or confused. -/
theorem toString_eq_iff
    (hinj : ∀ x y, Platform.addressToString x = Platform.addressToString y → x = y)
    (b c : Backend) : b.toString = c.toString ↔ b = c ∨ b.Confused c := by
  cases b with
  | endpoint e =>
      cases c with
      | endpoint f =>
          refine ⟨fun h => Or.inl (congrArg _ (endpoint_of_toString hinj h)), fun h => ?_⟩
          rw [h.resolve_right id]
      | url v =>
          -- two kinds: never equal, and the URL spells the endpoint if the texts agree
          simp only [reduceCtorEq, false_or]
          exact eq_comm
  | url u =>
      cases c with
      | endpoint f =>
          simp only [reduceCtorEq, false_or]
          exact Iff.rfl
      | url v =>
          refine ⟨fun h => Or.inl (congrArg _ (Url.ext h)), fun h => ?_⟩
          rw [h.resolve_right id]

theorem unmistakable_iff [PlainAddresses] (b : Backend) :
    b.Unmistakable ↔ ∀ c, ¬ b.Confused c := by
  cases b with
  | endpoint ep =>
      have hspelled := not_congr ep.exists_spelledBy
      rw [not_not, not_exists] at hspelled
      refine hspelled.symm.trans ⟨fun h c => ?_, fun h u => h (.url u)⟩
      cases c with
      | endpoint f => exact id
      | url u => exact h u
  | url u =>
      refine ⟨fun h c => ?_, fun h ep => h (.endpoint ep)⟩
      cases c with
      | endpoint f => exact h f
      | url v => exact id

/-- The text identifies two backends exactly if they are not confused; and it identifies a
    backend among all others exactly if it is an endpoint whose address begins with a colon,
    or a URL that is written like no endpoint. -/
theorem identifies_iff [PlainAddresses]
    (hinj : ∀ x y, Platform.addressToString x = Platform.addressToString y → x = y)
    (b : Backend) :
    (∀ c, (b.equal c = true ↔ b.toString = c.toString) ↔ ¬ b.Confused c) ∧
    ((∀ c, b.equal c = true ↔ b.toString = c.toString) ↔ b.Unmistakable) := by
  have hpair : ∀ c, (b.equal c = true ↔ b.toString = c.toString) ↔ ¬ b.Confused c := by
    intro c
    rw [equal_iff, toString_eq_iff hinj]
    constructor
    · intro h hconfused
      exact hconfused.ne (h.mpr (Or.inr hconfused))
    · intro h
      exact (or_iff_left h).symm
  refine ⟨hpair, ?_⟩
  rw [unmistakable_iff]
  exact forall_congr' hpair

/-- A list has no text twice if it has no backend twice and no two that are confused. -/
theorem nodup_toString_iff
    (hinj : ∀ x y, Platform.addressToString x = Platform.addressToString y → x = y)
    (bs : List Backend) : (bs.map Backend.toString).Nodup ↔
      bs.Nodup ∧ bs.Pairwise fun b c => ¬ b.Confused c := by
  unfold List.Nodup
  rw [List.pairwise_map, ← List.pairwise_and_iff]
  simp only [ne_eq, toString_eq_iff hinj, not_or]

end Backend

end

namespace Reference

theorem toList_addressToString (a b c d : Fin 256) :
    (addressToString (a, b, c, d)).toList =
      (((toString a.val).toList ++ '.' :: (toString b.val).toList) ++
        '.' :: (toString c.val).toList) ++ '.' :: (toString d.val).toList := by
  simp [addressToString]

theorem addressToString_injective {x y : Address} (h : addressToString x = addressToString y) :
    x = y := by
  obtain ⟨a, b, c, d⟩ := x
  obtain ⟨a', b', c', d'⟩ := y
  have hdot : ∀ n : Nat, '.' ∉ (toString n).toList := Text.not_mem_digits (by decide)
  have hlist := congrArg String.toList h
  rw [toList_addressToString, toList_addressToString] at hlist
  obtain ⟨hlist, hd⟩ := Text.append_cons_inj (hdot _) (hdot _) hlist
  obtain ⟨hlist, hc⟩ := Text.append_cons_inj (hdot _) (hdot _) hlist
  obtain ⟨ha, hb⟩ := Text.append_cons_inj (hdot _) (hdot _) hlist
  obtain rfl := Fin.val_injective (Text.toString_injective ha)
  obtain rfl := Fin.val_injective (Text.toString_injective hb)
  obtain rfl := Fin.val_injective (Text.toString_injective hc)
  obtain rfl := Fin.val_injective (Text.toString_injective hd)
  rfl

theorem isDigit_or_dot {a : Address} {c : Char} (h : c ∈ (addressToString a).toList) :
    c.isDigit = true ∨ c = '.' := by
  obtain ⟨w, x, y, z⟩ := a
  have hdot : ".".toList = ['.'] := rfl
  simp only [addressToString, String.toList_append, hdot, List.mem_append,
    List.mem_singleton] at h
  rcases h with (((((h | h) | h) | h) | h) | h) | h
  all_goals first | exact Or.inl (Text.isDigit_of_mem h) | exact Or.inr h

scoped instance : PlainAddresses where
  nonempty a := by
    obtain ⟨w, x, y, z⟩ := a
    simp [Platform.addressToString, addressToString]
  plain a c hc := by
    rcases isDigit_or_dot hc with h | rfl
    · refine ⟨Url.isSpace_of_word (Url.isWord_of_digit h), ?_⟩
      rintro rfl
      cases h
    · decide

end Reference

namespace Backend

section

open Reference

/-- Port 8080 of the local host as an endpoint, as a URL without a protocol, and with one. -/
def localEndpoint : Backend := .endpoint ⟨localhost, narrowPort 8080⟩
def localUrl : Url := ⟨"127.0.0.1:8080", ⟨"http", "127.0.0.1", "8080", "", "", ""⟩, by rfl⟩
def localHttpUrl : Url :=
  ⟨"http://127.0.0.1:8080", ⟨"http", "127.0.0.1", "8080", "", "", ""⟩, by rfl⟩

/-- No endpoint has a slash in its text. -/
theorem identifies_localHttpUrl :
    ofUrlString "http://127.0.0.1:8080" = .ok (.url localHttpUrl) ∧
      ∀ c, (Backend.url localHttpUrl).equal c = true ↔
        (Backend.url localHttpUrl).toString = c.toString := by
  have hunmistakable : (Backend.url localHttpUrl).Unmistakable := by
    intro ep h
    apply slash_not_mem_endpoint ep
    rw [← show localHttpUrl.wholeUrl = (Backend.endpoint ep).toString from h]
    decide
  exact ⟨by rfl, (identifies_iff (fun _ _ => addressToString_injective) _).2.mpr hunmistakable⟩

/-- Two accepted entries: the constructors make two backends with one text. -/
theorem not_identifies_localUrl :
    ofIp "127.0.0.1" 8080 = .ok localEndpoint ∧
      ofUrlString "127.0.0.1:8080" = .ok (.url localUrl) ∧
      localEndpoint.equal (.url localUrl) = false ∧
      localEndpoint.toString = (Backend.url localUrl).toString ∧
      ¬ ∀ b c : Backend, b.equal c = true ↔ b.toString = c.toString := by
  have htext : localEndpoint.toString = (Backend.url localUrl).toString := by rfl
  refine ⟨by rfl, by rfl, by rfl, htext, fun h => ?_⟩
  cases (h localEndpoint (.url localUrl)).mpr htext

end

end Backend

end LoadBalancer
