/-
  `lb::Url`: the pattern, the default ports and the constructor.

  A `Url` carries the proof that its parts are what the constructor read from its text, so
  a `Url` is determined by `wholeUrl`, which is all that the source's `operator==` compares.
-/
import LoadBalancer.Lib.Pattern
import LoadBalancer.Yaml

namespace LoadBalancer

/-- `\w` -/
def isWord (c : Char) : Bool := c.isAlphanum || c == '_'

/-- `\s` -/
def isSpace (c : Char) : Bool :=
  c == ' ' || c == '\t' || c == '\n' || c == '\r' || c.toNat == 11 || c.toNat == 12

structure UrlParts where
  protocol : String
  hostname : String
  port : String
  path : String
  query : String
  fragment : String
deriving DecidableEq

namespace Url

open Pattern

/-- `((\w+):\/\/)?([^/\s:]+)(:(\d{2,5}))?([^?\s#]*)([?]([^\s#]*))?([#]([^\s]*))?` -/
def urlPattern : Pattern :=
  .seq (.opt (.group 1 (.seq (.group 2 (.many isWord 1 none)) (.text [':', '/', '/'])))) <|
  .seq (.group 3 (.many (fun c => !(c == '/' || isSpace c || c == ':')) 1 none)) <|
  .seq (.opt (.group 4 (.seq (.text [':']) (.group 5 (.many Char.isDigit 2 (some 5)))))) <|
  .seq (.group 6 (.many (fun c => !(c == '?' || isSpace c || c == '#')) 0 none)) <|
  .seq (.opt (.group 7 (.seq (.text ['?'])
    (.group 8 (.many (fun c => !(isSpace c || c == '#')) 0 none)))))
  (.opt (.group 9 (.seq (.text ['#']) (.group 10 (.many (fun c => !isSpace c) 0 none)))))

/-- `MatchUrl` -/
def matchUrl (s : String) : Option Captures :=
  urlPattern.fullMatch s.toList

def defaultProtocolPort (protocol : String) : Except Exception String :=
  match [("http", "80"), ("https", "443"), ("ftp", "21"), ("ssh", "22")].lookup protocol with
  | some port => .ok port
  | none => .error (.runtimeError ("Unknown protocol: " ++ protocol ++ ". Specify port mannualy"))

def isUrl (src : String) : Bool := (matchUrl src).isSome

/-- The body of the constructor: the parts of a text, or the exception it throws. -/
def parse (s : String) : Except Exception UrlParts :=
  match matchUrl s with
  | none => .error (.runtimeError ("Invalid url: " ++ s))
  | some results => do
    let protocol := if results.text 2 ≠ "" then results.text 2 else "http"
    let port ← if results.text 5 ≠ "" then pure (results.text 5) else defaultProtocolPort protocol
    return {
      protocol := protocol
      hostname := results.text 3
      port := port
      path := results.text 6
      query := results.text 8
      fragment := results.text 10 }

end Url

/-- A text together with the parts it parses to. -/
structure Url where
  wholeUrl : String
  parts : UrlParts
  parsed : Url.parse wholeUrl = .ok parts

namespace Url

/-- `Url::Url` -/
def ofString (s : String) : Except Exception Url :=
  match h : parse s with
  | .ok parts => .ok ⟨s, parts, h⟩
  | .error e => .error e

theorem wholeUrl_of_ofString {s : String} {url : Url} (h : ofString s = .ok url) :
    url.wholeUrl = s := by
  unfold ofString at h
  split at h
  · rw [← Except.ok.inj h]
  · cases h

def toString (url : Url) : String := url.wholeUrl

theorem ext {u v : Url} (h : u.toString = v.toString) : u = v := by
  obtain ⟨s, p, hp⟩ := u
  obtain ⟨t, q, hq⟩ := v
  obtain rfl : s = t := h
  obtain rfl : p = q := Except.ok.inj (hp.symm.trans hq)
  rfl

/-- `operator==` compares the whole texts. -/
instance : DecidableEq Url := fun u v =>
  decidable_of_iff (u.toString = v.toString) ⟨ext, fun h => h ▸ rfl⟩

end Url

end LoadBalancer
