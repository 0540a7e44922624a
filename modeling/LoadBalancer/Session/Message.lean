/-
  Messages and their format on a byte stream.

  The format is a parameter of the sessions: `wire` is what a sender puts on the stream for a
  complete message, `parse` takes one message off the front of a buffer and is `none` while
  more bytes are needed.

  The second part is a format that meets the laws: HTTP/1.1 messages framed by
  `Content-Length`. The header is the text up to and including the first empty line; the body
  is as long as the first `Content-Length` field says, and empty where there is none.
-/
import Mathlib.Data.List.Infix

namespace LoadBalancer

structure Message (Header : Type) where
  header : Header
  body : List UInt8
deriving DecidableEq

/-- How one kind of message is put on a stream and taken off a buffer. -/
class Format (Header : Type) where
  /-- the fields of a message without any -/
  noFields : Header
  /-- the framing fields agree with the body -/
  complete : Message Header → Bool
  wire : Message Header → List UInt8
  parse : List UInt8 → Option (Message Header × List UInt8)

/-- A read takes exactly one message, and only when all of it is there. -/
class LawfulFormat (Header : Type) [Format Header] : Prop where
  parse_nil : (Format.parse [] : Option (Message Header × List UInt8)) = none
  parse_wire : ∀ (m : Message Header) rest, Format.complete m = true →
    Format.parse (Format.wire m ++ rest) = some (m, rest)
  parse_of_prefix : ∀ (m : Message Header) p, Format.complete m = true → p <+: Format.wire m →
    p ≠ Format.wire m → (Format.parse p : Option (Message Header × List UInt8)) = none

/-! ## HTTP/1.1 with `Content-Length` -/

/-- Two line ends in a row. -/
def emptyLine : List UInt8 := [13, 10, 13, 10]

/-- The bytes up to and including the first empty line, and the bytes after it. -/
def splitHead : List UInt8 → Option (List UInt8 × List UInt8)
  | [] => none
  | b :: rest =>
    if emptyLine.isPrefixOf (b :: rest) then some (emptyLine, rest.drop 3)
    else (splitHead rest).map fun split => (b :: split.1, split.2)

def digits (n : Nat) : List UInt8 → Nat
  | b :: rest => if 48 ≤ b ∧ b ≤ 57 then digits (10 * n + (b.toNat - 48)) rest else n
  | [] => n

def bytes (s : String) : List UInt8 := s.toList.map fun c => UInt8.ofNat c.toNat

/-- The value of the first `Content-Length` field of a header. -/
def contentLength : List UInt8 → Nat
  | [] => 0
  | b :: rest =>
    if (bytes "Content-Length: ").isPrefixOf (b :: rest) then
      digits 0 ((b :: rest).drop (bytes "Content-Length: ").length)
    else contentLength rest

/-- The text of a header. -/
abbrev HeaderText := List UInt8

instance : Format HeaderText where
  noFields := []
  complete m := splitHead m.header == some (m.header, []) && m.body.length == contentLength m.header
  wire m := m.header ++ m.body
  parse buffer := do
    let (head, rest) ← splitHead buffer
    if contentLength head ≤ rest.length then
      return (⟨head, rest.take (contentLength head)⟩, rest.drop (contentLength head))
    else none

theorem splitHead_eq_some {l head tail : List UInt8} (h : splitHead l = some (head, tail)) :
    l = head ++ tail ∧ 4 ≤ head.length := by
  induction l generalizing head with
  | nil => cases h
  | cons b rest ih =>
      unfold splitHead at h
      split at h
      · next hprefix =>
        obtain ⟨rfl, rfl⟩ := Prod.mk.inj (Option.some.inj h)
        obtain ⟨t, ht⟩ := List.isPrefixOf_iff_prefix.mp hprefix
        refine ⟨?_, by decide⟩
        rw [← ht]
        have hrest : rest = [10, 13, 10] ++ t := (List.cons.inj ht).2.symm
        rw [hrest]
        rfl
      · obtain ⟨⟨head', tail'⟩, hsplit, heq⟩ := Option.map_eq_some_iff.mp h
        obtain ⟨rfl, rfl⟩ := Prod.mk.inj heq
        obtain ⟨rfl, hlen⟩ := ih hsplit
        exact ⟨rfl, Nat.le_succ_of_le hlen⟩

/-- A header that was found is found again when more bytes follow. -/
theorem splitHead_append {l head tail : List UInt8} (h : splitHead l = some (head, tail))
    (more : List UInt8) : splitHead (l ++ more) = some (head, tail ++ more) := by
  induction l generalizing head with
  | nil => cases h
  | cons b rest ih =>
      have hlong : 4 ≤ (b :: rest).length := by
        obtain ⟨heq, hlen⟩ := splitHead_eq_some h
        rw [heq, List.length_append]
        omega
      have hsame : emptyLine.isPrefixOf (b :: rest ++ more) = emptyLine.isPrefixOf (b :: rest) := by
        rw [Bool.eq_iff_iff, List.isPrefixOf_iff_prefix, List.isPrefixOf_iff_prefix]
        exact ⟨fun hp => List.prefix_of_prefix_length_le hp (List.prefix_append _ _) hlong,
          fun hp => hp.trans (List.prefix_append _ _)⟩
      rw [List.cons_append, splitHead, ← List.cons_append, hsame]
      unfold splitHead at h
      split at h
      · next hprefix =>
        obtain ⟨rfl, rfl⟩ := Prod.mk.inj (Option.some.inj h)
        have hdrop : 3 ≤ rest.length := Nat.le_of_succ_le_succ hlong
        rw [if_pos hprefix, List.drop_append_of_le_length hdrop]
      · next hprefix =>
        obtain ⟨⟨head', tail'⟩, hsplit, heq⟩ := Option.map_eq_some_iff.mp h
        obtain ⟨rfl, rfl⟩ := Prod.mk.inj heq
        rw [if_neg hprefix, ih hsplit]
        rfl

/-- No header is found in a part of one. -/
theorem splitHead_of_prefix {head p : List UInt8} (h : splitHead head = some (head, []))
    (hp : p <+: head) (hne : p ≠ head) : splitHead p = none := by
  obtain ⟨more, rfl⟩ := hp
  rw [Option.eq_none_iff_forall_ne_some]
  intro hboth hsplit
  obtain ⟨head', tail'⟩ := hboth
  rw [splitHead_append hsplit more] at h
  have htail : tail' ++ more = [] := congrArg Prod.snd (Option.some.inj h)
  exact hne (by rw [(List.append_eq_nil_iff.mp htail).2, List.append_nil])

theorem complete_iff {m : Message HeaderText} : Format.complete m = true ↔
    splitHead m.header = some (m.header, []) ∧ m.body.length = contentLength m.header := by
  simp [Format.complete]

theorem parse_of_splitHead {buffer head rest : List UInt8}
    (h : splitHead buffer = some (head, rest)) : Format.parse buffer =
      if contentLength head ≤ rest.length then
        some (⟨head, rest.take (contentLength head)⟩, rest.drop (contentLength head))
      else none := by
  simp [Format.parse, h]

instance : LawfulFormat HeaderText where
  parse_nil := rfl
  parse_wire m rest hm := by
    obtain ⟨hhead, hbody⟩ := complete_iff.mp hm
    have hsplit : splitHead (m.header ++ m.body ++ rest) = some (m.header, m.body ++ rest) := by
      rw [List.append_assoc, splitHead_append hhead]
      rfl
    show Format.parse (m.header ++ m.body ++ rest) = _
    rw [parse_of_splitHead hsplit, ← hbody, if_pos (by simp), List.take_left, List.drop_left]
  parse_of_prefix m p hm hp hne := by
    obtain ⟨hhead, hbody⟩ := complete_iff.mp hm
    change p <+: m.header ++ m.body at hp
    change p ≠ m.header ++ m.body at hne
    obtain ⟨more, hmore⟩ := hp
    -- either the header is cut, or the body is
    rcases List.append_eq_append_iff.mp hmore with ⟨tail, hheader, -⟩ | ⟨tail, rfl, hrest⟩
    · by_cases heq : p = m.header
      · have hpos : m.body ≠ [] := fun hnil => hne (by rw [heq, hnil, List.append_nil])
        rw [heq, parse_of_splitHead hhead, ← hbody, if_neg (by simpa using hpos)]
      · simp [Format.parse, splitHead_of_prefix hhead ⟨tail, hheader.symm⟩ heq]
    · have hmore' : more ≠ [] := by
        intro heq
        subst heq
        exact hne (by rw [hrest, List.append_nil])
      have hlen : tail.length < m.body.length := by
        have hpos := List.length_pos_of_ne_nil hmore'
        rw [hrest, List.length_append]
        omega
      have hsplit : splitHead (m.header ++ tail) = some (m.header, tail) := splitHead_append hhead tail
      rw [parse_of_splitHead hsplit, ← hbody, if_neg (by omega)]

end LoadBalancer
