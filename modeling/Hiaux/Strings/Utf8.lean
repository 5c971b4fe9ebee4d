import Hiaux.Lib.Bytes

/-!
# `Strings.Utf8` — the UTF-8 library

`utf8::next` and `utf8::append` of the vendored library, on the bytes between its two iterators. A code point
is a `uint32_t`. Both functions throw; every error is an exception of its own, and no caller tells them apart.
-/

namespace Hiaux
namespace Strings

open Lib

namespace Utf8

/-! ## Decoding -/

/-- `utf8::internal::utf_error`, without `UTF8_OK`. -/
inductive UtfError where
  | notEnoughRoom
  | invalidLead
  | incompleteSequence
  | overlongSequence
  | invalidCodePoint
deriving DecidableEq, Repr

/-- `is_trail`. -/
def isTrail (oc : UInt8) : Bool := oc >>> 6 == 0x2

/-- `is_surrogate`. -/
def isSurrogate (cp : UInt32) : Bool := 0xd800 ≤ cp && cp ≤ 0xdfff

/-- `is_code_point_valid`. -/
def isCodePointValid (cp : UInt32) : Bool := cp ≤ 0x10ffff && !isSurrogate cp

/-- `sequence_length`. -/
def sequenceLength (lead : UInt8) : Nat :=
  if lead < 0x80 then 1
  else if lead >>> 5 == 0x6 then 2
  else if lead >>> 4 == 0xe then 3
  else if lead >>> 3 == 0x1e then 4
  else 0

/-- `is_overlong_sequence`. -/
def isOverlongSequence (cp : UInt32) (length : Nat) : Bool :=
  if cp < 0x80 then length != 1
  else if cp < 0x800 then length != 2
  else if cp < 0x10000 then length != 3
  else false

/-- `increase_safely`: the byte behind the current one, `s` being what is behind the current one. -/
def increaseSafely (s : Bytes) : Except UtfError (UInt8 × Bytes) :=
  match s with
  | [] => .error .notEnoughRoom
  | oc :: s => if isTrail oc then .ok (oc, s) else .error .incompleteSequence

/-- The code point `get_sequence_2` computes. -/
def codePoint2 (lead b : UInt8) : UInt32 := ((lead.toUInt32 <<< 6) &&& 0x7ff) + (b.toUInt32 &&& 0x3f)

/-- The code point `get_sequence_3` computes. -/
def codePoint3 (lead b c : UInt8) : UInt32 :=
  ((lead.toUInt32 <<< (12 : UInt32)) &&& (0xffff : UInt32)) +
    ((b.toUInt32 <<< (6 : UInt32)) &&& (0xfff : UInt32)) + (c.toUInt32 &&& (0x3f : UInt32))

/-- The code point `get_sequence_4` computes. -/
def codePoint4 (lead b c d : UInt8) : UInt32 :=
  ((lead.toUInt32 <<< (18 : UInt32)) &&& (0x1fffff : UInt32)) +
    ((b.toUInt32 <<< (12 : UInt32)) &&& (0x3ffff : UInt32)) +
    ((c.toUInt32 <<< (6 : UInt32)) &&& (0xfff : UInt32)) + (d.toUInt32 &&& (0x3f : UInt32))

/-- `get_sequence_1`. -/
def getSequence1 (lead : UInt8) (s : Bytes) : Except UtfError (UInt32 × Bytes) := .ok (lead.toUInt32, s)

/-- `get_sequence_2`. -/
def getSequence2 (lead : UInt8) (s : Bytes) : Except UtfError (UInt32 × Bytes) := do
  let (b, s) ← increaseSafely s
  return (codePoint2 lead b, s)

/-- `get_sequence_3`. -/
def getSequence3 (lead : UInt8) (s : Bytes) : Except UtfError (UInt32 × Bytes) := do
  let (b, s) ← increaseSafely s
  let (c, s) ← increaseSafely s
  return (codePoint3 lead b c, s)

/-- `get_sequence_4`. -/
def getSequence4 (lead : UInt8) (s : Bytes) : Except UtfError (UInt32 × Bytes) := do
  let (b, s) ← increaseSafely s
  let (c, s) ← increaseSafely s
  let (d, s) ← increaseSafely s
  return (codePoint4 lead b c d, s)

/-- The sequence that starts with `lead`, before its code point is checked. -/
def getSequence (lead : UInt8) (s : Bytes) : Except UtfError (UInt32 × Bytes) :=
  match sequenceLength lead with
  | 1 => getSequence1 lead s
  | 2 => getSequence2 lead s
  | 3 => getSequence3 lead s
  | 4 => getSequence4 lead s
  | _ => .error .invalidLead

/-- `validate_next`, and with it `utf8::next`: the next code point and what is behind it. -/
def next (s : Bytes) : Except UtfError (UInt32 × Bytes) :=
  match s with
  | [] => .error .notEnoughRoom
  | lead :: s => do
      let (cp, s) ← getSequence lead s
      if isCodePointValid cp then
        if !isOverlongSequence cp (sequenceLength lead) then return (cp, s) else throw .overlongSequence
      else throw .invalidCodePoint

theorem increaseSafely_ok {s r : Bytes} {b : UInt8} (h : increaseSafely s = .ok (b, r)) :
    s = b :: r ∧ isTrail b = true := by
  unfold increaseSafely at h
  split at h
  · exact absurd h (by simp)
  · split at h
    · rename_i htrail
      obtain ⟨rfl, rfl⟩ := Prod.mk.inj (Except.ok.inj h)
      exact ⟨rfl, htrail⟩
    · exact absurd h (by simp)

theorem increaseSafely_cons {b : UInt8} (s : Bytes) (h : isTrail b = true) :
    increaseSafely (b :: s) = .ok (b, s) :=
  if_pos h

/-- What a computation that returned has done before. -/
theorem bind_ok {α β : Type} {x : Except UtfError α} {f : α → Except UtfError β} {b : β}
    (h : x >>= f = .ok b) : ∃ a, x = .ok a ∧ f a = .ok b := by
  cases x with
  | error e => exact absurd h (by simp [bind, Except.bind])
  | ok a => exact ⟨a, rfl, h⟩

/-- A sequence that was read: its bytes behind the lead byte are trail bytes, as many as the lead byte says. -/
theorem getSequence_ok {lead : UInt8} {s r : Bytes} {cp : UInt32} (h : getSequence lead s = .ok (cp, r)) :
    (sequenceLength lead = 1 ∧ s = r ∧ cp = lead.toUInt32) ∨
    (∃ b, sequenceLength lead = 2 ∧ s = b :: r ∧ isTrail b = true ∧ cp = codePoint2 lead b) ∨
    (∃ b c, sequenceLength lead = 3 ∧ s = b :: c :: r ∧ isTrail b = true ∧ isTrail c = true ∧
      cp = codePoint3 lead b c) ∨
    (∃ b c d, sequenceLength lead = 4 ∧ s = b :: c :: d :: r ∧ isTrail b = true ∧ isTrail c = true ∧
      isTrail d = true ∧ cp = codePoint4 lead b c d) := by
  unfold getSequence at h
  split at h
  · rename_i hlength
    obtain ⟨rfl, rfl⟩ := Prod.mk.inj (Except.ok.inj h)
    exact Or.inl ⟨hlength, rfl, rfl⟩
  · rename_i hlength
    obtain ⟨⟨b, s₁⟩, hb, hreturn⟩ := bind_ok h
    obtain ⟨rfl, rfl⟩ := Prod.mk.inj (Except.ok.inj hreturn)
    obtain ⟨rfl, htrail⟩ := increaseSafely_ok hb
    exact Or.inr (Or.inl ⟨b, hlength, rfl, htrail, rfl⟩)
  · rename_i hlength
    obtain ⟨⟨b, s₁⟩, hb, htail⟩ := bind_ok h
    obtain ⟨⟨c, s₂⟩, hc, hreturn⟩ := bind_ok htail
    obtain ⟨rfl, rfl⟩ := Prod.mk.inj (Except.ok.inj hreturn)
    obtain ⟨rfl, hbtrail⟩ := increaseSafely_ok hb
    obtain ⟨rfl, hctrail⟩ := increaseSafely_ok hc
    exact Or.inr (Or.inr (Or.inl ⟨b, c, hlength, rfl, hbtrail, hctrail, rfl⟩))
  · rename_i hlength
    obtain ⟨⟨b, s₁⟩, hb, htail⟩ := bind_ok h
    obtain ⟨⟨c, s₂⟩, hc, htail'⟩ := bind_ok htail
    obtain ⟨⟨d, s₃⟩, hd, hreturn⟩ := bind_ok htail'
    obtain ⟨rfl, rfl⟩ := Prod.mk.inj (Except.ok.inj hreturn)
    obtain ⟨rfl, hbtrail⟩ := increaseSafely_ok hb
    obtain ⟨rfl, hctrail⟩ := increaseSafely_ok hc
    obtain ⟨rfl, hdtrail⟩ := increaseSafely_ok hd
    exact Or.inr (Or.inr (Or.inr ⟨b, c, d, hlength, rfl, hbtrail, hctrail, hdtrail, rfl⟩))
  · exact absurd h (by simp)

/-- A code point that was read. -/
theorem next_ok {s r : Bytes} {cp : UInt32} (h : next s = .ok (cp, r)) :
    ∃ lead s', s = lead :: s' ∧ getSequence lead s' = .ok (cp, r) ∧ isCodePointValid cp = true ∧
      isOverlongSequence cp (sequenceLength lead) = false := by
  unfold next at h
  split at h
  · exact absurd h (by simp)
  · rename_i lead s'
    obtain ⟨⟨cp', r'⟩, hsequence, h⟩ := bind_ok h
    dsimp only at h
    split at h
    · rename_i hvalid
      split at h
      · rename_i hshort
        obtain ⟨rfl, rfl⟩ := Prod.mk.inj (Except.ok.inj h)
        exact ⟨lead, s', rfl, hsequence, hvalid, by simpa using hshort⟩
      · exact absurd h (by simp [throw, throwThe, MonadExceptOf.throw])
    · exact absurd h (by simp [throw, throwThe, MonadExceptOf.throw])

/-- Reading a code point uses up something. -/
theorem next_length_lt {s r : Bytes} {cp : UInt32} (h : next s = .ok (cp, r)) : r.length < s.length := by
  obtain ⟨lead, s', rfl, hsequence, -⟩ := next_ok h
  rcases getSequence_ok hsequence with ⟨-, rfl, -⟩ | ⟨b, -, rfl, -⟩ | ⟨b, c, -, rfl, -⟩ | ⟨b, c, d, -, rfl, -⟩
  all_goals simp only [List.length_cons]; omega

/-! ## Encoding -/

/-- `utf8::append`: the bytes that are written. -/
def append (cp : UInt32) : Except UtfError Bytes :=
  if !isCodePointValid cp then .error .invalidCodePoint
  else if cp < 0x80 then .ok [cp.toUInt8]
  else if cp < 0x800 then .ok [((cp >>> 6) ||| 0xc0).toUInt8, ((cp &&& 0x3f) ||| 0x80).toUInt8]
  else if cp < 0x10000 then
    .ok [((cp >>> 12) ||| 0xe0).toUInt8, (((cp >>> 6) &&& 0x3f) ||| 0x80).toUInt8,
      ((cp &&& 0x3f) ||| 0x80).toUInt8]
  else
    .ok [((cp >>> 18) ||| 0xf0).toUInt8, (((cp >>> 12) &&& 0x3f) ||| 0x80).toUInt8,
      (((cp >>> 6) &&& 0x3f) ||| 0x80).toUInt8, ((cp &&& 0x3f) ||| 0x80).toUInt8]

end Utf8

end Strings
end Hiaux
