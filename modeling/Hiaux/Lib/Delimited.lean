import Hiaux.Lib.Bytes

/-!
# `Lib.Delimited` — length-delimited fields

The wire format of a protocol buffer's strings and messages: a tag byte, the length as a base-128 varint,
the bytes. Readers return the value and what follows it, and undo the writers in front of any text.
-/

namespace Lib

/-! ## Varints -/

/-- A number in groups of seven bits, the lowest first; all but the last have the high bit set. -/
def varint (n : Nat) : Bytes :=
  if n < 128 then [UInt8.ofNat n] else UInt8.ofNat (n % 128 + 128) :: varint (n / 128)

/-- Reading a varint back, with the bytes after it. -/
def readVarint : Bytes → Option (Nat × Bytes)
  | [] => none
  | b :: s =>
      if b.toNat < 128 then some (b.toNat, s)
      else (readVarint s).map (fun r => (b.toNat - 128 + 128 * r.1, r.2))

theorem readVarint_cons (b : UInt8) (s : Bytes) :
    readVarint (b :: s) = if b.toNat < 128 then some (b.toNat, s)
      else (readVarint s).map (fun r => (b.toNat - 128 + 128 * r.1, r.2)) := rfl

/-- **Varints are read back**, whatever follows them. -/
theorem readVarint_append (n : Nat) (s : Bytes) : readVarint (varint n ++ s) = some (n, s) := by
  induction n using varint.induct with
  | case1 n h =>
      have hn : (UInt8.ofNat n).toNat = n := by
        rw [UInt8.toNat_ofNat']
        omega
      rw [varint, if_pos h, List.singleton_append, readVarint_cons, hn, if_pos h]
  | case2 n h ih =>
      have hb : (UInt8.ofNat (n % 128 + 128)).toNat = n % 128 + 128 := by
        rw [UInt8.toNat_ofNat']
        omega
      rw [varint, if_neg h, List.cons_append, readVarint_cons, hb, if_neg (by omega), ih,
        Option.map_some]
      have hn : n % 128 + 128 - 128 + 128 * (n / 128) = n := by omega
      rw [hn]

/-! ## Delimited fields -/

/-- A field: its tag, its length, its bytes. -/
def delimited (tag : UInt8) (payload : Bytes) : Bytes := tag :: (varint payload.length ++ payload)

/-- Reading a field with a given tag, and the bytes after it. -/
def readDelimited (tag : UInt8) : Bytes → Option (Bytes × Bytes)
  | [] => none
  | b :: s =>
      if b = tag then
        match readVarint s with
        | none => none
        | some (n, r) => if n ≤ r.length then some (r.take n, r.drop n) else none
      else none

/-- **Fields are read back**, whatever follows them. -/
theorem readDelimited_append (tag : UInt8) (payload s : Bytes) :
    readDelimited tag (delimited tag payload ++ s) = some (payload, s) := by
  have hread : readVarint (varint payload.length ++ (payload ++ s)) = some (payload.length, payload ++ s) :=
    readVarint_append _ _
  simp [readDelimited, delimited, hread]

/-- Reading fields with a given tag to the end of the text. Every field takes a byte at least, so the length
    of the text is enough fuel. -/
def readAll (tag : UInt8) : Nat → Bytes → Option (List Bytes)
  | _, [] => some []
  | 0, _ :: _ => none
  | fuel + 1, b :: s =>
      match readDelimited tag (b :: s) with
      | none => none
      | some (payload, r) => (readAll tag fuel r).map (payload :: ·)

/-- **A repeated field is read back.** -/
theorem readAll_flatMap (tag : UInt8) (payloads : List Bytes) {fuel : Nat}
    (h : payloads.length ≤ fuel) :
    readAll tag fuel (payloads.flatMap (delimited tag)) = some payloads := by
  induction payloads generalizing fuel with
  | nil => cases fuel <;> rfl
  | cons payload payloads ih =>
      obtain ⟨fuel, rfl⟩ : ∃ n, fuel = n + 1 := ⟨fuel - 1, by simp at h; omega⟩
      have hread : readDelimited tag
          (tag :: (varint payload.length ++ payload ++ payloads.flatMap (delimited tag))) =
          some (payload, payloads.flatMap (delimited tag)) := readDelimited_append tag payload _
      show readAll tag (fuel + 1)
        (tag :: (varint payload.length ++ payload ++ payloads.flatMap (delimited tag))) = _
      rw [readAll, hread]
      simp [ih (Nat.le_of_succ_le_succ h)]

/-- Every field takes a byte at least. -/
theorem length_le_flatMap_delimited (tag : UInt8) (payloads : List Bytes) :
    payloads.length ≤ (payloads.flatMap (delimited tag)).length := by
  induction payloads with
  | nil => rfl
  | cons payload payloads ih =>
      rw [List.flatMap_cons, List.length_append]
      simp only [delimited, List.length_cons]
      omega

end Lib
