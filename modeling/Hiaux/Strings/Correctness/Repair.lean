import Hiaux.Strings.Correctness.Utf8Text
import Hiaux.Strings.Utf8Repair

/-!
# `Strings.Correctness.Repair` — what `fix_utf8_string` repairs

A round of `utf8::replace_invalid` takes a byte and trail bytes behind it. They are the encoding of a character,
which is written again, or no character's encoding starts there, and U+FFFD is written for them
(`replaceInvalid_step`). No round passes over a lead byte. So a round comes to every character that stands in the
string, and none is lost (`KeepsCharacters`); and the loop gives up on a string whose last sequence is cut off,
wherever the lead byte of that sequence stands. `fix_utf8_string` then leaves the string as it is
(`fixUtf8String_iff`).
-/

namespace Hiaux
namespace Strings

open Lib Utf8

/-! ## Sequences that are no code point -/

namespace Utf8

/-- Where a computation that failed has failed. -/
theorem bind_error {α β : Type} {x : Except UtfError α} {f : α → Except UtfError β} {e : UtfError}
    (h : x >>= f = .error e) : x = .error e ∨ ∃ a, x = .ok a ∧ f a = .error e := by
  cases x with
  | error e' => exact Or.inl (congrArg Except.error (Except.error.inj h))
  | ok a => exact Or.inr ⟨a, rfl, h⟩

/-- A computation that reads a trail byte first has failed there, or behind it. -/
theorem increaseSafely_error {α : Type} {s : Bytes} {f : UInt8 × Bytes → Except UtfError α} {e : UtfError}
    (h : increaseSafely s >>= f = .error e) :
    s = [] ∧ e = .notEnoughRoom ∨ e = .incompleteSequence ∨
      ∃ b r, s = b :: r ∧ isTrail b = true ∧ f (b, r) = .error e := by
  rcases bind_error h with herror | ⟨⟨b, r⟩, hok, hbehind⟩
  · unfold increaseSafely at herror
    split at herror
    · exact Or.inl ⟨rfl, (Except.error.inj herror).symm⟩
    · split at herror
      · exact absurd herror (by simp)
      · exact Or.inr (Or.inl (Except.error.inj herror).symm)
  · obtain ⟨rfl, hb⟩ := increaseSafely_ok hok
    exact Or.inr (Or.inr ⟨b, r, rfl, hb, hbehind⟩)

/-- A sequence that is cut off: trail bytes behind the lead byte, but fewer than it says. -/
def IsTruncated (lead : UInt8) (trails : Bytes) : Prop :=
  (∀ b ∈ trails, isTrail b = true) ∧ trails.length + 1 < sequenceLength lead

/-- The sequences that are not read. -/
theorem getSequence_error {lead : UInt8} {s : Bytes} {e : UtfError} (h : getSequence lead s = .error e) :
    e = .invalidLead ∨ e = .incompleteSequence ∨ e = .notEnoughRoom ∧ IsTruncated lead s := by
  unfold getSequence at h
  split at h
  · exact absurd h (by simp [getSequence1])
  · rename_i hlength
    rcases increaseSafely_error h with ⟨rfl, rfl⟩ | rfl | ⟨b, r, rfl, hb, h⟩
    · exact Or.inr (Or.inr ⟨rfl, by simp, by simp [hlength]⟩)
    · exact Or.inr (Or.inl rfl)
    · exact absurd h (by simp [pure, Except.pure])
  · rename_i hlength
    rcases increaseSafely_error h with ⟨rfl, rfl⟩ | rfl | ⟨b, r, rfl, hb, h⟩
    · exact Or.inr (Or.inr ⟨rfl, by simp, by simp [hlength]⟩)
    · exact Or.inr (Or.inl rfl)
    · rcases increaseSafely_error h with ⟨rfl, rfl⟩ | rfl | ⟨c, r, rfl, hc, h⟩
      · exact Or.inr (Or.inr ⟨rfl, by simp [hb], by simp [hlength]⟩)
      · exact Or.inr (Or.inl rfl)
      · exact absurd h (by simp [pure, Except.pure])
  · rename_i hlength
    rcases increaseSafely_error h with ⟨rfl, rfl⟩ | rfl | ⟨b, r, rfl, hb, h⟩
    · exact Or.inr (Or.inr ⟨rfl, by simp, by simp [hlength]⟩)
    · exact Or.inr (Or.inl rfl)
    · rcases increaseSafely_error h with ⟨rfl, rfl⟩ | rfl | ⟨c, r, rfl, hc, h⟩
      · exact Or.inr (Or.inr ⟨rfl, by simp [hb], by simp [hlength]⟩)
      · exact Or.inr (Or.inl rfl)
      · rcases increaseSafely_error h with ⟨rfl, rfl⟩ | rfl | ⟨d, r, rfl, hd, h⟩
        · exact Or.inr (Or.inr ⟨rfl, by simp [hb, hc], by simp [hlength]⟩)
        · exact Or.inr (Or.inl rfl)
        · exact absurd h (by simp [pure, Except.pure])
  · exact Or.inl (Except.error.inj h).symm

/-- There is not enough room for a sequence only if it is cut off. -/
theorem isTruncated_of_next {lead : UInt8} {s : Bytes} (h : next (lead :: s) = .error .notEnoughRoom) :
    IsTruncated lead s := by
  rcases bind_error h with hsequence | ⟨⟨cp, r⟩, -, h⟩
  · rcases getSequence_error hsequence with h | h | ⟨-, h⟩
    · exact absurd h (by decide)
    · exact absurd h (by decide)
    · exact h
  · dsimp only at h
    split at h
    · split at h
      · exact absurd h (by simp [pure, Except.pure])
      · exact absurd h (by simp [throw, throwThe, MonadExceptOf.throw])
    · exact absurd h (by simp [throw, throwThe, MonadExceptOf.throw])

theorem sequenceLength_le (lead : UInt8) : sequenceLength lead ≤ 4 := by
  unfold sequenceLength
  split_ifs <;> decide

/-- A sequence that is cut off is not read. -/
theorem getSequence_of_isTruncated {lead : UInt8} {s : Bytes} (h : IsTruncated lead s) :
    getSequence lead s = .error .notEnoughRoom := by
  obtain ⟨htrails, hlt⟩ := h
  have hle := sequenceLength_le lead
  match s with
  | [] =>
      have hlength : sequenceLength lead = 2 ∨ sequenceLength lead = 3 ∨ sequenceLength lead = 4 := by
        simp only [List.length_nil] at hlt
        omega
      unfold getSequence
      rcases hlength with hlength | hlength | hlength <;> rw [hlength] <;> rfl
  | [b] =>
      have hb := htrails b (by simp)
      have hlength : sequenceLength lead = 3 ∨ sequenceLength lead = 4 := by
        simp only [List.length_cons, List.length_nil] at hlt
        omega
      unfold getSequence
      rcases hlength with hlength | hlength
      · rw [hlength]
        show getSequence3 lead [b] = _
        rw [getSequence3, increaseSafely_cons _ hb]
        rfl
      · rw [hlength]
        show getSequence4 lead [b] = _
        rw [getSequence4, increaseSafely_cons _ hb]
        rfl
  | [b, c] =>
      have hb := htrails b (by simp)
      have hc := htrails c (by simp)
      have hlength : sequenceLength lead = 4 := by
        simp only [List.length_cons, List.length_nil] at hlt
        omega
      unfold getSequence
      rw [hlength]
      show getSequence4 lead [b, c] = _
      rw [getSequence4, increaseSafely_cons _ hb]
      show (increaseSafely [c] >>= _) = _
      rw [increaseSafely_cons _ hc]
      rfl
  | b :: c :: d :: s =>
      simp only [List.length_cons] at hlt
      omega

theorem next_of_isTruncated {lead : UInt8} {s : Bytes} (h : IsTruncated lead s) :
    next (lead :: s) = .error .notEnoughRoom := by
  rw [next, getSequence_of_isTruncated h]
  rfl

/-- A lead byte is no trail byte. -/
theorem not_isTrail_of_lead {lead : UInt8} (h : 0 < sequenceLength lead) : isTrail lead = false := by
  obtain ⟨h1, h2, h3, h4⟩ := sequenceLength_iff lead
  have hle := sequenceLength_le lead
  rw [Bool.eq_false_iff, Ne, isTrail_iff]
  omega

/-- The encoding of a character: a lead byte, and trail bytes. -/
theorem encode_cons (c : Char) : ∃ lead trails, String.utf8EncodeChar c = lead :: trails ∧
    isTrail lead = false ∧ ∀ b ∈ trails, isTrail b = true := by
  have hnext := next_encode c []
  rw [List.append_nil] at hnext
  obtain ⟨lead, trails, hencode, hsequence, -⟩ := next_ok hnext
  refine ⟨lead, trails, hencode, ?_⟩
  rcases getSequence_ok hsequence with ⟨hlength, rfl, -⟩ | ⟨b, hlength, rfl, hb, -⟩ |
    ⟨b, c, hlength, rfl, hb, hc, -⟩ | ⟨b, c, d, hlength, rfl, hb, hc, hd, -⟩
  · exact ⟨not_isTrail_of_lead (by omega), by simp⟩
  · exact ⟨not_isTrail_of_lead (by omega), by simp [hb]⟩
  · exact ⟨not_isTrail_of_lead (by omega), by simp [hb, hc]⟩
  · exact ⟨not_isTrail_of_lead (by omega), by simp [hb, hc, hd]⟩

end Utf8

/-! ## A round -/

/-- What stands in a string, and the character that is written for it: the one whose encoding it is, or U+FFFD
    if it is a byte with trail bytes behind it, and holds no character's encoding. -/
def IsRepair (p : Bytes × Char) : Prop :=
  p.1 = String.utf8EncodeChar p.2 ∨ p.2 = '\uFFFD' ∧
    (∃ b trails, p.1 = b :: trails ∧ ∀ t ∈ trails, isTrail t = true) ∧ ∀ c, ¬ String.utf8EncodeChar c <:+: p.1

/-- No character is lost: wherever the encoding of one stands in the string, it is one of the pieces. -/
def KeepsCharacters (s : Bytes) (pieces : List (Bytes × Char)) : Prop :=
  ∀ front c rest, s = front ++ String.utf8EncodeChar c ++ rest →
    ∃ before behind, pieces = before ++ (String.utf8EncodeChar c, c) :: behind ∧ before.flatMap Prod.fst = front

/-- A string whose last sequence is cut off. -/
def EndsInside (s : Bytes) : Prop := ∃ front lead trails, s = front ++ lead :: trails ∧ IsTruncated lead trails

theorem append_replacementMarker : append replacementMarker = .ok (String.utf8EncodeChar '\uFFFD') :=
  append_val '\uFFFD'

/-- What a round takes from the front of a string, and the character it writes for it. -/
structure Taken (lead : UInt8) (trails rest : Bytes) (c : Char) : Prop where
  trail : ∀ b ∈ trails, isTrail b = true
  char : lead :: trails = String.utf8EncodeChar c ∨
    c = '\uFFFD' ∧ ∀ d, ¬ String.utf8EncodeChar d <+: lead :: (trails ++ rest)

variable {lead : UInt8} {trails rest : Bytes} {c : Char}

/-- Where there is no code point, no character's encoding starts. -/
theorem taken_mark {e : UtfError} (htrails : ∀ b ∈ trails, isTrail b = true)
    (h : next (lead :: (trails ++ rest)) = .error e) : Taken lead trails rest '\uFFFD' := by
  refine ⟨htrails, Or.inr ⟨rfl, ?_⟩⟩
  rintro d ⟨r, hprefix⟩
  rw [← hprefix, next_encode] at h
  exact absurd h (by simp)

theorem Taken.isRepair (h : Taken lead trails rest c) : IsRepair (lead :: trails, c) := by
  rcases h.char with hencode | ⟨hmark, hnone⟩
  · exact Or.inl hencode
  · refine Or.inr ⟨hmark, ⟨lead, trails, rfl, h.trail⟩, fun d hinfix => ?_⟩
    rcases List.infix_cons_iff.mp hinfix with hstart | hbehind
    · exact hnone d (hstart.trans (List.prefix_append (lead :: trails) rest))
    · obtain ⟨b, bs, hencode, hlead, -⟩ := encode_cons d
      have hmem : b ∈ trails := hbehind.subset (by simp [hencode])
      exact absurd (h.trail b hmem) (by simp [hlead])

/-- A character in front is the one that is taken. -/
theorem Taken.encode {d : Char} {r : Bytes} (h : Taken lead trails rest c)
    (hsplit : lead :: (trails ++ rest) = String.utf8EncodeChar d ++ r) :
    (lead :: trails, c) = (String.utf8EncodeChar d, d) := by
  rcases h.char with hencode | ⟨-, hnone⟩
  · rw [← List.cons_append, hencode] at hsplit
    have hnext := next_encode c rest
    rw [hsplit, next_encode] at hnext
    have hd : d = c := Char.ext (Prod.mk.inj (Except.ok.inj hnext)).1
    rw [hencode, hd]
  · exact absurd ⟨r, hsplit.symm⟩ (hnone d)

/-- **A round loses no character**: one that stands in the string is taken, or stands behind what is taken. -/
theorem KeepsCharacters.cons {pieces : List (Bytes × Char)} (h : Taken lead trails rest c)
    (hkeeps : KeepsCharacters rest pieces) :
    KeepsCharacters (lead :: (trails ++ rest)) ((lead :: trails, c) :: pieces) := by
  intro front d r hsplit
  rw [List.append_assoc] at hsplit
  cases front with
  | nil => exact ⟨[], pieces, congrArg (· :: pieces) (h.encode hsplit), rfl⟩
  | cons b front =>
      obtain ⟨rfl, htail⟩ := List.cons.inj hsplit
      have hbehind : ∀ more, front = trails ++ more → rest = more ++ (String.utf8EncodeChar d ++ r) →
          ∃ before behind, (lead :: trails, c) :: pieces = before ++ (String.utf8EncodeChar d, d) :: behind ∧
            before.flatMap Prod.fst = lead :: front := by
        intro more hfront hrest
        rw [← List.append_assoc] at hrest
        obtain ⟨before, behind, rfl, rfl⟩ := hkeeps more d r hrest
        exact ⟨(lead :: trails, c) :: before, behind, rfl, by rw [List.flatMap_cons, hfront, List.cons_append]⟩
      rcases List.append_eq_append_iff.mp htail with ⟨more, hfront, hrest⟩ | ⟨more, htrails, hrest⟩
      · exact hbehind more hfront hrest
      · cases more with
        | nil => exact hbehind [] (by rw [htrails, List.append_nil, List.append_nil]) hrest.symm
        | cons b more =>
            obtain ⟨lead', trails', hencode, hlead, -⟩ := encode_cons d
            rw [hencode, List.cons_append, List.cons_append] at hrest
            obtain ⟨rfl, -⟩ := List.cons.inj hrest
            exact absurd (h.trail lead' (by simp [htrails])) (by simp [hlead])

/-- Taking off what `next` has read. -/
theorem take_read (p rest : Bytes) : (p ++ rest).take ((p ++ rest).length - rest.length) = p := by
  rw [List.length_append, Nat.add_sub_cancel, List.take_left]

/-- The encoding of a character is written again. -/
theorem replaceInvalid_encode (c : Char) (rest : Bytes) (replacement : UInt32) :
    replaceInvalid (String.utf8EncodeChar c ++ rest) replacement =
      (String.utf8EncodeChar c ++ ·) <$> replaceInvalid rest replacement := by
  obtain ⟨lead, trails, hencode, -⟩ := encode_cons c
  have hnext := next_encode c rest
  have htake := take_read (String.utf8EncodeChar c) rest
  rw [hencode, List.cons_append] at *
  rw [replaceInvalid]
  split
  · rename_i hok
    obtain ⟨rfl, rfl⟩ := Prod.mk.inj (Except.ok.inj (hnext.symm.trans hok))
    rw [htake]
    rfl
  · rename_i herror
    exact absurd (hnext.symm.trans herror) (by simp)
  · rename_i herror
    exact absurd (hnext.symm.trans herror) (by simp)
  · rename_i herror
    exact absurd (hnext.symm.trans herror) (by simp)

/-- What is no code point is left with one mark, up to what is not a trail byte. -/
theorem replaceInvalid_error {lead : UInt8} {behind : Bytes} {e : UtfError}
    (hnext : next (lead :: behind) = .error e) (he : e ≠ .notEnoughRoom) :
    replaceInvalid (lead :: behind) replacementMarker =
      (String.utf8EncodeChar '\uFFFD' ++ ·) <$>
        replaceInvalid (if e = .invalidLead then behind else behind.dropWhile isTrail) replacementMarker := by
  rw [replaceInvalid]
  split
  · rename_i hok
    exact absurd (hnext.symm.trans hok) (by simp)
  · rename_i herror
    exact absurd (Except.error.inj (hnext.symm.trans herror)) he
  · rename_i herror
    rw [if_pos (Except.error.inj (hnext.symm.trans herror)), append_replacementMarker]
    rfl
  · rename_i hlead herror
    obtain rfl := Except.error.inj (hnext.symm.trans herror)
    rw [if_neg hlead, append_replacementMarker]
    rfl

theorem replaceInvalid_truncated {lead : UInt8} {trails : Bytes} (h : IsTruncated lead trails) :
    replaceInvalid (lead :: trails) replacementMarker = .error .notEnoughRoom := by
  have hnext := next_of_isTruncated h
  rw [replaceInvalid]
  split
  · rename_i hok
    exact absurd (hnext.symm.trans hok) (by simp)
  · rfl
  · rename_i herror
    exact absurd (hnext.symm.trans herror) (by simp)
  · rename_i hroom _ herror
    exact absurd (Except.error.inj (hnext.symm.trans herror)).symm hroom

/-- **A round** takes a byte and trail bytes behind it, unless the sequence there is cut off. -/
theorem replaceInvalid_step (lead : UInt8) (behind : Bytes) :
    (∃ trails rest c, behind = trails ++ rest ∧ Taken lead trails rest c ∧
      replaceInvalid (lead :: behind) replacementMarker =
        (String.utf8EncodeChar c ++ ·) <$> replaceInvalid rest replacementMarker) ∨
    IsTruncated lead behind := by
  cases hnext : next (lead :: behind) with
  | ok read =>
      obtain ⟨c, -, hsplit⟩ := next_sound hnext
      obtain ⟨lead', trails, hencode, -, htrails⟩ := encode_cons c
      have hround := replaceInvalid_encode c read.2 replacementMarker
      rw [← hsplit] at hround
      rw [hencode, List.cons_append] at hsplit
      obtain ⟨rfl, rfl⟩ := List.cons.inj hsplit
      exact Or.inl ⟨trails, read.2, c, rfl, ⟨htrails, Or.inl hencode.symm⟩, hround⟩
  | error e =>
      by_cases hroom : e = .notEnoughRoom
      · rw [hroom] at hnext
        exact Or.inr (isTruncated_of_next hnext)
      · have hround := replaceInvalid_error hnext hroom
        by_cases hlead : e = .invalidLead
        · rw [if_pos hlead] at hround
          exact Or.inl ⟨[], behind, '\uFFFD', rfl, taken_mark (by simp) hnext, hround⟩
        · rw [if_neg hlead] at hround
          have hcut : behind.takeWhile isTrail ++ behind.dropWhile isTrail = behind :=
            List.takeWhile_append_dropWhile
          have htrails : ∀ b ∈ behind.takeWhile isTrail, isTrail b = true :=
            fun b hb => List.mem_takeWhile_imp hb
          exact Or.inl ⟨_, _, '\uFFFD', hcut.symm, taken_mark htrails (hcut.symm ▸ hnext), hround⟩

/-! ## The loop -/

/-- Induction over the rounds: the string has been read, its last sequence is cut off, or a round takes a byte and
    trail bytes behind it. -/
theorem rounds_induction {motive : Bytes → Prop} (nil : motive [])
    (truncated : ∀ lead trails, IsTruncated lead trails → motive (lead :: trails))
    (round : ∀ lead trails rest c, Taken lead trails rest c → ¬ IsTruncated lead (trails ++ rest) →
      replaceInvalid (lead :: (trails ++ rest)) replacementMarker =
        (String.utf8EncodeChar c ++ ·) <$> replaceInvalid rest replacementMarker →
      motive rest → motive (lead :: (trails ++ rest)))
    (s : Bytes) : motive s := by
  induction hn : s.length using Nat.strong_induction_on generalizing s with
  | _ n ih =>
      cases s with
      | nil => exact nil
      | cons lead behind =>
          by_cases hcut : IsTruncated lead behind
          · exact truncated lead behind hcut
          · have hstep := (replaceInvalid_step lead behind).resolve_right hcut
            obtain ⟨trails, rest, c, rfl, htaken, hround⟩ := hstep
            have hlt : rest.length < n := by
              rw [← hn, List.length_cons, List.length_append]
              omega
            exact round lead trails rest c htaken hcut hround (ih rest.length hlt rest rfl)

/-- No round passes over the lead byte of a sequence that is cut off. -/
theorem EndsInside.of_append {lead : UInt8} {trails rest : Bytes} (h : EndsInside (lead :: (trails ++ rest)))
    (htrails : ∀ b ∈ trails, isTrail b = true) (hnot : ¬ IsTruncated lead (trails ++ rest)) :
    EndsInside rest := by
  obtain ⟨front, lead', trails', hsplit, hcut⟩ := h
  cases front with
  | nil =>
      obtain ⟨rfl, rfl⟩ := List.cons.inj hsplit
      exact absurd hcut hnot
  | cons b front =>
      obtain ⟨-, hsplit⟩ := List.cons.inj hsplit
      rcases List.append_eq_append_iff.mp hsplit with ⟨more, rfl, rfl⟩ | ⟨more, rfl, hmore⟩
      · exact ⟨more, lead', trails', rfl, hcut⟩
      · cases more with
        | nil => exact ⟨[], lead', trails', hmore.symm, hcut⟩
        | cons b' more =>
            obtain ⟨rfl, -⟩ := List.cons.inj hmore
            have hlead := not_isTrail_of_lead (Nat.lt_of_le_of_lt (Nat.zero_le _) hcut.2)
            exact absurd (htrails lead' (by simp)) (by simp [hlead])

theorem replaceInvalid_endsInside {s : Bytes} (h : EndsInside s) :
    replaceInvalid s replacementMarker = .error .notEnoughRoom := by
  induction s using rounds_induction with
  | nil =>
      obtain ⟨front, lead, trails, hsplit, -⟩ := h
      exact absurd hsplit (by simp)
  | truncated lead trails hcut => exact replaceInvalid_truncated hcut
  | round lead trails rest c htaken hcut hround ih =>
      rw [hround, ih (h.of_append htaken.trail hcut)]
      rfl

/-- **The rounds of the loop**: the string is cut into pieces, and each is repaired. -/
theorem exists_pieces {s : Bytes} (h : ¬ EndsInside s) : ∃ pieces : List (Bytes × Char),
    pieces.flatMap Prod.fst = s ∧ (∀ p ∈ pieces, IsRepair p) ∧ KeepsCharacters s pieces ∧
      replaceInvalid s replacementMarker = .ok (utf8 (pieces.map Prod.snd)) := by
  induction s using rounds_induction with
  | nil =>
      have hkeeps : KeepsCharacters [] [] := by
        intro front c rest hsplit
        obtain ⟨lead, trails, hencode, -⟩ := encode_cons c
        exact absurd hsplit (by simp [hencode])
      exact ⟨[], rfl, by simp, hkeeps, by rw [replaceInvalid]; rfl⟩
  | truncated lead trails hcut => exact absurd ⟨[], lead, trails, rfl, hcut⟩ h
  | round lead trails rest c htaken hcut hround ih =>
      have hrest : ¬ EndsInside rest := by
        rintro ⟨front, lead', trails', rfl, hcut'⟩
        exact h ⟨lead :: (trails ++ front), lead', trails', by simp, hcut'⟩
      obtain ⟨pieces, hpieces, hrepairs, hkeeps, hresult⟩ := ih hrest
      refine ⟨(lead :: trails, c) :: pieces, ?_, ?_, hkeeps.cons htaken, ?_⟩
      · rw [List.flatMap_cons, hpieces, List.cons_append]
      · exact List.forall_mem_cons.mpr ⟨htaken.isRepair, hrepairs⟩
      · rw [hround, hresult]
        rfl

/-- A valid string is written again. -/
theorem replaceInvalid_utf8 (cs : List Char) : replaceInvalid (utf8 cs) replacementMarker = .ok (utf8 cs) := by
  induction cs with
  | nil =>
      rw [utf8_nil, replaceInvalid]
  | cons c cs ih =>
      rw [utf8_cons, replaceInvalid_encode, ih]
      rfl

/-! ## The string afterwards -/

/-- A string that ends inside a sequence is left as it is. -/
theorem fixUtf8String_endsInside {s : Bytes} (h : EndsInside s) : fixUtf8String s = .ok s := by
  rw [fixUtf8String, replaceInvalid_endsInside h]

/-- A valid string is left as it is. -/
theorem fixUtf8String_utf8 (cs : List Char) : fixUtf8String (utf8 cs) = .ok (utf8 cs) := by
  rw [fixUtf8String, replaceInvalid_utf8]

/-- A valid string does not end inside a sequence. -/
theorem not_endsInside_utf8 (cs : List Char) : ¬ EndsInside (utf8 cs) := by
  intro h
  have hresult := replaceInvalid_utf8 cs
  rw [replaceInvalid_endsInside h] at hresult
  exact absurd hresult (by simp)

/-- **When `fix_utf8_string` repairs a string**: if it does not end inside a sequence. The string is then cut
    into pieces; every character in it is one and is kept, and each other piece, which holds none, becomes one
    U+FFFD. -/
theorem fixUtf8String_iff (s : Bytes) :
    (∃ pieces : List (Bytes × Char), pieces.flatMap Prod.fst = s ∧ (∀ p ∈ pieces, IsRepair p) ∧
      KeepsCharacters s pieces ∧ fixUtf8String s = .ok (utf8 (pieces.map Prod.snd))) ↔ ¬ EndsInside s := by
  constructor
  · rintro ⟨pieces, -, -, -, hresult⟩ h
    rw [fixUtf8String_endsInside h] at hresult
    rw [Except.ok.inj hresult] at h
    exact not_endsInside_utf8 _ h
  · intro h
    obtain ⟨pieces, hpieces, hrepairs, hkeeps, hresult⟩ := exists_pieces h
    refine ⟨pieces, hpieces, hrepairs, hkeeps, ?_⟩
    rw [fixUtf8String, hresult]

/-- Nothing leaves it, and a second call changes nothing. -/
theorem fixUtf8String_fixUtf8String (s : Bytes) : ∃ t, fixUtf8String s = .ok t ∧ fixUtf8String t = .ok t := by
  by_cases h : EndsInside s
  · exact ⟨s, fixUtf8String_endsInside h, fixUtf8String_endsInside h⟩
  · obtain ⟨pieces, -, -, -, hresult⟩ := exists_pieces h
    refine ⟨utf8 (pieces.map Prod.snd), ?_, fixUtf8String_utf8 _⟩
    rw [fixUtf8String, hresult]

end Strings
end Hiaux
