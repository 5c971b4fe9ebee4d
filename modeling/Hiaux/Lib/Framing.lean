import Hiaux.Lib.Bytes
import Hiaux.Lib.Machine

/-!
# `Lib.Framing` — length-prefixed frames on a byte stream

A frame is a message preceded by its size in decimal and a newline. `Framing.machine` reads a stream of
frames: an optional preamble first, then frames, with some bytes (keep-alives) ignored between them. It
fails, for good, on a wrong preamble and on a size line that is no number or too large.

`runs_items` is the reading theorem: whatever items were written, the machine gives their messages back.
-/

namespace Lib

/-- The parameters of a framing. -/
structure Framing where
  /-- What the stream starts with. -/
  preamble : Bytes
  /-- The bytes ignored where a frame may start. -/
  skip : UInt8 → Bool
  /-- The largest size accepted. -/
  limit : Nat
  /-- The number a size line denotes, if any. -/
  readSize : Bytes → Option Nat

/-- A message with its size line. -/
def frame (m : Bytes) : Bytes := decimal m.length ++ newline :: m

/-- A frame says where its message starts: after the digits and the newline. -/
theorem frame_injective : Function.Injective frame := by
  intro a b h
  have hdigits : ∀ m : Bytes, (frame m).takeWhile isDigit = decimal m.length := by
    intro m
    unfold frame
    rw [List.takeWhile_append_of_pos (fun _ hb => decimal_isDigit hb)]
    exact List.append_nil _
  have hdec : decimal a.length = decimal b.length := by rw [← hdigits, ← hdigits, h]
  unfold frame at h
  rw [hdec] at h
  exact (List.cons.inj (List.append_cancel_left h)).2

namespace Framing

/-- Where the machine is in the stream. -/
inductive Phase where
  | preamble
  | size
  | message (n : Nat)
  | failed
deriving DecidableEq, Repr

variable (F : Framing)

/-- The phase after a size line. -/
def sizePhase (line : Bytes) : Phase :=
  match F.readSize line with
  | some n => if n ≤ F.limit then .message n else .failed
  | none => .failed

/-- One step: the preamble, an ignored byte, a size line, or a message. -/
def step : Phase → Bytes → Option (Phase × Bytes × List Bytes)
  | .preamble, b =>
      if F.preamble.length ≤ b.length then
        some (if b.take F.preamble.length = F.preamble then .size else .failed,
          b.drop F.preamble.length, [])
      else none
  | .size, [] => none
  | .size, x :: t =>
      if F.skip x then some (.size, t, [])
      else match find newline (x :: t) with
        | none => none
        | some n => some (F.sizePhase ((x :: t).take n), (x :: t).drop (n + 1), [])
  | .message n, b => if n ≤ b.length then some (.size, b.drop n, [b.take n]) else none
  | .failed, _ => none

theorem step_mono {s s' : Phase} {b b' : Bytes} {os : List Bytes} (d : Bytes)
    (h : F.step s b = some (s', b', os)) : F.step s (b ++ d) = some (s', b' ++ d, os) := by
  cases s with
  | preamble =>
      simp only [step] at h ⊢
      split at h
      · rename_i hle
        obtain ⟨rfl, rfl, rfl⟩ : _ ∧ _ ∧ _ := by simpa using h
        rw [if_pos (by simp; omega), List.take_append_of_le_length hle, List.drop_append_of_le_length hle]
      · exact absurd h (by simp)
  | size =>
      cases b with
      | nil => exact absurd h (by simp [step])
      | cons x t =>
          simp only [step, List.cons_append] at h ⊢
          split at h
          · rename_i hskip
            obtain ⟨rfl, rfl, rfl⟩ : _ ∧ _ ∧ _ := by simpa using h
            rw [if_pos hskip]
          · rename_i hskip
            rw [if_neg hskip]
            cases hfind : find newline (x :: t) with
            | none => rw [hfind] at h; exact absurd h (by simp)
            | some n =>
                rw [hfind] at h
                -- the newline found first stays the first one
                have hlen : n < (x :: t).length := find_lt_length hfind
                have hfind' := find_append_of_some d hfind
                rw [List.cons_append] at hfind'
                rw [hfind']
                obtain ⟨rfl, rfl, rfl⟩ : _ ∧ _ ∧ _ := by simpa using h
                simp only [← List.cons_append]
                rw [List.take_append_of_le_length hlen.le, List.drop_append_of_le_length hlen]
                rfl
  | message n =>
      simp only [step] at h ⊢
      split at h
      · rename_i hle
        obtain ⟨rfl, rfl, rfl⟩ : _ ∧ _ ∧ _ := by simpa using h
        rw [if_pos (by simp; omega), List.take_append_of_le_length hle, List.drop_append_of_le_length hle]
      · exact absurd h (by simp)
  | failed => exact absurd h (by simp [step])

/-- Input left, weighted so that reading a message of size zero counts too. -/
def measure : Phase → Bytes → Nat
  | .preamble, b => 2 * b.length + 2
  | .size, b => 2 * b.length + 1
  | .message _, b => 2 * b.length + 2
  | .failed, _ => 0

theorem measure_le (s : Phase) (b : Bytes) : measure s b ≤ 2 * b.length + 2 := by
  cases s <;> simp [measure]

theorem step_lt {s s' : Phase} {b b' : Bytes} {os : List Bytes}
    (h : F.step s b = some (s', b', os)) : measure s' b' < measure s b := by
  cases s with
  | preamble =>
      simp only [step] at h
      split at h
      · obtain ⟨rfl, rfl, rfl⟩ : _ ∧ _ ∧ _ := by simpa using h
        split <;> simp [measure]
      · exact absurd h (by simp)
  | size =>
      cases b with
      | nil => exact absurd h (by simp [step])
      | cons x t =>
          simp only [step] at h
          split at h
          · obtain ⟨rfl, rfl, rfl⟩ : _ ∧ _ ∧ _ := by simpa using h
            simp [measure]
          · split at h
            · exact absurd h (by simp)
            · obtain ⟨rfl, rfl, rfl⟩ : _ ∧ _ ∧ _ := by simpa using h
              refine Nat.lt_of_le_of_lt (measure_le _ _) ?_
              simp [measure]
              omega
  | message n =>
      simp only [step] at h
      split at h
      · obtain ⟨rfl, rfl, rfl⟩ : _ ∧ _ ∧ _ := by simpa using h
        simp [measure]
      · exact absurd h (by simp)
  | failed => exact absurd h (by simp [step])

/-- The frame reader. -/
def machine : Machine Phase UInt8 Bytes where
  step := F.step
  mono := F.step_mono
  measure := measure
  step_lt := F.step_lt

/-- The states the machine can still work in. -/
def Alive (s : Phase) : Prop := s ≠ .failed

theorem dead_outside_alive : F.machine.DeadOutside Alive := by
  intro s b hs
  obtain rfl : s = .failed := by simpa [Alive] using hs
  rfl

/-- Where no byte is ignored, a size line is all that can be read. -/
theorem step_size_of_not_skip {b : Bytes} (h : ∀ x, b.head? = some x → F.skip x = false) :
    F.machine.step .size b =
      (find newline b).map (fun n => (F.sizePhase (b.take n), b.drop (n + 1), [])) := by
  cases b with
  | nil => rfl
  | cons x t =>
      have hx : F.skip x = false := h x rfl
      simp only [machine, step, hx]
      cases find newline (x :: t) <;> rfl

/-- A line that leads to a live state is a number within the limit. -/
theorem sizePhase_alive {line : Bytes} (h : Alive (F.sizePhase line)) :
    ∃ n, F.readSize line = some n ∧ n ≤ F.limit ∧ F.sizePhase line = .message n := by
  cases hr : F.readSize line with
  | none => exact absurd (show F.sizePhase line = .failed by simp [sizePhase, hr]) h
  | some n =>
      by_cases hn : n ≤ F.limit
      · exact ⟨n, rfl, hn, by simp [sizePhase, hr, hn]⟩
      · exact absurd (show F.sizePhase line = .failed by simp [sizePhase, hr, hn]) h

theorem stuck_preamble {b : Bytes} (h : b.length < F.preamble.length) : F.machine.Stuck .preamble b :=
  if_neg (show ¬ F.preamble.length ≤ b.length by omega)

theorem stuck_message {n : Nat} {b : Bytes} (h : b.length < n) : F.machine.Stuck (.message n) b :=
  if_neg (show ¬ n ≤ b.length by omega)

theorem stuck_size_nil : F.machine.Stuck .size [] := rfl

/-! ## Reading what was written -/

/-- What a writer puts on the stream: a byte to be ignored, or a message. -/
inductive Item where
  | ignored (b : UInt8)
  | message (m : Bytes)
deriving DecidableEq, Repr

/-- The bytes of an item. -/
def Item.encode : Item → Bytes
  | .ignored b => [b]
  | .message m => frame m

/-- The bytes of a sequence of items. -/
def encodeItems (is : List Item) : Bytes := is.flatMap Item.encode

/-- The messages among the items. -/
def messages (is : List Item) : List Bytes :=
  is.filterMap (fun i => match i with | .ignored _ => none | .message m => some m)

/-- An item the framing can carry. -/
def Fits : Item → Prop
  | .ignored b => F.skip b = true
  | .message m => m.length ≤ F.limit

/-- What a framing needs for its numerals to be read back. -/
structure ReadsNumerals : Prop where
  skip_digit : ∀ b, isDigit b = true → F.skip b = false
  read : ∀ n ≤ F.limit, F.readSize (decimal n) = some n

variable {F}

/-- A frame is read in two steps: its size line, its message. -/
theorem runs_frame (hF : F.ReadsNumerals) {m : Bytes} (hm : m.length ≤ F.limit) (r : Bytes) :
    F.machine.Runs .size (frame m ++ r) [m] .size r := by
  obtain ⟨x, t, hx⟩ := List.exists_cons_of_ne_nil (decimal_ne_nil m.length)
  have hskip : F.skip x = false := by
    apply hF.skip_digit
    apply decimal_isDigit (n := m.length)
    rw [hx]
    exact List.mem_cons_self
  have hnl : newline ∉ x :: t := by
    rw [← hx]
    exact not_mem_decimal rfl
  -- the size line: the digits hold no newline, so it ends where the frame says
  have hsize : F.machine.step .size (frame m ++ r) = some (.message m.length, m ++ r, []) := by
    have hfind := find_append_cons (m ++ r) hnl
    have hphase : F.sizePhase (x :: t) = .message m.length := by
      rw [sizePhase, ← hx, hF.read _ hm]
      exact if_pos hm
    have htake : (x :: (t ++ newline :: (m ++ r))).take (t.length + 1) = x :: t := by
      rw [List.take_succ_cons, List.take_left]
    have hdrop : (x :: (t ++ newline :: (m ++ r))).drop (t.length + 1 + 1) = m ++ r := by
      rw [List.drop_succ_cons, List.drop_append]
      simp
    rw [frame, hx]
    simp only [List.cons_append, List.append_assoc, List.length_cons] at hfind ⊢
    simp only [machine, step, hskip, hfind, htake, hdrop, hphase]
    rfl
  have hmsg : F.machine.step (.message m.length) (m ++ r) = some (.size, r, [m]) := by
    simp only [machine, step]
    rw [if_pos (by simp), List.drop_left, List.take_left]
  exact Machine.Runs.head hsize (Machine.Runs.single hmsg)

/-- **What was written is what is read**: the items' messages, in order, with nothing left over. -/
theorem runs_items (hF : F.ReadsNumerals) (is : List Item) (his : ∀ i ∈ is, F.Fits i) (r : Bytes) :
    F.machine.Runs .size (encodeItems is ++ r) (messages is) .size r := by
  induction is with
  | nil => exact Machine.Runs.refl
  | cons i is ih =>
      have hrest := ih (fun j hj => his j (by simp [hj]))
      have hi := his i (by simp)
      simp only [encodeItems, List.flatMap_cons, List.append_assoc] at hrest ⊢
      cases i with
      | ignored b =>
          have hb : F.machine.step .size (b :: (is.flatMap Item.encode ++ r))
              = some (.size, is.flatMap Item.encode ++ r, []) := if_pos hi
          exact Machine.Runs.head hb hrest
      | message m => exact (runs_frame hF hi (is.flatMap Item.encode ++ r)).trans hrest

/-- Ignored bytes in front of a frame are skipped. -/
theorem runs_ignored {bs : Bytes} (h : ∀ b ∈ bs, F.skip b = true) (r : Bytes) :
    F.machine.Runs .size (bs ++ r) [] .size r := by
  induction bs with
  | nil => exact Machine.Runs.refl
  | cons b bs ih =>
      have hb : F.machine.step .size (b :: (bs ++ r)) = some (.size, bs ++ r, []) := if_pos (h b List.mem_cons_self)
      exact Machine.Runs.head hb (ih fun x hx => h x (List.mem_cons_of_mem b hx))

/-- The preamble is read in one step. -/
theorem runs_preamble (r : Bytes) : F.machine.Runs .preamble (F.preamble ++ r) [] .size r := by
  apply Machine.Runs.single
  simp only [machine, step]
  rw [if_pos (by simp), List.take_left, List.drop_left, if_pos rfl]

end Framing

end Lib
