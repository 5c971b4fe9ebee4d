import Hiaux.Lib.Framing
import Mathlib.Data.List.Forall2

/-!
# `Lib.Frames` — the complete frames of a stream

A stream of frames that has arrived so far is its preamble, some complete frames, and what follows the last
of them (`Framing.frames`). This is the splitting of the stream as a whole; the machine of `Lib.Framing`
comes to the same messages step by step (`frames_of_runs`), for a framing that ignores no bytes.
-/

namespace Lib
namespace Framing

variable (F : Framing)

/-- The bytes of a complete frame: a size line that denotes the length of the message after it, within the
    limit. -/
def FrameOf (m b : Bytes) : Prop :=
  m.length ≤ F.limit ∧ ∃ line, newline ∉ line ∧ F.readSize line = some m.length ∧ b = line ++ newline :: m

/-- The message of the first frame, if the frame is complete, and what follows it. -/
def nextFrame (b : Bytes) : Option (Bytes × Bytes) :=
  (find newline b).bind fun n => (F.readSize (b.take n)).bind fun size =>
    if size ≤ F.limit ∧ size ≤ (b.drop (n + 1)).length then
      some ((b.drop (n + 1)).take size, (b.drop (n + 1)).drop size)
    else none

/-- The messages of the complete frames, and what follows the last of them. -/
def framesFrom : Nat → Bytes → List Bytes × Bytes
  | 0, b => ([], b)
  | fuel + 1, b =>
      match F.nextFrame b with
      | none => ([], b)
      | some (m, rest) => (m :: (framesFrom fuel rest).1, (framesFrom fuel rest).2)

/-- The complete frames of a stream after its preamble. -/
def frames (stream : Bytes) : List Bytes × Bytes :=
  if F.preamble <+: stream then F.framesFrom stream.length (stream.drop F.preamble.length) else ([], stream)

variable {F}

/-! ## One frame -/

theorem nextFrame_eq_some {b m rest : Bytes} (h : F.nextFrame b = some (m, rest)) :
    ∃ n, find newline b = some n ∧ F.readSize (b.take n) = some m.length ∧ m.length ≤ F.limit ∧
      b.drop (n + 1) = m ++ rest := by
  obtain ⟨n, hn, h⟩ := Option.bind_eq_some_iff.mp h
  obtain ⟨size, hsize, h⟩ := Option.bind_eq_some_iff.mp h
  split at h
  · rename_i hle
    obtain ⟨rfl, rfl⟩ := Prod.mk.inj (Option.some.inj h)
    have hlen : ((b.drop (n + 1)).take size).length = size := List.length_take_of_le hle.2
    exact ⟨n, hn, by rw [hlen]; exact hsize, by rw [hlen]; exact hle.1, (List.take_append_drop _ _).symm⟩
  · exact absurd h (by simp)

/-- A frame at the front of a stream is found. -/
theorem nextFrame_frameOf {m b : Bytes} (h : F.FrameOf m b) (rest : Bytes) :
    F.nextFrame (b ++ rest) = some (m, rest) := by
  obtain ⟨hlimit, line, hline, hsize, rfl⟩ := h
  have hfind : find newline (line ++ newline :: (m ++ rest)) = some line.length := find_append_cons _ hline
  have htake : (line ++ newline :: (m ++ rest)).take line.length = line := List.take_left
  have hdrop : (line ++ newline :: (m ++ rest)).drop (line.length + 1) = m ++ rest := by
    rw [← List.drop_drop, List.drop_left]
    rfl
  rw [List.append_assoc, List.cons_append, nextFrame, hfind, Option.bind_some, htake, hsize, Option.bind_some,
    hdrop, if_pos ⟨hlimit, by simp⟩, List.take_left, List.drop_left]

/-- What is found is a frame. -/
theorem frameOf_nextFrame {b m rest : Bytes} (h : F.nextFrame b = some (m, rest)) :
    ∃ fb, F.FrameOf m fb ∧ b = fb ++ rest := by
  obtain ⟨n, hn, hsize, hlimit, hdrop⟩ := nextFrame_eq_some h
  obtain ⟨hline, hsplit⟩ := find_split hn
  refine ⟨b.take n ++ newline :: m, ⟨hlimit, b.take n, hline, hsize, rfl⟩, ?_⟩
  rw [List.append_assoc, List.cons_append, ← hdrop]
  exact hsplit

theorem length_nextFrame {b m rest : Bytes} (h : F.nextFrame b = some (m, rest)) : rest.length < b.length := by
  obtain ⟨n, hn, -, -, hdrop⟩ := nextFrame_eq_some h
  have hlt := find_lt_length hn
  have hlen := congrArg List.length hdrop
  rw [List.length_drop, List.length_append] at hlen
  omega

/-! ## The machine at one frame -/

/-- A step that emits something emits one message and ends at a frame boundary. -/
theorem step_emits {s s' : Phase} {b b' : Bytes} {os : List Bytes} (h : F.machine.step s b = some (s', b', os)) :
    os = [] ∨ (s' = .size ∧ ∃ m, os = [m]) := by
  cases s with
  | preamble =>
      simp only [machine, step] at h
      split at h
      · obtain ⟨-, -, rfl⟩ : _ ∧ _ ∧ _ := by simpa using h
        exact Or.inl rfl
      · exact absurd h (by simp)
  | size =>
      cases b with
      | nil => exact absurd h (by simp [machine, step])
      | cons x t =>
          simp only [machine, step] at h
          split at h
          · obtain ⟨-, -, rfl⟩ : _ ∧ _ ∧ _ := by simpa using h
            exact Or.inl rfl
          · split at h
            · exact absurd h (by simp)
            · obtain ⟨-, -, rfl⟩ : _ ∧ _ ∧ _ := by simpa using h
              exact Or.inl rfl
  | message n =>
      simp only [machine, step] at h
      split at h
      · obtain ⟨rfl, -, rfl⟩ : _ ∧ _ ∧ _ := by simpa using h
        exact Or.inr ⟨rfl, _, rfl⟩
      · exact absurd h (by simp)
  | failed => exact absurd h (by simp [machine, step])

/-- A run that emits messages is at a frame boundary after each. -/
theorem runs_cons {s t : Phase} {b c m : Bytes} {ms : List Bytes} (h : F.machine.Runs s b (m :: ms) t c) :
    ∃ b', F.machine.Runs s b [m] .size b' ∧ F.machine.Runs .size b' ms t c := by
  generalize hos : m :: ms = os at h
  induction h with
  | refl => exact absurd hos (by simp)
  | @head s b s' b' os t c os' hstep hrun ih =>
      rcases step_emits hstep with rfl | ⟨rfl, o, rfl⟩
      · obtain ⟨b'', hfirst, hrest⟩ := ih hos
        exact ⟨b'', Machine.Runs.head hstep hfirst, hrest⟩
      · obtain ⟨rfl, rfl⟩ := List.cons.inj hos
        exact ⟨b', Machine.Runs.single hstep, hrun⟩

variable (hskip : ∀ x, F.skip x = false)

include hskip

/-- The first frame is read in two steps. -/
theorem runs_nextFrame {b m rest : Bytes} (h : F.nextFrame b = some (m, rest)) :
    F.machine.Runs .size b [m] .size rest := by
  obtain ⟨n, hn, hsize, hlimit, hdrop⟩ := nextFrame_eq_some h
  have hline : F.machine.step .size b = some (.message m.length, m ++ rest, []) := by
    rw [F.step_size_of_not_skip (fun x _ => hskip x), hn, Option.map_some, sizePhase, hsize, hdrop]
    simp only [if_pos hlimit]
  have hmsg : F.machine.step (.message m.length) (m ++ rest) = some (.size, rest, [m]) := by
    simp only [machine, step]
    rw [if_pos (by simp), List.drop_left, List.take_left]
  exact Machine.Runs.head hline (Machine.Runs.single hmsg)

/-- What the machine can emit next is the first frame. -/
theorem nextFrame_of_runs {b c m : Bytes} {ms : List Bytes} {t : Phase}
    (h : F.machine.Runs .size b (m :: ms) t c) :
    ∃ b', F.nextFrame b = some (m, b') ∧ F.machine.Runs .size b' ms t c := by
  rcases h.cases_head with ⟨hnil, -⟩ | ⟨s', b₁, o, os', hstep, hos, hrun⟩
  · exact absurd hnil (by simp)
  rw [F.step_size_of_not_skip (fun x _ => hskip x)] at hstep
  obtain ⟨n, hn, hstep⟩ := Option.map_eq_some_iff.mp hstep
  obtain ⟨rfl, rfl, rfl⟩ : F.sizePhase (b.take n) = s' ∧ b.drop (n + 1) = b₁ ∧ [] = o := by simpa using hstep
  rw [List.nil_append] at hos
  subst hos
  -- a message is emitted, so the line was a number within the limit
  have halive : Alive (F.sizePhase (b.take n)) := by
    intro hfailed
    rw [hfailed] at hrun
    exact absurd (hrun.of_stuck rfl).1 (by simp)
  obtain ⟨size, hsize, hlimit, hphase⟩ := F.sizePhase_alive halive
  rw [hphase] at hrun
  rcases hrun.cases_head with ⟨hnil, -⟩ | ⟨s', b₂, o, os', hstep, hos, hrun⟩
  · exact absurd hnil (by simp)
  simp only [machine, step] at hstep
  split at hstep
  · rename_i hle
    obtain ⟨rfl, rfl, rfl⟩ : _ ∧ _ ∧ _ := by simpa using hstep
    obtain ⟨rfl, rfl⟩ := List.cons.inj hos
    refine ⟨_, ?_, hrun⟩
    rw [nextFrame, hn, Option.bind_some, hsize, Option.bind_some, if_pos ⟨hlimit, hle⟩, List.drop_drop]
  · exact absurd hstep (by simp)

/-- A run between two frame boundaries that emits nothing does nothing. -/
theorem runs_size_silent {b c : Bytes} (h : F.machine.Runs .size b [] .size c) : c = b := by
  rcases h.cases_head with ⟨-, -, rfl⟩ | ⟨s', b₁, o, os', hstep, hos, hrun⟩
  · rfl
  rw [F.step_size_of_not_skip (fun x _ => hskip x)] at hstep
  obtain ⟨n, -, hstep⟩ := Option.map_eq_some_iff.mp hstep
  obtain ⟨rfl, rfl, rfl⟩ : F.sizePhase (b.take n) = s' ∧ b.drop (n + 1) = b₁ ∧ [] = o := by simpa using hstep
  have hos' : os' = [] := by simpa using hos.symm
  subst hos'
  -- the size line has been read, and there is no way back without a message
  have hnot : ∀ (s : Phase) (b' : Bytes), s ≠ .size → s ≠ .preamble → ¬ F.machine.Runs s b' [] .size c := by
    intro s b' hsize hpre hrun
    rcases hrun.cases_head with ⟨-, heq, -⟩ | ⟨s', b₂, o, os', hstep, hos, -⟩
    · exact hsize heq.symm
    · cases s with
      | preamble => exact hpre rfl
      | size => exact hsize rfl
      | failed => exact absurd hstep (by simp [machine, step])
      | message n =>
          simp only [machine, step] at hstep
          split at hstep
          · obtain ⟨-, -, rfl⟩ : _ ∧ _ ∧ _ := by simpa using hstep
            exact absurd hos (by simp)
          · exact absurd hstep (by simp)
  refine absurd hrun (hnot _ _ ?_ ?_) <;>
  · unfold sizePhase
    split
    · split <;> simp
    · simp

/-! ## All frames -/

/-- **The frames found are those the machine reads.** -/
theorem framesFrom_spec {fuel : Nat} {b : Bytes} (hfuel : b.length ≤ fuel) :
    F.machine.Runs .size b (F.framesFrom fuel b).1 .size (F.framesFrom fuel b).2 ∧
      F.nextFrame (F.framesFrom fuel b).2 = none := by
  induction fuel generalizing b with
  | zero =>
      obtain rfl : b = [] := List.length_eq_zero_iff.mp (Nat.le_zero.mp hfuel)
      exact ⟨Machine.Runs.refl, rfl⟩
  | succ fuel ih =>
      unfold framesFrom
      split
      · rename_i hnone
        exact ⟨Machine.Runs.refl, hnone⟩
      · rename_i m rest hsome
        have hlt := length_nextFrame hsome
        obtain ⟨hrun, hend⟩ := ih (b := rest) (by omega)
        exact ⟨(runs_nextFrame hskip hsome).trans hrun, hend⟩

/-- What the machine has emitted when it gets stuck are the frames, if it has come past the preamble. -/
theorem runs_frames {stream : Bytes} (hpre : F.preamble <+: stream) :
    F.machine.Runs .preamble stream (F.frames stream).1 .size (F.frames stream).2 ∧
      F.nextFrame (F.frames stream).2 = none := by
  obtain ⟨b, rfl⟩ := hpre
  have hframes : F.frames (F.preamble ++ b) = F.framesFrom (F.preamble ++ b).length b := by
    rw [frames, if_pos (List.prefix_append _ _), List.drop_left]
  have hfuel : b.length ≤ (F.preamble ++ b).length := by simp
  rw [hframes]
  obtain ⟨hrun, hend⟩ := framesFrom_spec hskip (F := F) hfuel
  exact ⟨(runs_preamble (F := F) b).trans hrun, hend⟩

/-- **The machine emits the frames of a stream.** -/
theorem frames_of_runs {stream c : Bytes} {os : List Bytes} {t : Phase}
    (hrun : F.machine.Runs .preamble stream os t c) (hstuck : F.machine.Stuck t c) :
    (F.frames stream).1 = os := by
  by_cases hpre : F.preamble <+: stream
  · obtain ⟨hframes, hend⟩ := runs_frames hskip hpre
    obtain ⟨os', rfl, hrest⟩ := hframes.extend hrun hstuck
    cases os' with
    | nil => exact (List.append_nil _).symm
    | cons m ms =>
        obtain ⟨b', hsome, -⟩ := nextFrame_of_runs hskip hrest
        exact absurd (hend.symm.trans hsome) (by simp)
  · -- the preamble is missing or wrong, and nothing is ever read
    rw [frames, if_neg hpre]
    rcases hrun.cases_head with ⟨rfl, -⟩ | ⟨s', b', o, os', hstep, rfl, hrest⟩
    · rfl
    · simp only [machine, step] at hstep
      split at hstep
      · rename_i hle
        have hwrong : stream.take F.preamble.length ≠ F.preamble :=
          fun heq => hpre (List.prefix_iff_eq_take.mpr heq.symm)
        rw [if_neg hwrong] at hstep
        obtain ⟨rfl, rfl, rfl⟩ : _ ∧ _ ∧ _ := by simpa using hstep
        obtain ⟨rfl, -, -⟩ := hrest.of_stuck rfl
        rfl
      · exact absurd hstep (by simp)

/-! ## Streams made of frames -/

omit hskip

/-- The stream is the preamble, complete frames of the messages `ms`, and `rest`. -/
def Carries (F : Framing) (stream : Bytes) (ms : List Bytes) (rest : Bytes) : Prop :=
  ∃ bs, List.Forall₂ F.FrameOf ms bs ∧ stream = F.preamble ++ (bs.flatten ++ rest)

theorem exists_framesFrom (fuel : Nat) (b : Bytes) :
    ∃ bs, List.Forall₂ F.FrameOf (F.framesFrom fuel b).1 bs ∧ b = bs.flatten ++ (F.framesFrom fuel b).2 := by
  induction fuel generalizing b with
  | zero => exact ⟨[], .nil, rfl⟩
  | succ fuel ih =>
      unfold framesFrom
      split
      · exact ⟨[], .nil, rfl⟩
      · rename_i m rest hsome
        obtain ⟨fb, hfb, rfl⟩ := frameOf_nextFrame hsome
        obtain ⟨bs, hbs, hrest⟩ := ih rest
        refine ⟨fb :: bs, .cons hfb hbs, ?_⟩
        rw [List.flatten_cons, List.append_assoc, ← hrest]

/-- A stream carries the first of its frames, however many. -/
theorem carries_take {stream : Bytes} (hpre : F.preamble <+: stream) (k : Nat) :
    ∃ rest, F.Carries stream ((F.frames stream).1.take k) rest := by
  obtain ⟨b, rfl⟩ := hpre
  obtain ⟨bs, hbs, hb⟩ := exists_framesFrom (F := F) (F.preamble ++ b).length b
  rw [frames, if_pos (List.prefix_append _ _), List.drop_left]
  refine ⟨(bs.drop k).flatten ++ (F.framesFrom (F.preamble ++ b).length b).2, bs.take k, List.forall₂_take k hbs, ?_⟩
  congr 1
  rw [← List.append_assoc, ← List.flatten_append, List.take_append_drop, ← hb]

include hskip

theorem runs_carries {ms bs : List Bytes} (h : List.Forall₂ F.FrameOf ms bs) (rest : Bytes) :
    F.machine.Runs .size (bs.flatten ++ rest) ms .size rest := by
  induction h with
  | nil => exact Machine.Runs.refl
  | @cons m fb ms bs hfb hrest ih =>
      rw [List.flatten_cons, List.append_assoc]
      exact (runs_nextFrame hskip (nextFrame_frameOf hfb _)).trans ih

/-- What a stream carries are the first of its frames. -/
theorem Carries.initial {stream rest : Bytes} {ms : List Bytes} (h : F.Carries stream ms rest) :
    ms <+: (F.frames stream).1 := by
  obtain ⟨bs, hbs, rfl⟩ := h
  have hrun := (runs_preamble (F := F) (bs.flatten ++ rest)).trans (runs_carries hskip hbs rest)
  obtain ⟨os, t, c, hall, hstuck⟩ := F.machine.exists_runs_stuck .preamble (F.preamble ++ (bs.flatten ++ rest))
  obtain ⟨os', rfl, -⟩ := hrun.extend hall hstuck
  rw [frames_of_runs hskip hall hstuck]
  exact List.prefix_append ms os'

end Framing
end Lib
