import Hiaux.LoadConf.LoadConf

/-!
# `LoadConf.Correctness.Templates` — what `replaceEnvParams` makes of a text

A text is read as literal pieces and references (`Cut`). The loop takes one reference a round
(`replaceFrom_reference`) and copies the piece before it. What is left behind the last reference is copied without
its last character, and if nothing is left, the count of characters wraps around (`replaceFrom_last`).
-/

namespace Hiaux
namespace LoadConf

open Lib

variable {env : Environment} {pre piece inner rest r ret : Bytes} {wrapped : Bool}

/-! ## Positions -/

theorem findFrom_append {c : UInt8} (hpiece : c ∉ piece) (pre rest : Bytes) :
    findFrom c (pre ++ (piece ++ c :: rest)) pre.length = some (pre.length + piece.length) := by
  rw [findFrom, List.drop_left, find_append_cons rest hpiece]
  rfl

theorem findFrom_eq_none {c : UInt8} (hrest : c ∉ rest) (pre : Bytes) :
    findFrom c (pre ++ rest) pre.length = none := by
  rw [findFrom, List.drop_left, find_eq_none_iff.mpr hrest]
  rfl

theorem substrAt_append (pre piece rest : Bytes) :
    substrAt (pre ++ (piece ++ rest)) pre.length piece.length = some piece := by
  rw [substrAt, if_pos (by simp), substr, List.drop_left, List.take_left]

/-- The name in a reference, which is what stands behind its first character. In `$}` that is everything that
    follows, up to the count. -/
def nameIn (inner rest : Bytes) : Bytes :=
  match inner with
  | [] => rest.take (2 ^ 64 - 1)
  | _ :: name => name

/-! ## The rounds of the loop -/

section Rounds

variable {text var : Bytes} {prevClose dollPos closePos : Nat}

/-- A round, by the positions found in it. -/
theorem replaceFrom_round (hdoll : findFrom 36 text prevClose = some dollPos)
    (hclose : findFrom 125 text dollPos = some closePos)
    (hvar : substrAt text (dollPos + 2) (sizeSub (sizeSub closePos dollPos) 2) = some var)
    (hpiece : substrAt text prevClose (sizeSub dollPos prevClose) = some piece) :
    replaceFrom env text ret prevClose wrapped =
      let wrapped := wrapped || wraps closePos dollPos || wraps (sizeSub closePos dollPos) 2 ||
        wraps dollPos prevClose
      match getenv env var with
      | none => ⟨text, some (notSet var), wrapped⟩
      | some value => replaceFrom env text (ret ++ piece ++ value) (closePos + 1) wrapped := by
  rw [replaceFrom]
  split
  · rename_i hnone
    exact absurd (hnone.symm.trans hdoll) (by simp)
  · rename_i d hd
    obtain rfl := Option.some.inj (hd.symm.trans hdoll)
    split
    · rename_i hnone
      exact absurd (hnone.symm.trans hclose) (by simp)
    · rename_i c hc
      obtain rfl := Option.some.inj (hc.symm.trans hclose)
      cases hvalue : getenv env var with
      | none => simp only [hvar, hpiece, hvalue]
      | some value => simp only [hvar, hpiece, hvalue]

/-- Behind the last reference. -/
theorem replaceFrom_end (hdoll : findFrom 36 text prevClose = none)
    (hrest : substrAt text prevClose (sizeSub (sizeSub text.length prevClose) 1) = some rest) :
    replaceFrom env text ret prevClose wrapped =
      ⟨ret ++ rest, none, wrapped || wraps text.length prevClose || wraps (sizeSub text.length prevClose) 1⟩ := by
  rw [replaceFrom]
  split
  · dsimp only
    rw [hrest]
  · rename_i d hd
    exact absurd (hdoll.symm.trans hd) (by simp)

/-- At a `$` that is not closed. -/
theorem replaceFrom_unclosed (hdoll : findFrom 36 text prevClose = some dollPos)
    (hclose : findFrom 125 text dollPos = none) :
    replaceFrom env text ret prevClose wrapped = ⟨text, some closeNotFound, wrapped⟩ := by
  rw [replaceFrom]
  split
  · rename_i hnone
    exact absurd (hnone.symm.trans hdoll) (by simp)
  · rename_i d hd
    obtain rfl := Option.some.inj (hd.symm.trans hdoll)
    split
    · rfl
    · rename_i c hc
      exact absurd (hclose.symm.trans hc) (by simp)

end Rounds

/-- The name that is taken out between a `$` and its `}`. -/
theorem substrAt_nameIn (pre inner rest : Bytes) :
    substrAt (pre ++ 36 :: (inner ++ 125 :: rest)) (pre.length + 2) (sizeSub (inner.length + 1) 2) =
      some (nameIn inner rest) := by
  have hle : pre.length + 2 ≤ (pre ++ 36 :: (inner ++ 125 :: rest)).length := by
    simp only [List.length_append, List.length_cons]
    omega
  rw [substrAt, if_pos hle, substr, ← List.drop_drop, List.drop_left]
  cases inner with
  | nil => rfl
  | cons c name =>
      have hcount : sizeSub ((c :: name).length + 1) 2 = name.length := by
        rw [sizeSub, if_pos (by simp), List.length_cons]
        omega
      rw [hcount]
      exact congrArg some List.take_left

/-- A reference is closed by its last character. -/
theorem append_reference (pre piece inner rest : Bytes) :
    pre ++ (piece ++ 36 :: (inner ++ [125])) ++ rest = pre ++ (piece ++ 36 :: (inner ++ 125 :: rest)) := by
  simp

/-- **A round**: the piece before the reference, and the value of the variable. -/
theorem replaceFrom_reference (hpiece : 36 ∉ piece) (hinner : 125 ∉ inner) (env : Environment)
    (pre rest ret : Bytes) (wrapped : Bool) :
    replaceFrom env (pre ++ (piece ++ 36 :: (inner ++ 125 :: rest))) ret pre.length wrapped =
      match getenv env (nameIn inner rest) with
      | none =>
          ⟨pre ++ (piece ++ 36 :: (inner ++ 125 :: rest)), some (notSet (nameIn inner rest)),
            wrapped || decide (inner = [])⟩
      | some value =>
          replaceFrom env (pre ++ (piece ++ 36 :: (inner ++ [125])) ++ rest) (ret ++ piece ++ value)
            (pre ++ (piece ++ 36 :: (inner ++ [125]))).length (wrapped || decide (inner = [])) := by
  have hdoll := findFrom_append hpiece pre (inner ++ 125 :: rest)
  have hassoc : pre ++ (piece ++ 36 :: (inner ++ 125 :: rest)) = pre ++ piece ++ 36 :: (inner ++ 125 :: rest) := by
    rw [List.append_assoc]
  have hclose : findFrom 125 (pre ++ (piece ++ 36 :: (inner ++ 125 :: rest))) (pre.length + piece.length) =
      some (pre.length + piece.length + (inner.length + 1)) := by
    have hdollar : (125 : UInt8) ∉ 36 :: inner := by simp [hinner]
    have hfind := findFrom_append hdollar (pre ++ piece) rest
    rw [hassoc, ← List.length_append]
    exact hfind
  have hlength : pre.length + piece.length + (inner.length + 1) + 1 =
      (pre ++ (piece ++ 36 :: (inner ++ [125]))).length := by
    simp only [List.length_append, List.length_cons, List.length_nil]
    omega
  have hclosed : sizeSub (pre.length + piece.length + (inner.length + 1)) (pre.length + piece.length) =
      inner.length + 1 := by
    rw [sizeSub, if_pos (by omega)]
    omega
  have hvar : substrAt (pre ++ (piece ++ 36 :: (inner ++ 125 :: rest))) (pre.length + piece.length + 2)
      (sizeSub (sizeSub (pre.length + piece.length + (inner.length + 1)) (pre.length + piece.length)) 2) =
        some (nameIn inner rest) := by
    rw [hclosed, hassoc, ← List.length_append]
    exact substrAt_nameIn (pre ++ piece) inner rest
  have hcopied : substrAt (pre ++ (piece ++ 36 :: (inner ++ 125 :: rest))) pre.length
      (sizeSub (pre.length + piece.length) pre.length) = some piece := by
    have hsub : sizeSub (pre.length + piece.length) pre.length = piece.length := by
      rw [sizeSub, if_pos (by omega)]
      omega
    rw [hsub]
    exact substrAt_append pre piece _
  have hwraps : (wrapped || wraps (pre.length + piece.length + (inner.length + 1)) (pre.length + piece.length) ||
      wraps (sizeSub (pre.length + piece.length + (inner.length + 1)) (pre.length + piece.length)) 2 ||
      wraps (pre.length + piece.length) pre.length) = (wrapped || decide (inner = [])) := by
    have hempty : inner.length + 1 < 2 ↔ inner = [] := by
      rw [← List.length_eq_zero_iff]
      omega
    rw [hclosed]
    simp only [wraps, hempty]
    simp
  rw [replaceFrom_round hdoll hclose hvar hcopied, hwraps, hlength, append_reference]

/-- **Behind the last reference**: the text without its last character. -/
theorem replaceFrom_last (hrest : 36 ∉ rest) (env : Environment) (pre ret : Bytes) (wrapped : Bool) :
    replaceFrom env (pre ++ rest) ret pre.length wrapped =
      ⟨ret ++ rest.dropLast, none, wrapped || decide (rest = [])⟩ := by
  have hleft : sizeSub (pre ++ rest).length pre.length = rest.length := by
    rw [sizeSub, List.length_append, if_pos (by omega)]
    omega
  have hcopied : substrAt (pre ++ rest) pre.length (sizeSub (sizeSub (pre ++ rest).length pre.length) 1) =
      some rest.dropLast := by
    rw [hleft, substrAt, if_pos (by simp), substr, List.drop_left, List.dropLast_eq_take]
    cases rest with
    | nil => rfl
    | cons c rest => rfl
  have hempty : rest.length < 1 ↔ rest = [] := by
    rw [← List.length_eq_zero_iff]
    omega
  rw [replaceFrom_end (findFrom_eq_none hrest pre) hcopied, hleft]
  simp only [wraps, hempty]
  simp

theorem replaceFrom_not_closed (hpiece : 36 ∉ piece) (hr : 125 ∉ r) (env : Environment) (pre ret : Bytes)
    (wrapped : Bool) :
    replaceFrom env (pre ++ (piece ++ 36 :: r)) ret pre.length wrapped =
      ⟨pre ++ (piece ++ 36 :: r), some closeNotFound, wrapped⟩ := by
  have hdollar : (125 : UInt8) ∉ 36 :: r := by simp [hr]
  have hnone := findFrom_eq_none hdollar (pre ++ piece)
  rw [List.append_assoc, List.length_append] at hnone
  exact replaceFrom_unclosed (findFrom_append hpiece pre r) hnone

/-! ## Whole texts -/

/-- A text of literal pieces, each with a reference behind it, and what is left at the end. A reference is given by
    what stands between its `$` and the first closing brace. -/
def textOf : List (Bytes × Bytes) → Bytes → Bytes
  | [], last => last
  | (piece, inner) :: refs, last => piece ++ 36 :: (inner ++ 125 :: textOf refs last)

/-- How a text is cut into pieces and references: the last piece may begin a reference that is not closed. -/
structure Cut (refs : List (Bytes × Bytes)) (last : Bytes) : Prop where
  literal : ∀ q ∈ refs, 36 ∉ q.1
  closed : ∀ q ∈ refs, 125 ∉ q.2
  at_end : 36 ∉ last ∨ ∃ piece r, last = piece ++ 36 :: r ∧ 36 ∉ piece ∧ 125 ∉ r

/-- A reference that the loop gets past: it is not `$}`, and its variable is set. -/
def Passed (env : Environment) (q : Bytes × Bytes) : Prop := q.2 ≠ [] ∧ getenv env q.2.tail ≠ none

/-- Where a difference wraps around: the loop comes to a `$}`, or to the end with nothing left to copy. -/
def Wraps (env : Environment) (refs : List (Bytes × Bytes)) (last : Bytes) : Prop :=
  (∃ before piece after, refs = before ++ (piece, []) :: after ∧ ∀ q ∈ before, Passed env q) ∨
    ((∀ q ∈ refs, Passed env q) ∧ last = [])

variable {refs : List (Bytes × Bytes)} {last : Bytes}

theorem Cut.tail {q : Bytes × Bytes} (h : Cut (q :: refs) last) : Cut refs last :=
  ⟨(List.forall_mem_cons.mp h.literal).2, (List.forall_mem_cons.mp h.closed).2, h.at_end⟩

theorem wraps_nil_iff : Wraps env [] last ↔ last = [] := by
  constructor
  · rintro (⟨before, piece, after, hrefs, -⟩ | ⟨-, hlast⟩)
    · exact absurd hrefs (by simp)
    · exact hlast
  · exact fun hlast => Or.inr ⟨List.forall_mem_nil _, hlast⟩

theorem wraps_cons_iff {q : Bytes × Bytes} :
    Wraps env (q :: refs) last ↔ q.2 = [] ∨ (Passed env q ∧ Wraps env refs last) := by
  constructor
  · rintro (⟨before, piece, after, hrefs, hbefore⟩ | ⟨hall, hlast⟩)
    · cases before with
      | nil => exact Or.inl (by rw [(List.cons.inj hrefs).1])
      | cons b before =>
          obtain ⟨rfl, hrest⟩ := List.cons.inj hrefs
          obtain ⟨hb, hbefore⟩ := List.forall_mem_cons.mp hbefore
          exact Or.inr ⟨hb, Or.inl ⟨before, piece, after, hrest, hbefore⟩⟩
    · obtain ⟨hq, hall⟩ := List.forall_mem_cons.mp hall
      exact Or.inr ⟨hq, Or.inr ⟨hall, hlast⟩⟩
  · rintro (hempty | ⟨hq, ⟨before, piece, after, rfl, hbefore⟩ | ⟨hall, hlast⟩⟩)
    · exact Or.inl ⟨[], q.1, refs, by rw [← hempty]; rfl, List.forall_mem_nil _⟩
    · exact Or.inl ⟨q :: before, piece, after, rfl, List.forall_mem_cons.mpr ⟨hq, hbefore⟩⟩
    · exact Or.inr ⟨List.forall_mem_cons.mpr ⟨hq, hall⟩, hlast⟩

/-- The flag of a wrapped difference stays. -/
theorem wrapped_replaceFrom (h : Cut refs last) (pre ret : Bytes) (wrapped : Bool) :
    (replaceFrom env (pre ++ textOf refs last) ret pre.length wrapped).wrapped = true ↔
      wrapped = true ∨ Wraps env refs last := by
  induction refs generalizing pre ret wrapped with
  | nil =>
      rw [wraps_nil_iff, textOf]
      rcases h.at_end with hlast | ⟨piece, r, rfl, hpiece, hr⟩
      · rw [replaceFrom_last hlast]
        simp
      · rw [replaceFrom_not_closed hpiece hr]
        simp
  | cons q refs ih =>
      obtain ⟨piece, inner⟩ := q
      obtain ⟨hpiece, -⟩ := List.forall_mem_cons.mp h.literal
      obtain ⟨hinner, -⟩ := List.forall_mem_cons.mp h.closed
      rw [wraps_cons_iff, textOf, replaceFrom_reference hpiece hinner]
      cases hvar : getenv env (nameIn inner (textOf refs last)) with
      | none =>
          have hnot : inner ≠ [] → ¬ Passed env (piece, inner) := by
            rintro hne ⟨-, hset⟩
            obtain ⟨c, name, rfl⟩ := List.exists_cons_of_ne_nil hne
            exact hset hvar
          by_cases hempty : inner = []
          · simp [hempty]
          · simp [hempty, hnot hempty]
      | some value =>
          have hpassed : inner ≠ [] → Passed env (piece, inner) := by
            intro hne
            obtain ⟨c, name, rfl⟩ := List.exists_cons_of_ne_nil hne
            exact ⟨hne, fun hnone => absurd (hnone.symm.trans hvar) (by simp)⟩
          dsimp only
          rw [ih h.tail]
          by_cases hempty : inner = []
          · simp [hempty]
          · simp [hempty, hpassed hempty]

/-- The loop ends at the end of the text, or by a message; then the text is what it was. -/
theorem outcome_replaceFrom (h : Cut refs last) (pre ret : Bytes) (wrapped : Bool) :
    ((replaceFrom env (pre ++ textOf refs last) ret pre.length wrapped).thrown = none ∧ 36 ∉ last) ∨
      ∃ m, (replaceFrom env (pre ++ textOf refs last) ret pre.length wrapped).thrown = some (.message m) ∧
        (replaceFrom env (pre ++ textOf refs last) ret pre.length wrapped).text = pre ++ textOf refs last := by
  induction refs generalizing pre ret wrapped with
  | nil =>
      rw [textOf]
      rcases h.at_end with hlast | ⟨piece, r, rfl, hpiece, hr⟩
      · rw [replaceFrom_last hlast]
        exact Or.inl ⟨rfl, hlast⟩
      · rw [replaceFrom_not_closed hpiece hr]
        exact Or.inr ⟨_, rfl, rfl⟩
  | cons q refs ih =>
      obtain ⟨piece, inner⟩ := q
      obtain ⟨hpiece, -⟩ := List.forall_mem_cons.mp h.literal
      obtain ⟨hinner, -⟩ := List.forall_mem_cons.mp h.closed
      rw [textOf, replaceFrom_reference hpiece hinner]
      cases getenv env (nameIn inner (textOf refs last)) with
      | none => exact Or.inr ⟨_, rfl, rfl⟩
      | some value =>
          dsimp only
          rw [← append_reference pre piece inner (textOf refs last)]
          exact ih h.tail _ _ _

/-- A `$` behind which nothing is closed is in the last piece. -/
theorem mem_last_of_unclosed (hr : 125 ∉ r) (pre : Bytes) (h : textOf refs last = pre ++ 36 :: r) : 36 ∈ last := by
  induction refs generalizing pre with
  | nil =>
      rw [textOf] at h
      rw [h]
      simp
  | cons q refs ih =>
      obtain ⟨piece, inner⟩ := q
      have hsplit : piece ++ 36 :: inner ++ 125 :: textOf refs last = pre ++ 36 :: r := by
        rw [← h, textOf]
        simp
      rcases List.append_eq_append_iff.mp hsplit with ⟨a, -, hrest⟩ | ⟨a, -, hrest⟩
      · cases a with
        | nil => exact absurd (List.cons.inj hrest).1 (by decide)
        | cons c a => exact ih a (List.cons.inj hrest).2
      · have hmem : 125 ∈ 36 :: r := by
          rw [hrest]
          simp
        exact absurd hmem (by simp [hr])

/-- **Every text is cut in one of these ways.** -/
theorem exists_cut (text : Bytes) : ∃ refs last, Cut refs last ∧ text = textOf refs last := by
  induction hn : text.length using Nat.strong_induction_on generalizing text with
  | _ n ih =>
      subst hn
      cases hdoll : find 36 text with
      | none =>
          exact ⟨[], text, ⟨List.forall_mem_nil _, List.forall_mem_nil _, Or.inl (find_eq_none_iff.mp hdoll)⟩, rfl⟩
      | some n =>
          obtain ⟨hpiece, htext⟩ := find_split hdoll
          cases hclose : find 125 (text.drop (n + 1)) with
          | none =>
              refine ⟨[], text, ⟨List.forall_mem_nil _, List.forall_mem_nil _, Or.inr ?_⟩, rfl⟩
              exact ⟨text.take n, text.drop (n + 1), htext, hpiece, find_eq_none_iff.mp hclose⟩
          | some m =>
              obtain ⟨hinner, hrest⟩ := find_split hclose
              have hlt := find_lt_length hdoll
              have hshort : ((text.drop (n + 1)).drop (m + 1)).length < text.length := by
                simp only [List.length_drop]
                omega
              obtain ⟨refs, last, hcut, htail⟩ := ih _ hshort ((text.drop (n + 1)).drop (m + 1)) rfl
              refine ⟨(text.take n, (text.drop (n + 1)).take m) :: refs, last, ⟨?_, ?_, hcut.at_end⟩, ?_⟩
              · exact List.forall_mem_cons.mpr ⟨hpiece, hcut.literal⟩
              · exact List.forall_mem_cons.mpr ⟨hinner, hcut.closed⟩
              · rw [textOf, ← htail, ← hrest, ← htext]

/-! ## Templates -/

/-- A template: literal pieces without `$`, each with the name of a variable behind it, and a last piece. -/
structure Template where
  refs : List (Bytes × Bytes)
  last : Bytes
  literal : ∀ q ∈ refs, 36 ∉ q.1
  names : ∀ q ∈ refs, 125 ∉ q.2
  last_literal : 36 ∉ last

/-- What stands between the `$` of a reference and its closing brace. -/
def braced (q : Bytes × Bytes) : Bytes × Bytes := (q.1, 123 :: q.2)

/-- The text of a template. -/
def Template.text (t : Template) : Bytes := textOf (t.refs.map braced) t.last

/-- The pieces with the values of the variables behind them, if all of them have values. -/
def expansion (value : Bytes → Option Bytes) : List (Bytes × Bytes) → Option Bytes
  | [] => some []
  | (piece, name) :: refs => (value name).bind (fun v => (expansion value refs).map (fun s => piece ++ v ++ s))

/-- What should become of a template: its expansion, or an exception that leaves the text as it is. -/
def Template.ExpandsTo (env : Environment) (t : Template) (replaced : Replaced) : Prop :=
  match expansion env.value t.refs with
  | some s => replaced.text = s ++ t.last ∧ replaced.thrown = none
  | none => replaced.text = t.text ∧ replaced.thrown ≠ none

theorem expansion_eq_none_iff {value : Bytes → Option Bytes} :
    expansion value refs = none ↔ ∃ q ∈ refs, value q.2 = none := by
  induction refs with
  | nil => simp [expansion]
  | cons q refs ih =>
      obtain ⟨piece, name⟩ := q
      rw [expansion]
      cases hvalue : value name with
      | none => simp [hvalue]
      | some v => simp [hvalue, ih]

theorem expansion_congr {value value' : Bytes → Option Bytes} (h : ∀ q ∈ refs, value q.2 = value' q.2) :
    expansion value refs = expansion value' refs := by
  induction refs with
  | nil => rfl
  | cons q refs ih =>
      obtain ⟨hq, hrefs⟩ := List.forall_mem_cons.mp h
      rw [expansion, expansion, hq, ih hrefs]

/-- `getenv` finds what the environment has. -/
theorem getenv_of_value {name v : Bytes} (h : env.value name = some v) : getenv env name = some v := by
  rw [getenv, cStr_eq_self_iff.mpr (env.name_ends h), h]

/-- **What `replaceEnvParams` makes of a template**: the last piece has lost its last character. -/
theorem replaceFrom_template (hliteral : ∀ q ∈ refs, 36 ∉ q.1) (hnames : ∀ q ∈ refs, 125 ∉ q.2) (hlast : 36 ∉ last)
    (pre ret : Bytes) (wrapped : Bool) :
    match expansion (getenv env) refs with
    | some s =>
        (replaceFrom env (pre ++ textOf (refs.map braced) last) ret pre.length wrapped).text =
            ret ++ s ++ last.dropLast ∧
          (replaceFrom env (pre ++ textOf (refs.map braced) last) ret pre.length wrapped).thrown = none
    | none =>
        (replaceFrom env (pre ++ textOf (refs.map braced) last) ret pre.length wrapped).text =
            pre ++ textOf (refs.map braced) last ∧
          ∃ q ∈ refs, (replaceFrom env (pre ++ textOf (refs.map braced) last) ret pre.length wrapped).thrown =
            some (notSet q.2) := by
  induction refs generalizing pre ret wrapped with
  | nil =>
      show _ ∧ _
      rw [List.map_nil, textOf, replaceFrom_last hlast]
      exact ⟨by rw [List.append_nil], rfl⟩
  | cons q refs ih =>
      obtain ⟨piece, name⟩ := q
      obtain ⟨hpiece, hliteral⟩ := List.forall_mem_cons.mp hliteral
      obtain ⟨hname, hnames⟩ := List.forall_mem_cons.mp hnames
      have hrest := ih hliteral hnames (pre ++ (piece ++ 36 :: (123 :: name ++ [125])))
      rw [List.map_cons, braced, textOf, replaceFrom_reference hpiece (by simpa using hname), expansion]
      have hin : nameIn (123 :: name) (textOf (refs.map braced) last) = name := rfl
      rw [hin]
      cases hvar : getenv env name with
      | none => exact ⟨rfl, (piece, name), List.mem_cons_self, rfl⟩
      | some value =>
          specialize hrest (ret ++ piece ++ value) (wrapped || decide (123 :: name = []))
          dsimp only at hrest ⊢
          rw [Option.bind_some, ← append_reference pre piece (123 :: name) (textOf (refs.map braced) last)]
          cases hexp : expansion (getenv env) refs with
          | none =>
              rw [hexp] at hrest
              obtain ⟨htext, q, hq, hthrown⟩ := hrest
              exact ⟨htext, q, List.mem_cons_of_mem _ hq, hthrown⟩
          | some s =>
              rw [hexp] at hrest
              refine ⟨?_, hrest.2⟩
              rw [hrest.1]
              simp

/-- **Which templates are expanded as they should be**: those with a variable that is not set, and those that end
    with a reference, or are empty. A name with a NUL in it is set for `getenv`, but not in the environment. -/
theorem expandsTo_iff (env : Environment) (t : Template) :
    t.ExpandsTo env (replaceEnvParams env t.text) ↔
      (∃ q ∈ t.refs, getenv env q.2 = none) ∨ ((∀ q ∈ t.refs, 0 ∉ q.2) ∧ t.last = []) := by
  have hmade := @replaceFrom_template env _ _ t.literal t.names t.last_literal [] [] false
  rw [List.nil_append, List.length_nil, ← Template.text, ← replaceEnvParams] at hmade
  unfold Template.ExpandsTo
  cases hexp : expansion (getenv env) t.refs with
  | none =>
      rw [hexp] at hmade
      obtain ⟨q, hq, hnone⟩ := expansion_eq_none_iff.mp hexp
      have hvalue : env.value q.2 = none := by
        by_contra hsome
        obtain ⟨v, hv⟩ := Option.ne_none_iff_exists'.mp hsome
        exact absurd (hnone.symm.trans (getenv_of_value hv)) (by simp)
      rw [expansion_eq_none_iff.mpr ⟨q, hq, hvalue⟩]
      obtain ⟨htext, p, -, hthrown⟩ := hmade
      exact iff_of_true ⟨htext, by rw [hthrown]; simp⟩ (Or.inl ⟨q, hq, hnone⟩)
  | some s =>
      rw [hexp] at hmade
      obtain ⟨htext, hthrown⟩ := hmade
      have hset : ¬ ∃ q ∈ t.refs, getenv env q.2 = none := by
        rw [← expansion_eq_none_iff, hexp]
        simp
      rw [or_iff_right hset]
      by_cases hnames : ∀ q ∈ t.refs, 0 ∉ q.2
      · have hcongr : expansion env.value t.refs = expansion (getenv env) t.refs := by
          apply expansion_congr
          intro q hq
          rw [getenv, cStr_eq_self_iff.mpr (hnames q hq)]
        rw [hcongr, hexp, and_iff_right hnames]
        dsimp only
        rw [htext, List.nil_append, List.append_cancel_left_eq, and_iff_left hthrown]
        constructor
        · intro h
          have hlen := congrArg List.length h
          rw [List.length_dropLast] at hlen
          exact List.eq_nil_of_length_eq_zero (by omega)
        · rintro h
          rw [h]
          rfl
      · obtain ⟨q, hq⟩ := not_forall.mp hnames
        obtain ⟨hq, hzero⟩ := Classical.not_imp.mp hq
        have hvalue : env.value q.2 = none := by
          by_contra hsome
          obtain ⟨v, hv⟩ := Option.ne_none_iff_exists'.mp hsome
          exact hzero (env.name_ends hv)
        rw [expansion_eq_none_iff.mpr ⟨q, hq, hvalue⟩]
        exact iff_of_false (fun h => h.2 hthrown) fun h => hnames h.1

/-- A `$` that is not closed: a message, and the text is what it was. -/
theorem replaceEnvParams_unclosed (hr : 125 ∉ r) (env : Environment) (pre : Bytes) :
    (∃ m, (replaceEnvParams env (pre ++ 36 :: r)).thrown = some (.message m)) ∧
      (replaceEnvParams env (pre ++ 36 :: r)).text = pre ++ 36 :: r := by
  obtain ⟨refs, last, hcut, htext⟩ := exists_cut (pre ++ 36 :: r)
  have hlast : 36 ∈ last := mem_last_of_unclosed hr pre htext.symm
  rw [htext, replaceEnvParams]
  rcases @outcome_replaceFrom env _ _ hcut [] [] false with ⟨-, hnot⟩ | ⟨m, hthrown, hsame⟩
  · exact absurd hlast hnot
  · exact ⟨⟨m, hthrown⟩, hsame⟩

/-- No position is outside the text. -/
theorem thrown_ne_outOfRange (env : Environment) (text : Bytes) :
    (replaceEnvParams env text).thrown ≠ some .outOfRange := by
  obtain ⟨refs, last, hcut, rfl⟩ := exists_cut text
  rw [replaceEnvParams]
  rcases @outcome_replaceFrom env _ _ hcut [] [] false with ⟨hnone, -⟩ | ⟨m, hthrown, -⟩
  · rw [List.nil_append, List.length_nil] at hnone
    rw [hnone]
    simp
  · rw [List.nil_append, List.length_nil] at hthrown
    rw [hthrown]
    simp

/-- **`replaceEnvParams`**: which templates are expanded as they should be, that a `$` which is not closed makes it
    throw, and in which texts a difference of positions wraps around. -/
theorem replaceEnvParams_iff (env : Environment) :
    (∀ t : Template, t.ExpandsTo env (replaceEnvParams env t.text) ↔
      (∃ q ∈ t.refs, getenv env q.2 = none) ∨ ((∀ q ∈ t.refs, 0 ∉ q.2) ∧ t.last = [])) ∧
    (∀ pre r : Bytes, 125 ∉ r →
      (∃ m, (replaceEnvParams env (pre ++ 36 :: r)).thrown = some (.message m)) ∧
        (replaceEnvParams env (pre ++ 36 :: r)).text = pre ++ 36 :: r) ∧
    (∀ text : Bytes, ∃ refs last, Cut refs last ∧ text = textOf refs last) ∧
    ∀ (refs : List (Bytes × Bytes)) (last : Bytes), Cut refs last →
      ((replaceEnvParams env (textOf refs last)).wrapped = false ↔ ¬ Wraps env refs last) := by
  refine ⟨expandsTo_iff env, fun pre r hr => replaceEnvParams_unclosed hr env pre, exists_cut, ?_⟩
  intro refs last hcut
  have hwrapped := @wrapped_replaceFrom env _ _ hcut [] [] false
  rw [List.nil_append, List.length_nil, ← replaceEnvParams] at hwrapped
  rw [← Bool.not_eq_true, hwrapped]
  simp

/-- A process with one variable, `x`. -/
def onlyX : Environment where
  value := fun name => if name = ascii "x" then some (ascii "1") else none
  name_ends := by
    intro name v h
    split at h
    · rename_i hname
      rw [hname]
      decide
    · exact absurd h (by simp)
  value_ends := by
    intro name v h
    split at h
    · rw [← Option.some.inj h]
      decide
    · exact absurd h (by simp)

/-- The template `a${x}`. -/
def aThenX : Template :=
  ⟨[(ascii "a", ascii "x")], [], by decide, by decide, by decide⟩

/-- The template `a${x}${y}`. -/
def aThenXY : Template :=
  ⟨[(ascii "a", ascii "x"), ([], ascii "y")], [], by decide, by decide, by decide⟩

/-- A reference that is set, and one that is not behind it. -/
theorem replaceEnvParams_iff_one_reference :
    (aThenX.ExpandsTo onlyX (replaceEnvParams onlyX aThenX.text) ∧
      (replaceEnvParams onlyX aThenX.text).text = ascii "a1") ∧
      aThenXY.ExpandsTo onlyX (replaceEnvParams onlyX aThenXY.text) ∧
      (replaceEnvParams onlyX (ascii "a" ++ 36 :: ascii "\x7bx")).text = ascii "a" ++ 36 :: ascii "\x7bx" ∧
      (replaceEnvParams onlyX (textOf [] (ascii "a"))).wrapped = false := by
  obtain ⟨hexpands, hunclosed, -, hwraps⟩ := replaceEnvParams_iff onlyX
  have hset : aThenX.ExpandsTo onlyX (replaceEnvParams onlyX aThenX.text) :=
    (hexpands aThenX).mpr (Or.inr ⟨by decide, rfl⟩)
  refine ⟨⟨hset, hset.1⟩, (hexpands aThenXY).mpr (Or.inl ⟨([], ascii "y"), by decide, by decide⟩), ?_, ?_⟩
  · exact (hunclosed (ascii "a") (ascii "\x7bx") (by decide)).2
  · have hcut : Cut [] (ascii "a") := ⟨List.forall_mem_nil _, List.forall_mem_nil _, Or.inl (by decide)⟩
    refine (hwraps [] (ascii "a") hcut).mpr ?_
    rw [wraps_nil_iff]
    decide

/-- A process without variables. -/
def noVariables : Environment := ⟨fun _ => none, fun h => absurd h (by simp), fun h => absurd h (by simp)⟩

/-- The template `abc`, without references. -/
def plainAbc : Template :=
  ⟨[], ascii "abc", List.forall_mem_nil _, List.forall_mem_nil _, by decide⟩

/-- **The text `abc` becomes `ab`.** -/
theorem replaceEnvParams_plain_text :
    replaceEnvParams noVariables plainAbc.text = ⟨ascii "ab", none, false⟩ ∧
      ¬ plainAbc.ExpandsTo noVariables (replaceEnvParams noVariables plainAbc.text) := by
  have hresult : replaceEnvParams noVariables plainAbc.text = ⟨ascii "ab", none, false⟩ :=
    replaceFrom_last (show 36 ∉ ascii "abc" by decide) noVariables [] [] false
  rw [hresult]
  exact ⟨rfl, fun h => absurd h.1 (by decide)⟩

/-! ## Files -/

variable {Value : Type}

/-- The two errors of `parseFile` differ at their 26th character. -/
theorem could_not_parse_ne (a b : Bytes) :
    ascii "LoadConf::load could not parse file " ++ a ≠ ascii "LoadConf::load could not open file " ++ b := by
  intro h
  have hchar := congrArg (fun s : Bytes => s[25]?) h
  rw [List.getElem?_append_left (by decide), List.getElem?_append_left (by decide)] at hchar
  exact absurd hchar (by decide)

/-- The error of a file that could not be opened is for those only: no exception of the library gets there. -/
theorem parseFile_not_opened_iff (env : Environment) (parse : Bytes → Option Value) (filename : Bytes)
    (content : Option Bytes) :
    parseFile env parse filename content = .error (ascii "LoadConf::load could not open file " ++ filename) ↔
      content = none := by
  cases content with
  | none => exact iff_of_true rfl rfl
  | some text =>
      refine iff_of_false ?_ (by simp)
      rw [parseFile]
      cases hthrown : (replaceEnvParams env text).thrown with
      | none =>
          dsimp only
          cases parse (replaceEnvParams env text).text with
          | none => exact fun h => could_not_parse_ne _ _ (Except.error.inj h)
          | some root => simp
      | some thrown =>
          cases thrown with
          | message e =>
              intro h
              have herror := Except.error.inj h
              rw [List.append_assoc, List.append_assoc] at herror
              exact could_not_parse_ne _ _ herror
          | outOfRange => exact absurd hthrown (thrown_ne_outOfRange env text)

end LoadConf
end Hiaux
