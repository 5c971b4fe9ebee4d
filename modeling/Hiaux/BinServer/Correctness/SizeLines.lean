import Hiaux.BinClient.Correctness.Wire

/-!
# `BinServer.Correctness.SizeLines` — which size lines the parsers take

Both parsers hand the bytes before a newline to `string_to_uint64` and compare the number with a limit.
The scan reads more than numerals: blanks, a sign and trailing characters are taken, and a line without a
number leaves the size to chance. A line is read as it should be exactly when it is a numeral, or carries a
number over the limit (`sizeLines_iff`).
-/

namespace Hiaux

open Lib Strings

/-! ## The number of a line -/

/-- The line is a numeral within the limit, denoting `n`. -/
def SizeLine (limit : Nat) (line : Bytes) (n : Nat) : Prop :=
  IsNumeral line ∧ n = digitsValue line ∧ n ≤ limit

/-- A line is a numeral, or the number a scan finds in it is over the limit. -/
def ReadAlike (limit : Nat) (line : Bytes) : Prop :=
  IsNumeral line ∨ ∃ neg digits, HoldsNumber line neg digits ∧ limit < clampU64 neg (digitsValue digits)

/-- A number within a limit below the largest 64-bit one is not the saturated one. -/
theorem clampU64_le_iff {limit n : Nat} (hlimit : limit < 2 ^ 64 - 1) :
    clampU64 false n ≤ limit ↔ n ≤ limit := by
  unfold clampU64
  split
  · exact iff_of_false (by omega) (by omega)
  · exact Iff.rfl

theorem clampU64_eq_of_le {limit n : Nat} (hlimit : limit < 2 ^ 64 - 1) (hn : n ≤ limit) :
    clampU64 false n = n := by
  unfold clampU64
  rw [if_neg (by omega)]
  rfl

/-- **The number compared with the limit**: whatever the uninitialised local holds, it is within the limit
    exactly for the lines that denote a size, and is that size, for the lines that are read alike and for
    no others. -/
theorem size_iff_readAlike {limit : Nat} (hlimit : limit < 2 ^ 64 - 1) (line : Bytes) :
    (∀ junk n, stringToUint64 junk line = n ∧ n ≤ limit ↔ SizeLine limit line n) ↔
      ReadAlike limit line := by
  constructor
  · intro h
    cases hscan : scanU64 line with
    | none =>
        -- nothing is stored: the local may hold 0
        have hzero : stringToUint64 0 line = 0 := by rw [stringToUint64, hscan]; rfl
        exact Or.inl ((h 0 0).mp ⟨hzero, Nat.zero_le _⟩).1
    | some n =>
        obtain ⟨neg, digits, hs, rfl⟩ := scanU64_eq_some_iff.mp hscan
        by_cases hle : clampU64 neg (digitsValue digits) ≤ limit
        · have hsize : stringToUint64 0 line = clampU64 neg (digitsValue digits) := by
            rw [stringToUint64, hscan]
            rfl
          exact Or.inl ((h 0 _).mp ⟨hsize, hle⟩).1
        · exact Or.inr ⟨neg, digits, hs, Nat.lt_of_not_le hle⟩
  · rintro (hnum | ⟨neg, digits, hs, hover⟩) junk n
    · have hsize : stringToUint64 junk line = clampU64 false (digitsValue line) := by
        rw [stringToUint64, hnum.holdsNumber.scanU64]
        rfl
      rw [hsize]
      constructor
      · rintro ⟨rfl, hle⟩
        have hvalue := (clampU64_le_iff hlimit).mp hle
        exact ⟨hnum, clampU64_eq_of_le hlimit hvalue, hle⟩
      · rintro ⟨-, rfl, hle⟩
        exact ⟨clampU64_eq_of_le hlimit hle, hle⟩
    · have hsize : stringToUint64 junk line = clampU64 neg (digitsValue digits) := by
        rw [stringToUint64, hs.scanU64]
        rfl
      rw [hsize]
      constructor
      · rintro ⟨rfl, hle⟩
        exact absurd hle (Nat.not_le.mpr hover)
      · -- a numeral within the limit is scanned as itself, so it is not over it
        rintro ⟨hnum, rfl, hle⟩
        have hsame := Option.some.inj (hs.scanU64.symm.trans hnum.holdsNumber.scanU64)
        rw [hsame, clampU64_eq_of_le hlimit hle] at hover
        exact absurd hle (Nat.not_le.mpr hover)

/-- What a pass does with the scanned number `s` decides for which numbers it goes on: for the sizes of the
    line exactly when `s` is one of them or over the limit. -/
theorem outcome_iff {α ε : Type} {out : α × Option ε} {ex : ε} {entered : Nat → α}
    (hinj : Function.Injective entered) {s limit : Nat}
    (h : if s ≤ limit then out = (entered s, none) else out.2 = some ex) (line : Bytes) :
    ((∀ n, out = (entered n, none) ↔ SizeLine limit line n) ∧
        ((∀ n, ¬ SizeLine limit line n) → out.2 = some ex)) ↔
      ∀ n, s = n ∧ n ≤ limit ↔ SizeLine limit line n := by
  by_cases hle : s ≤ limit
  · rw [if_pos hle] at h
    subst h
    have hsame : ∀ n, (entered s, (none : Option ε)) = (entered n, none) ↔ s = n ∧ n ≤ limit := by
      intro n
      constructor
      · intro heq
        obtain rfl := hinj (Prod.mk.inj heq).1
        exact ⟨rfl, hle⟩
      · rintro ⟨rfl, -⟩
        rfl
    constructor
    · rintro ⟨hgo, -⟩ n
      exact (hsame n).symm.trans (hgo n)
    · intro hgo
      exact ⟨fun n => (hsame n).trans (hgo n), fun hno => absurd ((hgo s).mp ⟨rfl, hle⟩) (hno s)⟩
  · rw [if_neg hle] at h
    have hnot : ∀ n, ¬ (s = n ∧ n ≤ limit) := by
      rintro n ⟨rfl, hn⟩
      exact hle hn
    have hthrown : ∀ n, out ≠ (entered n, none) := by
      rintro n rfl
      exact absurd h (by simp)
    constructor
    · rintro ⟨hgo, -⟩ n
      exact iff_of_false (hnot n) (fun hn => hthrown n ((hgo n).mpr hn))
    · intro hgo
      exact ⟨fun n => iff_of_false (hthrown n) (fun hn => hnot n ((hgo n).mpr hn)), fun _ => h⟩

/-- The parsers cut what stands behind a line with this count. -/
theorem substr_behind_line (line rest : Bytes) :
    substr (line ++ newline :: rest) (line.length + 1) ((line ++ newline :: rest).length - line.length + 1) = rest := by
  apply substr_behind
  rw [List.length_append, List.length_cons]
  omega

/-! ## The client -/

namespace BinClient
namespace ResponseParser

/-- A parser whose next line is `line`: at a size, or at the handshake before it. -/
def AtSizeLine (line rest : Bytes) (p : ResponseParser) : Prop :=
  (p.state = .readingSize ∧ p.curToken = line ++ newline :: rest) ∨
    (p.state = .readingHandshake ∧ p.curToken = handshakeMessage ++ (line ++ newline :: rest))

/-- The parser that has entered `READING_MESSAGE` with a size, at the end of the pass. -/
def entered (n : Nat) (rest : Bytes) (p : ResponseParser) : ResponseParser :=
  readMessage { p with
    curToken := rest
    size := n
    state := .readingMessage
    handshakedCalls := p.handshakedCalls + (if p.state = .readingHandshake then 1 else 0) }

/-- A line is read as it should be: the parser goes on with size `n` if the line denotes `n` within the
    limit, and throws if it denotes no size. -/
def ReadsLine (line : Bytes) : Prop :=
  ∀ junk rest p, AtSizeLine line rest p →
    (∀ n, parse junk p = (entered n rest p, none) ↔ SizeLine messageSizeLimit line n) ∧
      ((∀ n, ¬ SizeLine messageSizeLimit line n) → (parse junk p).2 = some .responseParsingEx)

theorem readMessage_size (p : ResponseParser) : (readMessage p).size = p.size := by
  unfold readMessage
  split <;> rfl

theorem size_entered (n : Nat) (rest : Bytes) (p : ResponseParser) : (entered n rest p).size = n :=
  readMessage_size _

/-- The blocks from `READING_SIZE` on, at a line. -/
theorem readSize_line (junk : Junk) {line : Bytes} (hline : newline ∉ line) (rest : Bytes)
    {p : ResponseParser} (hst : p.state = .readingSize) (htok : p.curToken = line ++ newline :: rest) :
    readSize junk p =
      if stringToUint64 (junk rest) line > messageSizeLimit then
        ({ p with curToken := rest, size := stringToUint64 (junk rest) line }, some .responseParsingEx)
      else
        (readMessage { p with
          curToken := rest, size := stringToUint64 (junk rest) line, state := .readingMessage }, none) := by
  have hstr : substr (line ++ newline :: rest) 0 line.length = line := List.take_left
  unfold readSize
  rw [if_pos hst, htok, find_append_cons rest hline]
  simp only [hstr, substr_behind_line]

/-- **A pass at a size line**: over the limit it throws, else it enters `READING_MESSAGE` with the number
    scanned. -/
theorem parse_atSizeLine (junk : Junk) {line : Bytes} (hline : newline ∉ line) {rest : Bytes}
    {p : ResponseParser} (h : AtSizeLine line rest p) :
    if stringToUint64 (junk rest) line ≤ messageSizeLimit then
      parse junk p = (entered (stringToUint64 (junk rest) line) rest p, none)
    else (parse junk p).2 = some .responseParsingEx := by
  rcases h with ⟨hst, htok⟩ | ⟨hst, htok⟩
  · have hne : ¬ p.curToken.length = 0 := by rw [htok]; simp
    have hnot : ¬ p.state = .readingHandshake := by rw [hst]; decide
    have hparse : parse junk p = readSize junk p := by
      unfold parse
      rw [if_neg hne, if_neg hnot]
    rw [hparse, readSize_line junk hline rest hst htok]
    by_cases hle : stringToUint64 (junk rest) line ≤ messageSizeLimit
    · rw [if_pos hle, if_neg (Nat.not_lt.mpr hle), entered, if_neg hnot]
      rfl
    · rw [if_neg hle, if_pos (Nat.lt_of_not_le hle)]
  · have hne : ¬ p.curToken.length = 0 := by rw [htok]; simp [handshakeMessage, ascii]
    have hlen : handshakeMessage.length ≤ p.curToken.length := by rw [htok]; simp
    have hhead : substr p.curToken 0 handshakeMessage.length = handshakeMessage := by
      rw [htok]
      exact List.take_left
    have htail : substr p.curToken handshakeMessage.length
        (p.curToken.length - handshakeMessage.length) = line ++ newline :: rest := by
      rw [substr_of_le (by omega), htok, List.drop_left]
    have hparse : parse junk p = readSize junk { p with
        curToken := line ++ newline :: rest, state := .readingSize,
        handshakedCalls := p.handshakedCalls + 1 } := by
      unfold parse
      rw [if_neg hne, if_pos hst, if_pos hlen]
      simp only [hhead, htail, ne_eq, not_true_eq_false, if_false]
    rw [hparse, readSize_line junk hline rest rfl rfl]
    by_cases hle : stringToUint64 (junk rest) line ≤ messageSizeLimit
    · rw [if_pos hle, if_neg (Nat.not_lt.mpr hle), entered, if_pos hst]
    · rw [if_neg hle, if_pos (Nat.lt_of_not_le hle)]

theorem entered_injective (rest : Bytes) (p : ResponseParser) :
    Function.Injective (fun n => entered n rest p) := by
  intro n m h
  have hsize := congrArg ResponseParser.size h
  simpa only [size_entered] using hsize

theorem readsLine_iff {line : Bytes} (hline : newline ∉ line) :
    ReadsLine line ↔ ReadAlike messageSizeLimit line := by
  rw [← size_iff_readAlike (by decide)]
  constructor
  · intro h junk
    have hp : AtSizeLine line [] { init with state := .readingSize, curToken := line ++ [newline] } :=
      Or.inl ⟨rfl, rfl⟩
    exact (outcome_iff (entered_injective _ _) (parse_atSizeLine (fun _ => junk) hline hp) line).mp
      (h (fun _ => junk) [] _ hp)
  · intro h junk rest p hp
    exact (outcome_iff (entered_injective _ _) (parse_atSizeLine junk hline hp) line).mpr (h (junk rest))

end ResponseParser
end BinClient

/-! ## The server -/

namespace BinServer

open BinClient (Protobuf)
namespace Parser

/-- A parser whose next line, after keep-alive bytes, is `line`. -/
def AtSizeLine (line rest : Bytes) (p : Parser) : Prop :=
  p.state = .readingSize ∧ ∃ k, p.curToken = List.replicate k keepaliveByte ++ (line ++ newline :: rest)

/-- The parser that has entered `READING_MESSAGE` with a size, at the end of the call. -/
def entered (pb : Protobuf) (n : Nat) (rest : Bytes) (p : Parser) : Parser :=
  readMessage pb { p with curToken := rest, size := n, state := .readingMessage }

/-- A line is read as it should be: the parser goes on with size `n` if the line denotes `n` within the
    limit, and throws if it denotes no size. -/
def ReadsLine (pb : Protobuf) (line : Bytes) : Prop :=
  ∀ junk rest p, AtSizeLine line rest p →
    (∀ n, parse pb junk p = (entered pb n rest p, none) ↔ SizeLine binrequestMaxSize line n) ∧
      ((∀ n, ¬ SizeLine binrequestMaxSize line n) → (parse pb junk p).2 = some .requestParsingEx)

variable {pb : Protobuf}

theorem entered_injective (rest : Bytes) (p : Parser) :
    Function.Injective (fun n => entered pb n rest p) := by
  have hsize : ∀ n, (entered pb n rest p).size = n := by
    intro n
    unfold entered readMessage
    split <;> rfl
  intro n m h
  exact (hsize n).symm.trans ((congrArg Parser.size h).trans (hsize m))

/-- The block from the size line on. -/
theorem readSize_line (junk : Junk) {line : Bytes} (hline : newline ∉ line) (rest : Bytes)
    {p : Parser} (hst : p.state = .readingSize) (htok : p.curToken = line ++ newline :: rest) :
    if stringToUint64 (junk rest) line ≤ binrequestMaxSize then
      readSize pb junk p = (entered pb (stringToUint64 (junk rest) line) rest p, none)
    else (readSize pb junk p).2 = some .requestParsingEx := by
  have hstr : substr (line ++ newline :: rest) 0 line.length = line := List.take_left
  unfold readSize
  rw [if_pos hst, htok, find_append_cons rest hline]
  simp only [hstr, substr_behind_line]
  by_cases hle : stringToUint64 (junk rest) line ≤ binrequestMaxSize
  · rw [if_pos hle, if_neg (Nat.not_lt.mpr hle)]
    rfl
  · rw [if_neg hle, if_pos (Nat.lt_of_not_le hle)]

/-- The rounds of the loop at a size line: each keep-alive byte before it takes one. -/
theorem parseLoop_atSizeLine (junk : Junk) {line : Bytes} (hline : newline ∉ line)
    (hhead : line.head? ≠ some keepaliveByte) (rest : Bytes) (k : Nat) {fuel : Nat} (hfuel : k < fuel)
    {p : Parser} (hst : p.state = .readingSize)
    (htok : p.curToken = List.replicate k keepaliveByte ++ (line ++ newline :: rest)) :
    if stringToUint64 (junk rest) line ≤ binrequestMaxSize then
      parseLoop pb junk fuel p = (entered pb (stringToUint64 (junk rest) line) rest p, none)
    else (parseLoop pb junk fuel p).2 = some .requestParsingEx := by
  induction k generalizing fuel p with
  | zero =>
      obtain ⟨fuel, rfl⟩ : ∃ f, fuel = f + 1 := ⟨fuel - 1, by omega⟩
      rw [List.replicate_zero, List.nil_append] at htok
      have hne : ¬ p.curToken.length = 0 := by rw [htok]; simp
      have hskip : ¬ (p.state = .readingSize ∧ p.curToken.head? = some keepaliveByte) := by
        rintro ⟨-, h⟩
        rw [htok] at h
        cases line with
        | nil => exact absurd (Option.some.inj h) (by decide)
        | cons b line => exact hhead h
      have hround : parseLoop pb junk (fuel + 1) p = readSize pb junk p := by
        rw [parseLoop, if_neg hne, if_neg hskip]
      rw [hround]
      exact readSize_line junk hline rest hst htok
  | succ k ih =>
      obtain ⟨fuel, rfl⟩ : ∃ f, fuel = f + 1 := ⟨fuel - 1, by omega⟩
      rw [List.replicate_succ, List.cons_append] at htok
      have hne : ¬ p.curToken.length = 0 := by rw [htok]; simp
      have hone : ¬ p.curToken.length = 1 := by rw [htok]; simp
      have hskip : p.state = .readingSize ∧ p.curToken.head? = some keepaliveByte := by
        rw [htok]
        exact ⟨hst, rfl⟩
      have hdrop : substr p.curToken 1 (p.curToken.length - 1) =
          List.replicate k keepaliveByte ++ (line ++ newline :: rest) := by
        rw [substr_of_le (by omega), htok]
        rfl
      have hround : parseLoop pb junk (fuel + 1) p =
          parseLoop pb junk fuel
            { p with curToken := List.replicate k keepaliveByte ++ (line ++ newline :: rest) } := by
        rw [parseLoop, if_neg hne, if_pos hskip, if_neg hone, hdrop]
      rw [hround]
      exact ih (by omega) hst rfl

theorem parse_atSizeLine (junk : Junk) {line : Bytes} (hline : newline ∉ line)
    (hhead : line.head? ≠ some keepaliveByte) {rest : Bytes} {p : Parser} (h : AtSizeLine line rest p) :
    if stringToUint64 (junk rest) line ≤ binrequestMaxSize then
      parse pb junk p = (entered pb (stringToUint64 (junk rest) line) rest p, none)
    else (parse pb junk p).2 = some .requestParsingEx := by
  obtain ⟨hst, k, htok⟩ := h
  have hk : k < p.curToken.length + 1 := by
    rw [htok, List.length_append, List.length_replicate]
    omega
  exact parseLoop_atSizeLine junk hline hhead rest k hk hst htok

theorem readsLine_iff {line : Bytes} (hline : newline ∉ line) (hhead : line.head? ≠ some keepaliveByte) :
    ReadsLine pb line ↔ ReadAlike binrequestMaxSize line := by
  rw [← size_iff_readAlike (by decide)]
  constructor
  · intro h junk
    have hp : AtSizeLine line [] { init with curToken := line ++ [newline] } := ⟨rfl, 0, rfl⟩
    exact (outcome_iff (entered_injective _ _) (parse_atSizeLine (fun _ => junk) hline hhead hp) line).mp
      (h (fun _ => junk) [] _ hp)
  · intro h junk rest p hp
    exact (outcome_iff (entered_injective _ _) (parse_atSizeLine junk hline hhead hp) line).mpr
      (h (junk rest))

end Parser
end BinServer

/-! ## Both parsers -/

/-- **Which size lines are read as they should be**: by each of the two parsers the numerals, and the lines
    in which a scan finds a number over the parser's limit. -/
theorem sizeLines_iff (pb : BinClient.Protobuf) {line : Bytes} (hline : newline ∉ line) :
    (BinClient.ResponseParser.ReadsLine line ↔ ReadAlike BinClient.messageSizeLimit line) ∧
      (line.head? ≠ some BinServer.keepaliveByte →
        (BinServer.Parser.ReadsLine pb line ↔ ReadAlike BinServer.binrequestMaxSize line)) :=
  ⟨BinClient.ResponseParser.readsLine_iff hline, fun hhead => BinServer.Parser.readsLine_iff hline hhead⟩

/-- The theorem at a numeral. -/
theorem sizeLines_twelve :
    (BinClient.ResponseParser.ReadsLine (ascii "12") ↔
        ReadAlike BinClient.messageSizeLimit (ascii "12")) ∧
      ((ascii "12").head? ≠ some BinServer.keepaliveByte →
        (BinServer.Parser.ReadsLine BinClient.shortWire (ascii "12") ↔
          ReadAlike BinServer.binrequestMaxSize (ascii "12"))) :=
  sizeLines_iff BinClient.shortWire (by decide)

/-- **Trailing characters and missing digits**: the client takes `5abc` for the size 5, and the server an
    empty line for whatever the local holds. -/
theorem sizeLines_accepted :
    ¬ BinClient.ResponseParser.ReadsLine (ascii "5abc") ∧
      ¬ BinServer.Parser.ReadsLine BinClient.shortWire (ascii "") := by
  constructor
  · intro h
    have hp : BinClient.ResponseParser.AtSizeLine (ascii "5abc") []
        { BinClient.ResponseParser.init with
          state := .readingSize, curToken := ascii "5abc" ++ [newline] } := Or.inl ⟨rfl, rfl⟩
    have hsize := ((h (fun _ => 0) [] _ hp).1 5).mp (by decide)
    exact absurd hsize.1 (by decide)
  · intro h
    have hp : BinServer.Parser.AtSizeLine (ascii "") []
        { BinServer.Parser.init with curToken := ascii "" ++ [newline] } := ⟨rfl, 0, rfl⟩
    have hthrown := (h (fun _ => 0) [] _ hp).2 (fun n hn => absurd hn.1 (by decide))
    exact absurd hthrown (by decide)

end Hiaux
