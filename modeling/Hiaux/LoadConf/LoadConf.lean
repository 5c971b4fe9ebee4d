import Hiaux.Lib.Bytes

/-!
# `LoadConf.LoadConf` — configuration files with references to the environment

`LoadConf::replaceEnvParams` replaces the references `${NAME}` of a text, and `LoadConf::parseFile` hands the text
to the JSON reader. The positions are `size_t`s: whether one of their differences has wrapped around is recorded
beside the result. `LoadConf::load` takes the parameters from what has been read. The JSON library is a parameter.
-/

namespace Hiaux
namespace LoadConf

open Lib

/-! ## The environment -/

/-- The variables of a process. Their names and values are C strings. -/
structure Environment where
  value : Bytes → Option Bytes
  name_ends : ∀ {name v}, value name = some v → 0 ∉ name
  value_ends : ∀ {name v}, value name = some v → 0 ∉ v

/-- `getenv`, which gets its name as a C string. -/
def getenv (env : Environment) (name : Bytes) : Option Bytes := env.value (cStr name)

/-! ## Positions -/

/-- `a - b` of two `size_t`s. -/
def sizeSub (a b : Nat) : Nat := if b ≤ a then a - b else 2 ^ 64 + a - b

/-- Whether `a - b` wraps around. -/
def wraps (a b : Nat) : Bool := decide (a < b)

/-- `s.find(c, pos)`. -/
def findFrom (c : UInt8) (s : Bytes) (pos : Nat) : Option Nat := (find c (s.drop pos)).map (pos + ·)

/-- `s.substr(pos, n)`; `none` is the exception `std::out_of_range`. -/
def substrAt (s : Bytes) (pos n : Nat) : Option Bytes := if pos ≤ s.length then some (substr s pos n) else none

/-! ## References -/

/-- What leaves `replaceEnvParams` by an exception: a `std::string`, or `std::out_of_range`. -/
inductive Thrown where
  | message (text : Bytes)
  | outOfRange
deriving DecidableEq, Repr

/-- What `replaceEnvParams` leaves: the text, an exception, and whether a difference has wrapped around. -/
structure Replaced where
  text : Bytes
  thrown : Option Thrown
  wrapped : Bool
deriving DecidableEq, Repr

/-- The error of a `$` that is not closed. -/
def closeNotFound : Thrown := .message (ascii "LoadConf::replaceEnvParams '\x7d' not found")

/-- The error of a variable that is not set. -/
def notSet (var : Bytes) : Thrown :=
  .message (ascii "LoadConf::replaceEnvParams variable " ++ var ++ ascii " not set")

theorem find_bounds {c : UInt8} {s : Bytes} {pos n : Nat} (h : findFrom c s pos = some n) :
    pos ≤ n ∧ n < s.length := by
  obtain ⟨k, hk, rfl⟩ := Option.map_eq_some_iff.mp h
  have hlt := find_lt_length hk
  rw [List.length_drop] at hlt
  omega

/-- The loop of `replaceEnvParams`, which searches the next `$` from `prevClose` on, and what follows it. -/
def replaceFrom (env : Environment) (text ret : Bytes) (prevClose : Nat) (wrapped : Bool) : Replaced :=
  match _hdoll : findFrom 36 text prevClose with
  | none =>
      let count := sizeSub (sizeSub text.length prevClose) 1
      let wrapped := wrapped || wraps text.length prevClose || wraps (sizeSub text.length prevClose) 1
      match substrAt text prevClose count with
      | none => ⟨text, some .outOfRange, wrapped⟩
      | some rest => ⟨ret ++ rest, none, wrapped⟩
  | some dollPos =>
      match _hclose : findFrom 125 text dollPos with
      | none => ⟨text, some closeNotFound, wrapped⟩
      | some closePos =>
          let count := sizeSub (sizeSub closePos dollPos) 2
          let wrapped := wrapped || wraps closePos dollPos || wraps (sizeSub closePos dollPos) 2
          match substrAt text (dollPos + 2) count with
          | none => ⟨text, some .outOfRange, wrapped⟩
          | some var =>
              let wrapped := wrapped || wraps dollPos prevClose
              match substrAt text prevClose (sizeSub dollPos prevClose) with
              | none => ⟨text, some .outOfRange, wrapped⟩
              | some piece =>
                  match getenv env var with
                  | none => ⟨text, some (notSet var), wrapped⟩
                  | some value => replaceFrom env text (ret ++ piece ++ value) (closePos + 1) wrapped
termination_by text.length - prevClose
decreasing_by
  have hd := find_bounds _hdoll
  have hc := find_bounds _hclose
  omega

/-- `LoadConf::replaceEnvParams`. -/
def replaceEnvParams (env : Environment) (text : Bytes) : Replaced := replaceFrom env text [] 0 false

/-! ## Files -/

/-- `LoadConf::parseFile`: `content` is what the file holds, `none` if it cannot be opened, and `parse` the JSON
    reader. -/
def parseFile {Value : Type} (env : Environment) (parse : Bytes → Option Value) (filename : Bytes)
    (content : Option Bytes) : Except Bytes Value :=
  match content with
  | none => .error (ascii "LoadConf::load could not open file " ++ filename)
  | some text =>
      let replaced := replaceEnvParams env text
      match replaced.thrown with
      | some (.message e) =>
          .error (ascii "LoadConf::load could not parse file " ++ filename ++ ascii " error: " ++ e)
      | some .outOfRange => .error (ascii "LoadConf::load could not open file " ++ filename)
      | none =>
          match parse replaced.text with
          | none => .error (ascii "LoadConf::load could not parse file " ++ filename)
          | some root => .ok root

/-! ## Parameters -/

/-- What `load` uses of the JSON library: its reader, `value[name]`, whether `value.type()` is `stringValue`, and
    `value.asString()`. The second and the fourth may throw; the text of a string is there. -/
structure JsonLibrary (Value : Type) where
  parse : Bytes → Option Value
  member : Value → Bytes → Option Value
  isString : Value → Bool
  asString : Value → Option Bytes
  asString_isSome : ∀ {value}, isString value = true → (asString value).isSome = true

/-- What leaves `load` by an exception: a `std::string`, or one of the JSON library's. -/
inductive LoadEx where
  | message (text : Bytes)
  | json
deriving DecidableEq, Repr

/-- The error of a parameter that is not set. -/
def paramNotSet (configFile name : Bytes) : LoadEx :=
  .message (ascii "LoadConf::load " ++ configFile ++ ascii " : " ++ name ++ ascii " not set")

/-- `_params[name] = value(name)` for each of the names; the first exception ends it. -/
def assignEach (value : Bytes → Except LoadEx Bytes) : List Bytes → StrMap → Except LoadEx StrMap
  | [], params => .ok params
  | name :: names, params => do
      let text ← value name
      assignEach value names (params.insert name text)

section Load

variable {Value : Type} (json : JsonLibrary Value)

/-- `root[name].asString()`. -/
def optionalText (root : Value) (name : Bytes) : Except LoadEx Bytes :=
  match (json.member root name).bind json.asString with
  | none => .error .json
  | some text => .ok text

/-- `root[name].asString()`, once its type has been checked. -/
def requiredText (root : Value) (configFile name : Bytes) : Except LoadEx Bytes :=
  match json.member root name with
  | none => .error .json
  | some value => if json.isString value then optionalText json root name else .error (paramNotSet configFile name)

/-- `LoadConf::doLoadRequired`. -/
def doLoadRequired (root : Value) (required : List Bytes) (params : StrMap) (configFile : Bytes) :
    Except LoadEx StrMap :=
  assignEach (requiredText json root configFile) required params

/-- `LoadConf::doLoadOptional`. -/
def doLoadOptional (root : Value) (optional : List Bytes) (params : StrMap) : Except LoadEx StrMap :=
  assignEach (optionalText json root) optional params

/-- `LoadConf::load`, of a file that holds `content`. The overload without `optional` has none. -/
def load (env : Environment) (configFile : Bytes) (content : Option Bytes) (required optional : List Bytes) :
    Except LoadEx StrMap :=
  match parseFile env json.parse configFile content with
  | .error e => .error (.message e)
  | .ok root => do
      let params ← doLoadRequired json root required ∅ configFile
      doLoadOptional json root optional params

end Load

end LoadConf
end Hiaux
