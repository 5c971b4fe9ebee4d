import Hiaux.Strings.StringUtils

/-!
# `Strings.Names` — file names and domain names

`removeFilenameExt`, `changeFilenameExt` and `invertDomain`. A position that is `std::string::npos` becomes `-1`
in the `int` that holds it, and is equal to `npos` again when it is compared. Positions and the index of a label
are `int`s there and natural numbers here: names are shorter than `2 ^ 31` bytes.
-/

namespace Hiaux
namespace Strings

open Lib

/-! ## File names -/

/-- `removeFilenameExt`. -/
def removeFilenameExt (s : Bytes) : Bytes :=
  match findLast 46 s with
  | none => s
  | some dotPos =>
      match findLast 47 s with
      | some slashPos => if slashPos > dotPos then s else substr s 0 dotPos
      | none => substr s 0 dotPos

/-- `changeFilenameExt`, for names shorter than `2 ^ 31` bytes. It finds the last slash too, but does not look
    at it. -/
def changeFilenameExt (s ext : Bytes) : Bytes :=
  match findLast 46 s with
  | none => s ++ (46 :: ext)
  | some dotPos => substr s 0 dotPos ++ (46 :: ext)

/-! ## Domain names -/

/-- The loop of `invertDomain`, downwards: the next index is one below the number. -/
def invertFrom (tokens : List Bytes) : Nat → Bytes → Bytes
  | 0, ret => ret
  | i + 1, ret =>
      let token := tokens.getD i []
      let ret := if token ≠ [] then ret ++ token ++ (if i ≠ 0 then [46] else []) else ret
      invertFrom tokens i ret

/-- `invertDomain`, for names of fewer than `2 ^ 31` labels. -/
def invertDomain (domain : Bytes) : Bytes :=
  let tokens := split domain 46
  invertFrom tokens tokens.length []

end Strings
end Hiaux
