import Hiaux.Lib.Bytes
import Hiaux.Lib.Scan
import Hiaux.Strings.Names

/-!
# `UrlParser.ParsedUrl` — URLs taken apart

`ParsedUrl::doParsing` goes through a URL with a pointer into its characters. Whatever it has read when it
gives up stays in the fields. The URL is checked first and has no NUL, so the end that the loops look for is
the end of the string. A local variable that holds a part is the part here. The lengths of parts are `int`s there
and natural numbers here: a URL is shorter than `2 ^ 31` bytes.
-/

namespace Hiaux
namespace UrlParser

open Lib Strings

/-! ## Characters -/

/-- `isalpha`. -/
def isAlpha (c : UInt8) : Bool := (97 ≤ c && c ≤ 122) || (65 ≤ c && c ≤ 90)

/-- `tolower`. -/
def toLower (c : UInt8) : UInt8 := if 65 ≤ c && c ≤ 90 then c + 32 else c

/-- `_is_scheme_char`. -/
def isSchemeChar (c : UInt8) : Bool := isAlpha c || c == 43 || c == 45 || c == 46

/-- `isUrlChar`. -/
def isUrlChar (t : UInt8) : Bool :=
  (97 ≤ t && t ≤ 122) || (65 ≤ t && t ≤ 90) || (48 ≤ t && t ≤ 57) ||
    t == 58 || t == 46 || t == 47 || t == 45 || t == 95 ||
    t == 38 || t == 63 || t == 37 || t == 61 || t == 35

/-- `checkUrlCorrect`. -/
def checkUrlCorrect (url : Bytes) : Bool := url.all isUrlChar

/-! ## Parsing -/

/-- `ParsedUrl`. -/
structure ParsedUrl where
  ok : Bool
  scheme : Bytes
  host : Bytes
  port : Bytes
  path : Bytes
  query : Bytes
  fragment : Bytes
  username : Bytes
  password : Bytes
deriving DecidableEq, Repr

namespace ParsedUrl

/-- Before anything is read. `ok` is set on every way out. -/
def start : ParsedUrl := ⟨false, [], [], [], [], [], [], [], []⟩

/-- The path, the query and the fragment. -/
def parsePath (cur : Bytes) (p : ParsedUrl) : ParsedUrl :=
  let (path, cur) := scanTo (fun c => c == 35 || c == 63) cur
  let (query, cur) := marked 63 (fun c => c == 35) cur
  let (fragment, _) := marked 35 (fun _ => false) cur
  { p with path := path, query := query.getD p.query, fragment := fragment.getD p.fragment, ok := true }

/-- The port, and what follows it. -/
def parsePort (cur : Bytes) (p : ParsedUrl) : ParsedUrl :=
  let (port, cur) := marked 58 (fun c => c == 47) cur
  let p := { p with port := port.getD p.port }
  match cur with
  | [] => { p with ok := true }
  | c :: cur => if c = 47 then p.parsePath cur else p

/-- The host: an address in brackets, or what stands before a colon or a slash. -/
def parseHost (cur : Bytes) (p : ParsedUrl) : ParsedUrl :=
  let (host, cur) :=
    if cur.head? = some 91 then
      let (host, cur) := scanTo (fun c => c == 93) cur
      (host ++ cur.take 1, cur.drop 1)
    else scanTo (fun c => c == 58 || c == 47) cur
  if host = [] then p else { p with host := host }.parsePort cur

/-- The user and the password. They are there if an `@` comes before any slash. -/
def parseUser (cur : Bytes) (p : ParsedUrl) : ParsedUrl :=
  if (scanTo (fun c => c == 64 || c == 47) cur).2.head? = some 64 then
    let (username, cur) := scanTo (fun c => c == 58 || c == 64) cur
    let (password, cur) := marked 58 (fun c => c == 64) cur
    let p := { p with username := username, password := password.getD p.password }
    match cur with
    | [] => p
    | c :: cur => if c = 64 then p.parseHost cur else p
  else p.parseHost cur

/-- `ParsedUrl::doParsing`. -/
def doParsing (url : Bytes) : ParsedUrl :=
  if checkUrlCorrect url then
    match find 58 url with
    | none => start
    | some len =>
        let scheme := url.take len
        if scheme.all isSchemeChar then
          let p := { start with scheme := scheme.map toLower }
          let cur := url.drop (len + 1)
          if cur.take 2 = [47, 47] then p.parseUser (cur.drop 2) else p
        else start
  else start

/-- The constructors; `inverted` is false for the one without the argument. -/
def new (url : Bytes) (inverted : Bool) : ParsedUrl :=
  let p := doParsing url
  if inverted then { p with host := invertDomain p.host } else p

/-! ## Rendering -/

/-- `ParsedUrl::withoutParams`. -/
def withoutParams (p : ParsedUrl) : Bytes := p.scheme ++ ascii "://" ++ p.host ++ ascii "/" ++ p.path

/-- `ParsedUrl::normalize`. -/
def normalize (p : ParsedUrl) : Bytes :=
  p.withoutParams ++ if p.query ≠ [] then ascii "?" ++ p.query else []

/-- `ParsedUrl::getInverted`. -/
def getInverted (p : ParsedUrl) : Bytes :=
  p.scheme ++ ascii "://" ++ invertDomain p.host ++
    (if p.port.length ≠ 0 then ascii ":" ++ p.port else []) ++
    (if p.path.length ≠ 0 then ascii "/" ++ p.path else []) ++
    if p.query ≠ [] then ascii "?" ++ p.query else []

end ParsedUrl
end UrlParser
end Hiaux
