import Hiaux.Lib.Bytes

/-!
# `Strings.StringUtils` — the string helpers of the HTTP server

`split`, `parseGET`, `getUrlPath`, `escapeUrl` and `parseCookies`. `curl_easy_escape` and `curl_easy_unescape`
are not part of the repository: they are the parameters `curlEscape` and `curlUnescape`. A `NULL` from them
(out of memory) is not modelled.
-/

namespace Hiaux
namespace Strings

open Lib

/-! ## Splitting -/

/-- The loop of `std::getline` over a stream: `item` is what has been read of the current line. At the end
    of the stream a line counts if something was read for it. -/
def getlines (delim : UInt8) (item : Bytes) : Bytes → List Bytes
  | [] => if item = [] then [] else [item]
  | c :: s => if c = delim then item :: getlines delim [] s else getlines delim (item ++ [c]) s

/-- `split(s, delim)`. -/
def split (s : Bytes) (delim : UInt8) : List Bytes := getlines delim [] s

/-- `split(s, delims, elems)`: by each delimiter in turn, empty tokens dropped. -/
def splitAll (s : Bytes) (delims : List UInt8) : List Bytes :=
  (delims.foldl (fun tokens d => tokens.flatMap (fun t => if t ≠ [] then split t d else [])) [s]).filter
    (· ≠ [])

/-- What `split(s, delims, elems)` leaves in `elems`: the tokens are pushed behind what is there. -/
def splitInto (s : Bytes) (delims : List UInt8) (elems : List Bytes) : List Bytes := elems ++ splitAll s delims

/-! ## Urls -/

/-- `getUrlPath`. -/
def getUrlPath (url : Bytes) : Bytes :=
  match find 63 url with
  | none => url
  | some qpos => substr url 0 qpos

/-- `escapeUrl`: the escaped text is read back as a C string. -/
def escapeUrl (curlEscape : Bytes → Bytes) (url : Bytes) : Bytes := cStr (curlEscape url)

/-- `unescapeUrl`: the unescaped text is read back as a C string. -/
def unescapeUrl (curlUnescape : Bytes → Bytes) (value : Bytes) : Bytes := cStr (curlUnescape value)

/-- `URL_PARSER_STATE`. -/
inductive UrlParserState where
  | outside
  | key
  | value
deriving DecidableEq, Repr

/-- The local variables of `parseGET`. -/
structure GetScan where
  state : UrlParserState
  sbeg : Nat
  key : Bytes
  value : Bytes
  valuesGET : StrMap

/-- One round of the loop of `parseGET`, at position `i`. -/
def parseGETStep (curlUnescape : Bytes → Bytes) (data : Bytes) (g : GetScan) (i : Nat) : GetScan :=
  let next := if i + 1 ≠ data.length then i + 1 else i
  if data[i]? = some 63 then { g with state := .key, sbeg := next }
  else if data[i]? = some 61 then
    { g with state := .value, key := substr data g.sbeg (i - g.sbeg), sbeg := next }
  else if data[i]? = some 38 then
    let value := unescapeUrl curlUnescape (unescapeUrl curlUnescape (substr data g.sbeg (i - g.sbeg)))
    { g with state := .key, value := value, valuesGET := g.valuesGET.insert g.key value, sbeg := next }
  else g

/-- `parseGET`: the parameters of a url, assigned into `valuesGET`. Its positions are `int`s: the url is shorter
    than `2 ^ 31` bytes. -/
def parseGET (curlUnescape : Bytes → Bytes) (data : Bytes) (valuesGET : StrMap) : StrMap :=
  let g := (List.range data.length).foldl (parseGETStep curlUnescape data)
    ⟨.outside, 0, [], [], valuesGET⟩
  let rest := substr data g.sbeg (data.length - g.sbeg)
  let key := if g.state = .key then rest else g.key
  let value := match g.state with
    | .value => rest
    | .key => []
    | .outside => g.value
  g.valuesGET.insert key (unescapeUrl curlUnescape (unescapeUrl curlUnescape value))

/-! ## Cookies -/

/-- One element of the cookie header: a leading space is not part of the name. -/
def parseCookie (elem : Bytes) (cookies : StrMap) : StrMap :=
  match find 61 elem with
  | none => cookies
  | some eqPos =>
      let value := substr elem (eqPos + 1) (elem.length - eqPos - 1)
      if elem.head? = some 32 then cookies.insert (substr elem 1 (eqPos - 1)) value
      else cookies.insert (substr elem 0 eqPos) value

/-- `parseCookies`: the cookies of a header, assigned into `cookies`. -/
def parseCookies (header : Bytes) (cookies : StrMap) : StrMap :=
  (splitAll header [59]).foldl (fun m elem => if elem ≠ [] then parseCookie elem m else m) cookies

@[simp] theorem parseCookies_nil (cookies : StrMap) : parseCookies [] cookies = cookies := rfl

end Strings
end Hiaux
