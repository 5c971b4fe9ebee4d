import Hiaux.Lib.Replacement
import Hiaux.Strings.StringUtils
import Hiaux.Strings.Utf8Strings

/-!
# `Strings.RefParser` — the search phrase in a referer

`RefParser::parse` unescapes a referer and asks the search engines in the order of the map. An engine answers if
its key and the key of its parameter occur in the text, wherever that is. The positions are `int`s, which are taken
not to overflow.
-/

namespace Hiaux
namespace Strings
namespace RefParser

open Lib

/-- `m_engines` after `RefParser::init`, which assigns in this order. -/
def engines : StrMap :=
  [(ascii "bing.com/search", ascii "q="),
    (ascii "ask.com/search/", ascii "searchfor="),
    (ascii "google.ru", ascii "q="),
    (ascii "mail.ru/search", ascii "q="),
    (ascii "nigma.ru", ascii "s="),
    (ascii "qip.ru/search", ascii "query="),
    (ascii "rambler.ru", ascii "query="),
    (ascii "sputnik.ru", ascii "q="),
    (ascii "webalta.ru/search", ascii "q="),
    (ascii "yahoo.com/search", ascii "p="),
    (ascii "yandex.", ascii "text=")].foldl (fun m e => m.insert e.1 e.2) ∅

variable (curlUnescape : Bytes → Bytes)

/-- `RefParser::parseEngineReferer`: what it returns, and what is then in `_query`. -/
def parseEngineReferer (ref engine param query : Bytes) : Bool × Bytes :=
  match findWord engine ref with
  | none => (false, query)
  | some _ =>
      match findWord param ref with
      | none => (false, query)
      | some pos =>
          let bpos := pos + param.length
          let query := substr ref bpos (ref.length - bpos)
          let epos := (find 38 query).getD query.length
          let query := substr query 0 epos
          let query := unescapeUrl curlUnescape query
          let query := (toLowerUtf8 query).value
          (true, (replaceCharUtf8 query 0x2B 0x20).value)

/-- The loop of `RefParser::parse` over the engines. -/
def parseEngines (ref : Bytes) : List (Bytes × Bytes) → Bytes → Bool × Bytes
  | [], query => (false, query)
  | (engine, param) :: rest, query =>
      let (found, query) := parseEngineReferer curlUnescape ref engine param query
      if found then (true, query) else parseEngines ref rest query

/-- `RefParser::parse`. -/
def parse (ref query : Bytes) : Bool × Bytes :=
  parseEngines curlUnescape (unescapeUrl curlUnescape ref) engines.toList query

end RefParser
end Strings
end Hiaux
