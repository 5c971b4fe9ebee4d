import Hiaux.Lib.Pieces
import Hiaux.HttpServer.ConnectionParsing

/-!
# `HttpServer.Correctness.Segmentation` — what cutting a request does to its content

`http_parser` may report each string of a request in pieces (`Delivery`): wherever a read ends inside it,
and where a chunked body has a chunk boundary. The callbacks do not join the pieces. The url and a header
name are taken from the last one, a header value from the first one, and the body from the last one, up to
its first NUL. So the assembled request is the one sent exactly when nothing that counts was cut
(`Delivery.Uncut`); only a header that repeats an earlier name can hide a cut.
-/

namespace Hiaux
namespace HttpServer

open Lib Strings

/-! ## A request as the parser reports it -/

/-- The pieces of one header. Names and values hold no NUL. -/
structure HeaderDelivery where
  field : Pieces
  value : Pieces
  field_nul : 0 ∉ field.whole
  value_nul : 0 ∉ value.whole

/-- A well-formed request in the pieces of its callbacks. A piece of the url that is not the last one ends
    the read; the last one is followed in memory by the space that ends the url and by `urlRest`, the rest
    of that read. A piece of the body is never empty. -/
structure Delivery where
  url : Pieces
  urlRest : Bytes
  headers : List HeaderDelivery
  shouldKeepAlive : Bool
  body : List Bytes
  url_nul : 0 ∉ url.whole
  url_space : 32 ∉ url.whole
  body_ne : ∀ p ∈ body, p ≠ []

namespace HeaderDelivery

/-- The callbacks for a header. -/
def callbacks (h : HeaderDelivery) : List Callback :=
  h.field.list.map .headersField ++ h.value.list.map .headersValue

/-- The same header, name and value delivered by one callback each. -/
def inOne (h : HeaderDelivery) : HeaderDelivery :=
  ⟨.one h.field.whole, .one h.value.whole, h.field_nul, h.value_nul⟩

end HeaderDelivery

namespace Delivery

/-- The callbacks for the url. -/
def urlCallbacks (d : Delivery) : List Callback :=
  d.url.init.map (fun p => .url p p.length) ++ [.url (d.url.last ++ 32 :: d.urlRest) d.url.last.length]

/-- All callbacks of the message. -/
def callbacks (d : Delivery) : List Callback :=
  .messageBegin :: d.urlCallbacks ++ d.headers.flatMap HeaderDelivery.callbacks ++
    [.headersComplete d.shouldKeepAlive] ++ d.body.map .body ++ [.messageComplete]

/-- The same request, each string delivered by one callback; an empty body by none. -/
def inOne (d : Delivery) : Delivery where
  url := .one d.url.whole
  urlRest := d.urlRest
  headers := d.headers.map HeaderDelivery.inOne
  shouldKeepAlive := d.shouldKeepAlive
  body := if d.body.flatten = [] then [] else [d.body.flatten]
  url_nul := d.url_nul
  url_space := d.url_space
  body_ne := by
    intro p hp
    split at hp
    · exact absurd hp List.not_mem_nil
    · rename_i hne
      rw [List.mem_singleton.mp hp]
      exact hne

/-- The request assembled from a delivery, starting with a new one. -/
def assemble (curlUnescape : Bytes → Bytes) (a : Assembly) (d : Delivery) : HttpRequest :=
  ({ a with curHttpRequest := .new }.callbacks curlUnescape d.callbacks).curHttpRequest

/-- **The content survives**: the request is the one assembled without cuts, and its body is what was
    sent. -/
def ContentKept (curlUnescape : Bytes → Bytes) (a : Assembly) (d : Delivery) : Prop :=
  d.assemble curlUnescape a = d.inOne.assemble curlUnescape a ∧
    (d.assemble curlUnescape a).body = d.body.flatten

/-- Nothing that counts is cut: the url and each header name come in one callback, the first callback for a
    header value brings all of it, and the body comes in at most one and holds no NUL. -/
def Uncut (d : Delivery) : Prop :=
  d.url.init = [] ∧ (∀ h ∈ d.headers, h.field.init = [] ∧ h.value.first = h.value.whole) ∧
    d.body.length ≤ 1 ∧ 0 ∉ d.body.flatten

end Delivery

/-! ## What each callback leaves -/

section

variable {curlUnescape : Bytes → Bytes}

/-- A callback that is not about the url keeps it, and so on for the headers and the body: the part of the
    request that a callback may change. -/
theorem callbacks_keep {β : Type} (part : HttpRequest → β) (cs : List Callback)
    (hkeep : ∀ c ∈ cs, ∀ a : Assembly,
      part (a.callback curlUnescape c).curHttpRequest = part a.curHttpRequest) (a : Assembly) :
    part (a.callbacks curlUnescape cs).curHttpRequest = part a.curHttpRequest := by
  induction cs generalizing a with
  | nil => rfl
  | cons c cs ih =>
      have hrest := ih (fun d hd => hkeep d (List.mem_cons_of_mem c hd)) (a.callback curlUnescape c)
      exact hrest.trans (hkeep c List.mem_cons_self a)

/-- The last piece of a url is read up to the space. -/
theorem onUrl_last {s : Bytes} (rest : Bytes) (n : Nat) (hnul : 0 ∉ s) (hsp : 32 ∉ s) (a : Assembly) :
    (a.onUrl curlUnescape (s ++ 32 :: rest) n).curHttpRequest.url = s := by
  have hread : ∀ b ∈ s, (b != 32 && b != 0) = true := by
    intro b hb
    have hne : b ≠ 32 := fun he => hsp (he ▸ hb)
    have hne' : b ≠ 0 := fun he => hnul (he ▸ hb)
    simp [hne, hne']
  rw [Assembly.onUrl_eq]
  exact (takeWhile_stop rfl s rest).trans (List.takeWhile_eq_self_iff.mpr hread)

/-- The name of a header is its last piece. -/
theorem curHeaderField_of_field (p : Pieces) (hnul : 0 ∉ p.whole) (a : Assembly) :
    a.callbacks curlUnescape (p.list.map .headersField) = { a with curHeaderField := p.last } := by
  have hinit : ∀ (l : List Bytes) (s : Bytes), a.callbacks curlUnescape ((l ++ [s]).map .headersField) =
      { a with curHeaderField := cStr s } := by
    intro l
    induction l generalizing a with
    | nil => exact fun s => rfl
    | cons q qs ih => exact fun s => ih (a.onHeadersField q) s
  have hlast : 0 ∉ p.last := fun h => hnul (p.last_suffix.subset h)
  rw [Pieces.list, hinit, cStr_eq_self_iff.mpr hlast]

variable (curlUnescape) in
/-- Later pieces of a value do not change the headers. -/
theorem headers_of_values (ps : List Bytes) {a : Assembly}
    (hmem : a.curHeaderField ∈ a.curHttpRequest.headers) :
    (a.callbacks curlUnescape (ps.map .headersValue)).curHttpRequest.headers =
      a.curHttpRequest.headers := by
  induction ps generalizing a with
  | nil => rfl
  | cons p ps ih =>
      have hsame : (a.onHeadersValue p).curHttpRequest.headers = a.curHttpRequest.headers :=
        insertIfNew_of_mem _ hmem
      have hrest := ih (a := a.onHeadersValue p) (by rw [hsame]; exact hmem)
      exact hrest.trans hsame

/-- **A header is stored under the last piece of its name, with the first piece of its value.** -/
theorem headers_of_header (h : HeaderDelivery) (a : Assembly) :
    (a.callbacks curlUnescape h.callbacks).curHttpRequest.headers =
      a.curHttpRequest.headers.insertIfNew h.field.last h.value.first := by
  obtain ⟨rest, hlist⟩ := h.value.list_eq_first_cons
  have hfirst : cStr h.value.first = h.value.first := by
    rw [cStr_eq_self_iff]
    intro h0
    exact h.value_nul (Pieces.mem_whole_of_mem_list (hlist ▸ List.mem_cons_self) h0)
  rw [HeaderDelivery.callbacks, Assembly.callbacks_append, curHeaderField_of_field _ h.field_nul, hlist,
    List.map_cons]
  have hinsert : ∀ b : Assembly, (b.onHeadersValue h.value.first).curHttpRequest.headers =
      b.curHttpRequest.headers.insertIfNew b.curHeaderField h.value.first := by
    intro b
    rw [← hfirst]
    simp only [Assembly.onHeadersValue, hfirst]
  have hrest := headers_of_values curlUnescape rest
    (a := { a with curHeaderField := h.field.last }.onHeadersValue h.value.first)
    (by rw [hinsert]; exact Std.ExtTreeMap.mem_insertIfNew_self)
  exact hrest.trans (hinsert _)

theorem headers_of_headers (hs : List HeaderDelivery) (a : Assembly) :
    (a.callbacks curlUnescape (hs.flatMap HeaderDelivery.callbacks)).curHttpRequest.headers =
      insertAll a.curHttpRequest.headers (hs.map (fun h => (h.field.last, h.value.first))) := by
  induction hs generalizing a with
  | nil => rfl
  | cons h hs ih =>
      rw [List.flatMap_cons, Assembly.callbacks_append, ih, headers_of_header]
      rfl

end

/-! ## What is assembled -/

namespace Delivery

variable (curlUnescape : Bytes → Bytes) (a : Assembly) (d : Delivery)

theorem assemble_url : (d.assemble curlUnescape a).url = d.url.last := by
  have hnul : 0 ∉ d.url.last := fun h => d.url_nul (d.url.last_suffix.subset h)
  have hsp : 32 ∉ d.url.last := fun h => d.url_space (d.url.last_suffix.subset h)
  have hsplit : d.callbacks = (.messageBegin :: d.url.init.map (fun p => .url p p.length)) ++
      (.url (d.url.last ++ 32 :: d.urlRest) d.url.last.length :: (d.headers.flatMap
        HeaderDelivery.callbacks ++ (.headersComplete d.shouldKeepAlive :: (d.body.map .body ++
          [.messageComplete])))) := by
    simp [callbacks, urlCallbacks]
  unfold assemble
  rw [hsplit, Assembly.callbacks_append]
  refine (callbacks_keep HttpRequest.url (_ ++ (_ :: (_ ++ _))) ?_ (Assembly.onUrl curlUnescape _ _ _)).trans
    (onUrl_last _ d.url.last.length hnul hsp _)
  intro c hc b
  simp only [List.mem_append, List.mem_flatMap, HeaderDelivery.callbacks, List.mem_cons, List.mem_map,
    List.not_mem_nil, or_false] at hc
  rcases hc with ⟨_, _, ⟨_, _, rfl⟩ | ⟨_, _, rfl⟩⟩ | rfl | ⟨_, _, rfl⟩ | rfl <;> rfl

theorem assemble_headers : (d.assemble curlUnescape a).headers =
    insertAll ∅ (d.headers.map (fun h => (h.field.last, h.value.first))) := by
  have hsplit : d.callbacks = (.messageBegin :: d.urlCallbacks) ++ (d.headers.flatMap
      HeaderDelivery.callbacks ++ (.headersComplete d.shouldKeepAlive :: (d.body.map .body ++
        [.messageComplete]))) := by
    simp [callbacks]
  unfold assemble
  rw [hsplit, Assembly.callbacks_append, Assembly.callbacks_append,
    callbacks_keep HttpRequest.headers (.headersComplete d.shouldKeepAlive :: _), headers_of_headers,
    callbacks_keep HttpRequest.headers (.messageBegin :: d.urlCallbacks)]
  · rfl
  · intro c hc b
    simp only [urlCallbacks, List.mem_cons, List.mem_append, List.mem_map, List.not_mem_nil, or_false] at hc
    rcases hc with rfl | ⟨_, _, rfl⟩ | rfl <;> rfl
  · intro c hc b
    simp only [List.mem_cons, List.mem_append, List.mem_map, List.not_mem_nil, or_false] at hc
    rcases hc with rfl | ⟨_, _, rfl⟩ | rfl <;> rfl

/-- The body is the last piece, up to its first NUL. -/
theorem assemble_body : (d.assemble curlUnescape a).body = cStr (d.body.getLastD []) := by
  have hbody : ∀ (ps : List Bytes) (b : Assembly),
      (b.callbacks curlUnescape (ps.map .body)).curHttpRequest.body =
        if ps = [] then b.curHttpRequest.body else cStr (ps.getLastD []) := by
    intro ps
    induction ps using List.reverseRecOn with
    | nil => exact fun b => rfl
    | append_singleton ps p _ =>
        intro b
        rw [List.map_append, Assembly.callbacks_append]
        simp [Assembly.callbacks, Assembly.callback, Assembly.onBody]
  -- only the body callbacks touch the body: those before and after them keep it
  have hsplit : d.callbacks = (.messageBegin :: (d.urlCallbacks ++ (d.headers.flatMap
      HeaderDelivery.callbacks ++ [.headersComplete d.shouldKeepAlive]))) ++ (d.body.map .body ++
        [.messageComplete]) := by
    simp [callbacks]
  unfold assemble
  rw [hsplit, Assembly.callbacks_append, Assembly.callbacks_append,
    callbacks_keep HttpRequest.body [.messageComplete], hbody,
    callbacks_keep HttpRequest.body (.messageBegin :: _)]
  · split
    · rename_i he
      rw [he]
      rfl
    · rfl
  · intro c hc b
    simp only [urlCallbacks, List.mem_append, List.mem_flatMap, HeaderDelivery.callbacks, List.mem_cons,
      List.mem_map, List.not_mem_nil, or_false] at hc
    rcases hc with rfl | (⟨_, _, rfl⟩ | rfl) | ⟨_, _, ⟨_, _, rfl⟩ | ⟨_, _, rfl⟩⟩ | rfl <;> rfl
  · intro c hc b
    cases List.mem_singleton.mp hc
    rfl

/-! ## An uncut request -/

/-- A further empty piece of a value changes nothing. -/
theorem value_then_empty (v : Bytes) :
    a.callbacks curlUnescape [.headersValue v, .headersValue []] =
      a.callbacks curlUnescape [.headersValue v] := by
  have hmem : a.curHeaderField ∈ (a.onHeadersValue v).curHttpRequest.headers :=
    Std.ExtTreeMap.mem_insertIfNew_self
  have hempty : ∀ b : Assembly, b.curHeaderField ∈ b.curHttpRequest.headers → b.onHeadersValue [] = b := by
    intro b hb
    unfold Assembly.onHeadersValue
    simp only [insertIfNew_of_mem _ hb]
    have hnil : cStr [] = [] := rfl
    simp [hnil, ascii]
  exact hempty _ hmem

theorem callbacks_header_inOne {h : HeaderDelivery} (hf : h.field.init = [])
    (hv : h.value.first = h.value.whole) :
    a.callbacks curlUnescape h.callbacks = a.callbacks curlUnescape h.inOne.callbacks := by
  have hfield : h.inOne.field = h.field := (Pieces.eq_one_of_init hf).symm
  have hvalue : h.inOne.value.list = [h.value.whole] := rfl
  unfold HeaderDelivery.callbacks
  rw [hfield, hvalue, Assembly.callbacks_append, Assembly.callbacks_append]
  rcases Pieces.list_of_first_eq_whole hv with hl | hl
  · rw [hl]
  · rw [hl]
    exact value_then_empty curlUnescape _ _

/-- **Uncut strings assemble as if delivered at once.** -/
theorem assemble_inOne {d : Delivery} (hd : d.Uncut) :
    d.assemble curlUnescape a = d.inOne.assemble curlUnescape a := by
  obtain ⟨hurl, hheaders, hlen, -⟩ := hd
  -- header by header, since the assembly runs through them in order
  have hcbs : ∀ hs : List HeaderDelivery,
      (∀ h ∈ hs, h.field.init = [] ∧ h.value.first = h.value.whole) → ∀ b : Assembly,
      b.callbacks curlUnescape (hs.flatMap HeaderDelivery.callbacks) =
        b.callbacks curlUnescape ((hs.map HeaderDelivery.inOne).flatMap HeaderDelivery.callbacks) := by
    intro hs
    induction hs with
    | nil => exact fun _ b => rfl
    | cons h hs ih =>
        intro hall b
        obtain ⟨hf, hv⟩ := hall h List.mem_cons_self
        rw [List.map_cons, List.flatMap_cons, List.flatMap_cons, Assembly.callbacks_append,
          Assembly.callbacks_append, callbacks_header_inOne curlUnescape b hf hv,
          ih (fun x hx => hall x (List.mem_cons_of_mem h hx))]
  have hbody : d.inOne.body = d.body := by
    show (if d.body.flatten = [] then [] else [d.body.flatten]) = d.body
    -- an uncut body is one piece or none, and pieces are not empty
    have hne := d.body_ne
    match hb : d.body with
    | [] => rfl
    | [p] =>
        have hp : p ≠ [] := hne p (hb ▸ List.mem_cons_self)
        simp [hp]
    | p :: q :: r =>
        rw [hb] at hlen
        simp at hlen
  have hurl' : d.inOne.urlCallbacks = d.urlCallbacks := by
    have hone : d.inOne.url = d.url := (Pieces.eq_one_of_init hurl).symm
    unfold urlCallbacks
    rw [hone]
    rfl
  unfold assemble callbacks
  simp only [Assembly.callbacks_append, hbody, hurl']
  rw [hcbs d.headers hheaders]
  rfl

/-- **When the content of a request survives.** It does if nothing that counts is cut, and, for headers
    with different names, only then. -/
theorem contentKept_iff_uncut :
    (d.Uncut → d.ContentKept curlUnescape a) ∧
      ((d.headers.map (fun h => h.field.whole)).Nodup → d.ContentKept curlUnescape a → d.Uncut) := by
  constructor
  · intro hd
    refine ⟨assemble_inOne curlUnescape a hd, ?_⟩
    obtain ⟨-, -, hlen, hnul⟩ := hd
    rw [assemble_body]
    match hb : d.body with
    | [] => rfl
    | [p] =>
        rw [hb] at hnul
        simpa using cStr_eq_self_iff.mpr hnul
    | p :: q :: r =>
        rw [hb] at hlen
        simp at hlen
  · rintro hnd ⟨hsame, hbody⟩
    refine ⟨?_, ?_, ?_⟩
    · have hurl := congrArg HttpRequest.url hsame
      rw [assemble_url, assemble_url] at hurl
      exact Pieces.last_eq_whole (congrArg List.length hurl)
    · have hheaders := congrArg HttpRequest.headers hsame
      rw [assemble_headers, assemble_headers] at hheaders
      have hone : d.inOne.headers.map (fun h => (h.field.last, h.value.first)) =
          d.headers.map (fun h => (h.field.whole, h.value.whole)) := by
        show (d.headers.map HeaderDelivery.inOne).map _ = _
        rw [List.map_map]
        rfl
      rw [hone] at hheaders
      have heq := eq_of_insertAll_eq _ _ _ _ d.headers (fun h _ => h.field.last_suffix) hnd hheaders
      intro h hh
      exact ⟨Pieces.last_eq_whole (congrArg List.length (heq h hh).1), (heq h hh).2⟩
    · rw [assemble_body] at hbody
      -- the last piece, even before it is cut at a NUL, is no longer than the body
      rcases List.eq_nil_or_concat d.body with hb | ⟨ps, p, hb⟩
      · rw [hb]
        simp
      · rw [hb] at hbody
        simp only [List.concat_eq_append, List.getLastD_concat, List.flatten_append, List.flatten_cons,
          List.flatten_nil, List.append_nil] at hbody
        have hle := cStr_length_le p
        rw [hbody, List.length_append] at hle
        have hps : ps.flatten = [] := List.eq_nil_of_length_eq_zero (by omega)
        have hnil : ps = [] := by
          apply Pieces.flatten_eq_nil _ hps
          intro q hq
          exact d.body_ne q (by rw [hb, List.concat_eq_append]; exact List.mem_append_left _ hq)
        subst hnil
        rw [List.flatten_nil, List.nil_append] at hbody
        rw [hb]
        exact ⟨by simp, by simpa using cStr_eq_self_iff.mp hbody⟩

/-- A request with a header, a cookie, a value in its url and a body, each delivered in one piece. -/
def formPost : Delivery where
  url := .one (ascii "/form?id=7")
  urlRest := ascii "HTTP/1.1\r\n"
  headers := [⟨.one (ascii "Host"), .one (ascii "localhost"), by decide, by decide⟩,
    ⟨.one (ascii "Cookie"), .one (ascii "sid=42"), by decide, by decide⟩]
  shouldKeepAlive := true
  body := [ascii "ab"]
  url_nul := by decide
  url_space := by decide
  body_ne := by decide

/-- Its content is kept. -/
theorem onePiece_content_kept :
    formPost.Uncut ∧ formPost.ContentKept id ⟨.new, [], true, false⟩ ∧
      (formPost.assemble id ⟨.new, [], true, false⟩).headers[ascii "Host"]? = some (ascii "localhost") ∧
      (formPost.assemble id ⟨.new, [], true, false⟩).cookies[ascii "sid"]? = some (ascii "42") ∧
      (formPost.assemble id ⟨.new, [], true, false⟩).valuesGET[ascii "id"]? = some (ascii "7") := by
  have huncut : formPost.Uncut := ⟨rfl, by simp [formPost, Pieces.one, Pieces.whole, Pieces.first], by decide, by decide⟩
  exact ⟨huncut, (contentKept_iff_uncut id ⟨.new, [], true, false⟩ formPost).1 huncut, by decide +kernel,
    by decide +kernel, by decide +kernel⟩

/-- A request `/` with the body `ab`, delivered in two pieces. -/
def twoPieces : Delivery where
  url := .one (ascii "/")
  urlRest := ascii "HTTP/1.1\r\n"
  headers := []
  shouldKeepAlive := true
  body := [ascii "a", ascii "b"]
  url_nul := by decide
  url_space := by decide
  body_ne := by decide

/-- Only the second piece of the body is left. -/
theorem twoPieces_content_lost :
    ¬ twoPieces.ContentKept id ⟨.new, [], true, false⟩ := by
  rintro ⟨-, hbody⟩
  rw [assemble_body] at hbody
  exact absurd hbody (by decide)

end Delivery

end HttpServer
end Hiaux
