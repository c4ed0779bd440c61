import Cclab.KeepFirstMap
import Cclab.OperationRuns
import Mathlib.Data.List.Infix
import Mathlib.Data.List.ReduceOption
import Mathlib.Data.UInt

/-! `HttpContext` of `httpserver/http_server.cc` behind the callbacks of its parser. The
parser itself appears as the sequence of callbacks that it makes, with the fields that
they read. -/
namespace Cclab.HttpServer
open KeepFirstMap OperationRuns

abbrev Bytes := List UInt8

/-- The fields of `http_parser` that the callbacks read. -/
structure HttpParser where
  method : UInt8
  contentLength : UInt64

/-- The public members of `HttpContext`. -/
structure Fields where
  httpMethod : UInt8
  requestUrl : Bytes
  path : Bytes
  contentLength : UInt64
  queryParams : Bytes → Option Bytes
  requestHeaders : Bytes → Option Bytes

structure HttpContext where
  fields : Fields
  tmpHeaderKey : Bytes

/-- The constructor leaves `http_method_` and `content_length_` as they are. -/
def HttpContext.create (httpMethod : UInt8) (contentLength : UInt64) : HttpContext :=
  ⟨⟨httpMethod,[],[],contentLength,fun _ => none,fun _ => none⟩,[]⟩

def messageBeginCb (ctx : HttpContext) (parser : HttpParser) : HttpContext :=
  { ctx with fields := { ctx.fields with httpMethod := parser.method } }

def headerFieldCb (ctx : HttpContext) (s : Bytes) : HttpContext :=
  { ctx with tmpHeaderKey := ctx.tmpHeaderKey ++ s }

/-- `::tolower` in the C locale. -/
def tolower (c : UInt8) : UInt8 := if 65 ≤ c ∧ c ≤ 90 then c+32 else c

/-- The string "host". -/
def hostKey : Bytes := [104,111,115,116]

/-- What a header does to `path_`: a request target that contains the host is cut behind
the length of "http://" and the host. -/
def hostPath (path : Bytes) (kv : Bytes × Bytes) : Bytes :=
  if kv.1 = hostKey ∧ kv.2 <:+: path ∧ path.length > 7+kv.2.length then
    path.drop (7+kv.2.length)
  else path

def headerValueCb (ctx : HttpContext) (v : Bytes) : HttpContext :=
  let k := ctx.tmpHeaderKey.map tolower
  { fields := { ctx.fields with
      path := hostPath ctx.fields.path (k,v)
      requestHeaders := insert ctx.fields.requestHeaders (k,v) }
    tmpHeaderKey := [] }

/-- One element of the query string, cut at its first '='. -/
def queryPair (e : Bytes) : Bytes × Bytes :=
  match e.findIdx? (· = 61) with
  | none => (e,[])
  | some pos => (e.take pos, e.drop (pos+1))

/-- The elements behind the first '?' of the target, between '&' and without the empty ones. -/
def queryPairs (url : Bytes) : List (Bytes × Bytes) :=
  match url.findIdx? (· = 63) with
  | none => []
  | some i => (((url.drop (i+1)).splitOn 38).filter (· ≠ [])).map queryPair

def urlPath (url : Bytes) : Bytes :=
  match url.findIdx? (· = 63) with
  | none => url
  | some i => url.take i

def requestUrlCb (ctx : HttpContext) (s : Bytes) : HttpContext :=
  { ctx with fields := { ctx.fields with
      requestUrl := s
      path := urlPath s
      queryParams := insertAll ctx.fields.queryParams (queryPairs s) } }

/-- `headers_complete_cb` stores the length and calls `OnRequest`, which sees the fields. -/
def headersCompleteCb (ctx : HttpContext) (parser : HttpParser) : HttpContext × Fields :=
  let ctx' := { ctx with fields := { ctx.fields with contentLength := parser.contentLength } }
  (ctx', ctx'.fields)

/-- `message_complete_cb` calls `OnComplete` and initialises the parser, not the context. -/
def messageCompleteCb (ctx : HttpContext) (_ : HttpParser) : HttpContext × HttpParser :=
  (ctx, ⟨0,0⟩)

inductive Callback where
  | messageBegin (parser : HttpParser)
  | url (s : Bytes)
  | headerField (s : Bytes)
  | headerValue (s : Bytes)
  | headersComplete (parser : HttpParser)
  | body (s : Bytes)
  | messageComplete (parser : HttpParser)

/-- One callback, with what `OnRequest` saw if it was called. `body_cb` only passes its
bytes to `OnBody`. -/
def HttpContext.step (ctx : HttpContext) : Callback → HttpContext × Option Fields
  | .messageBegin parser => (messageBeginCb ctx parser, none)
  | .url s => (requestUrlCb ctx s, none)
  | .headerField s => (headerFieldCb ctx s, none)
  | .headerValue s => (headerValueCb ctx s, none)
  | .headersComplete parser =>
    ((headersCompleteCb ctx parser).1, some (headersCompleteCb ctx parser).2)
  | .body _ => (ctx, none)
  | .messageComplete parser => ((messageCompleteCb ctx parser).1, none)

def HttpContext.run (ctx : HttpContext) (cs : List Callback) : HttpContext :=
  (specRun HttpContext.step ctx cs).1

/-- What the calls of `OnRequest` saw. -/
def HttpContext.onRequests (ctx : HttpContext) (cs : List Callback) : List Fields :=
  (specRun HttpContext.step ctx cs).2.reduceOption

/-- A request as the parser delivers it: its target, and the name and the value of each
header and trailer, each in one or more pieces. -/
structure Request where
  parser : HttpParser
  target : List Bytes
  headers : List (List Bytes × List Bytes)
  body : List Bytes
  trailers : List (List Bytes × List Bytes)

def headerCallbacks (h : List Bytes × List Bytes) : List Callback :=
  h.1.map .headerField ++ h.2.map .headerValue

/-- The callbacks up to the last header. -/
def Request.head (r : Request) : List Callback :=
  .messageBegin r.parser :: (r.target.map .url ++ r.headers.flatMap headerCallbacks)

def Request.callbacks (r : Request) : List Callback :=
  r.head ++ .headersComplete r.parser ::
    (r.body.map .body ++ r.trailers.flatMap headerCallbacks ++ [.messageComplete r.parser])

end Cclab.HttpServer
