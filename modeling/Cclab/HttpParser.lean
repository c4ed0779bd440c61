import Cclab.HttpContext

/-! The parser of `httpserver/http_parser.cc` as `HttpContext` sets it up: its type is
`HTTP_REQUEST`, so the states that read a response are left out. -/
namespace Cclab.HttpParser

abbrev Bytes := List UInt8

abbrev byte (c : Char) : UInt8 := c.toUInt8

def ascii (s : String) : Bytes := s.toList.map Char.toUInt8

def CR : UInt8 := 13
def LF : UInt8 := 10
def tab : UInt8 := 9
def space : UInt8 := 32

def httpMaxHeaderSize : UInt32 := 80*1024

def ullongMax : UInt64 := 0xFFFFFFFFFFFFFFFF

/-- `enum http_method`, in the order of its numbers. -/
inductive HttpMethod where
  | delete | get | head | post | put | connect | options | trace | copy | lock | mkcol | move
  | propfind | proppatch | search | unlock | bind | rebind | unbind | acl | report | mkactivity
  | checkout | merge | msearch | notify | subscribe | unsubscribe | patch | purge | mkcalendar
  | link | unlink | source
deriving DecidableEq, Repr

def methodString : HttpMethod → Bytes
  | .delete => ascii "DELETE"
  | .get => ascii "GET"
  | .head => ascii "HEAD"
  | .post => ascii "POST"
  | .put => ascii "PUT"
  | .connect => ascii "CONNECT"
  | .options => ascii "OPTIONS"
  | .trace => ascii "TRACE"
  | .copy => ascii "COPY"
  | .lock => ascii "LOCK"
  | .mkcol => ascii "MKCOL"
  | .move => ascii "MOVE"
  | .propfind => ascii "PROPFIND"
  | .proppatch => ascii "PROPPATCH"
  | .search => ascii "SEARCH"
  | .unlock => ascii "UNLOCK"
  | .bind => ascii "BIND"
  | .rebind => ascii "REBIND"
  | .unbind => ascii "UNBIND"
  | .acl => ascii "ACL"
  | .report => ascii "REPORT"
  | .mkactivity => ascii "MKACTIVITY"
  | .checkout => ascii "CHECKOUT"
  | .merge => ascii "MERGE"
  | .msearch => ascii "M-SEARCH"
  | .notify => ascii "NOTIFY"
  | .subscribe => ascii "SUBSCRIBE"
  | .unsubscribe => ascii "UNSUBSCRIBE"
  | .patch => ascii "PATCH"
  | .purge => ascii "PURGE"
  | .mkcalendar => ascii "MKCALENDAR"
  | .link => ascii "LINK"
  | .unlink => ascii "UNLINK"
  | .source => ascii "SOURCE"

/-- The cases of `s_start_req`: the method that is assumed from the first byte. -/
def startRows : List (UInt8 × HttpMethod) :=
  [(byte 'A',.acl), (byte 'B',.bind), (byte 'C',.connect), (byte 'D',.delete), (byte 'G',.get),
   (byte 'H',.head), (byte 'L',.lock), (byte 'M',.mkcol), (byte 'N',.notify), (byte 'O',.options),
   (byte 'P',.post), (byte 'R',.report), (byte 'S',.subscribe), (byte 'T',.trace), (byte 'U',.unlock)]

/-- The byte `next` behind the first one is looked at only to tell PUT from POST. -/
def startMethod (ch next : UInt8) : Option HttpMethod :=
  if ch = byte 'P' ∧ next = byte 'U' then some .put else startRows.lookup ch

/-- The `XX` rows of `s_req_method`: the method, the index and the byte that does not match
there, and the method that they belong to. -/
def methodRows : List ((HttpMethod × ℕ × UInt8) × HttpMethod) :=
  [((.post,1,byte 'U'), .put),
   ((.post,1,byte 'A'), .patch),
   ((.post,1,byte 'R'), .propfind),
   ((.put,2,byte 'R'), .purge),
   ((.connect,1,byte 'H'), .checkout),
   ((.connect,2,byte 'P'), .copy),
   ((.mkcol,1,byte 'O'), .move),
   ((.mkcol,1,byte 'E'), .merge),
   ((.mkcol,1,byte '-'), .msearch),
   ((.mkcol,2,byte 'A'), .mkactivity),
   ((.mkcol,3,byte 'A'), .mkcalendar),
   ((.subscribe,1,byte 'E'), .search),
   ((.subscribe,1,byte 'O'), .source),
   ((.report,2,byte 'B'), .rebind),
   ((.propfind,4,byte 'P'), .proppatch),
   ((.lock,1,byte 'I'), .link),
   ((.unlock,2,byte 'S'), .unsubscribe),
   ((.unlock,2,byte 'B'), .unbind),
   ((.unlock,3,byte 'I'), .unlink)]

def refineMethod (method : HttpMethod) (index : ℕ) (ch : UInt8) : Option HttpMethod :=
  methodRows.lookup (method,index,ch)

/-- `enum state` from `s_dead` on. -/
inductive State where
  | dead | startReq | reqMethod | reqSpacesBeforeUrl | reqSchema | reqSchemaSlash
  | reqSchemaSlashSlash | reqServerStart | reqServer | reqServerWithAt | reqPath
  | reqQueryStringStart | reqQueryString | reqFragmentStart | reqFragment | reqHttpStart
  | reqHttpH | reqHttpHT | reqHttpHTT | reqHttpHTTP | reqHttpMajor | reqHttpDot | reqHttpMinor
  | reqHttpEnd | reqLineAlmostDone | headerFieldStart | headerField | headerValueDiscardWs
  | headerValueDiscardWsAlmostDone | headerValueDiscardLws | headerValueStart | headerValue
  | headerValueLws | headerAlmostDone | chunkSizeStart | chunkSize | chunkParameters
  | chunkSizeAlmostDone | headersAlmostDone | headersDone | chunkData | chunkDataAlmostDone
  | chunkDataDone | bodyIdentity | bodyIdentityEof | messageDone
deriving DecidableEq, Repr

/-- `PARSING_HEADER`: the states up to `s_headers_done`. -/
def parsingHeader : State → Bool
  | .chunkData | .chunkDataAlmostDone | .chunkDataDone | .bodyIdentity | .bodyIdentityEof
  | .messageDone => false
  | _ => true

/-- `enum header_states`. -/
inductive HeaderState where
  | general | c | co | con | matchingConnection | matchingProxyConnection
  | matchingContentLength | matchingTransferEncoding | matchingUpgrade | connection
  | contentLength | transferEncoding | upgrade | matchingTransferEncodingChunked
  | matchingConnectionTokenStart | matchingConnectionKeepAlive | matchingConnectionClose
  | matchingConnectionUpgrade | matchingConnectionToken | transferEncodingChunked
  | connectionKeepAlive | connectionClose | connectionUpgrade
deriving DecidableEq, Repr

/-- The members of `enum http_errno` that a request can lead to; no callback fails. -/
inductive HttpErrno where
  | ok | invalidEofState | headerOverflow | closedConnection | invalidVersion | invalidMethod
  | invalidUrl | lfExpected | invalidHeaderToken | invalidContentLength
  | unexpectedContentLength | invalidChunkSize | invalidConstant | strict
deriving DecidableEq, Repr

/-- The bits of `flags`. -/
structure Flags where
  chunked : Bool
  connectionKeepAlive : Bool
  connectionClose : Bool
  connectionUpgrade : Bool
  trailing : Bool
  upgrade : Bool
  skipbody : Bool
  contentLength : Bool
deriving DecidableEq, Repr

def Flags.none : Flags := ⟨false,false,false,false,false,false,false,false⟩

/-- `http_parser`. `index` stays below the length of the words that it runs through. -/
structure Parser where
  flags : Flags
  state : State
  headerState : HeaderState
  index : ℕ
  lenientHttpHeaders : Bool
  nread : UInt32
  contentLength : UInt64
  httpMajor : ℕ
  httpMinor : ℕ
  method : HttpMethod
  httpErrno : HttpErrno
  upgrade : Bool
deriving DecidableEq, Repr

def httpParserInit : Parser where
  flags := .none
  state := .startReq
  headerState := .general
  index := 0
  lenientHttpHeaders := false
  nread := 0
  contentLength := 0
  httpMajor := 0
  httpMinor := 0
  method := .delete
  httpErrno := .ok
  upgrade := false

/-- A request is never delimited by the end of the stream. -/
def httpMessageNeedsEof (_ : Parser) : Bool := false

def httpShouldKeepAlive (parser : Parser) : Bool :=
  -- HTTP/1.1 keeps alive unless told otherwise; the test on both numbers is that of the source
  if parser.httpMajor > 0 ∧ parser.httpMinor > 0 then
    !parser.flags.connectionClose && !httpMessageNeedsEof parser
  else
    parser.flags.connectionKeepAlive && !httpMessageNeedsEof parser

/-- `NEW_MESSAGE`. -/
def newMessage (parser : Parser) : State := if httpShouldKeepAlive parser then .startReq else .dead

/-- The parser as a callback on it sees it, with the number of its method. -/
def Parser.seen (parser : Parser) : HttpServer.HttpParser :=
  ⟨UInt8.ofNat parser.method.ctorIdx, parser.contentLength⟩

/-! The classes of bytes in strict mode. -/

def lower (c : UInt8) : UInt8 := c ||| 0x20

def isAlpha (c : UInt8) : Bool := byte 'a' ≤ lower c && lower c ≤ byte 'z'

def isNum (c : UInt8) : Bool := byte '0' ≤ c && c ≤ byte '9'

def isAlphanum (c : UInt8) : Bool := isAlpha c || isNum c

/-- `IS_MARK`; 39, 40 and 41 are the quote and the parentheses. -/
def isMark (c : UInt8) : Bool := (ascii "-_.!~*").contains c || 39 ≤ c && c ≤ 41

def isUserinfoChar (c : UInt8) : Bool := isAlphanum c || isMark c || (ascii "%;:&=+$,").contains c

/-- `tokens`: what is no token character is 0, and letters become small ones. 39 is the quote
and 96 the backquote. -/
def token (c : UInt8) : UInt8 :=
  if byte 'A' ≤ c ∧ c ≤ byte 'Z' then lower c
  else if isAlphanum c || (ascii "!#$%&*+-.^_|~").contains c || c = 39 || c = 96 then c
  else 0

/-- `normal_url_char`. -/
def isUrlChar (c : UInt8) : Bool := 33 ≤ c && c ≤ 126 && c ≠ byte '#' && c ≠ byte '?'

def isHeaderChar (c : UInt8) : Bool := c = CR || c = LF || c = tab || 31 < c && c ≠ 127

/-- `unhex`. The table has 256 entries but only 128 initialisers, the others are 0. -/
def unhex (c : UInt8) : Option UInt8 :=
  if 128 ≤ c then some 0
  else if isNum c then some (c-byte '0')
  else if byte 'a' ≤ lower c ∧ lower c ≤ byte 'f' then some (lower c-byte 'a'+10)
  else none

def parseUrlChar (s : State) (ch : UInt8) : State :=
  if ch = space ∨ ch = CR ∨ ch = LF ∨ ch = tab ∨ ch = 12 then .dead
  else match s with
    | .reqSpacesBeforeUrl =>
      if ch = byte '/' ∨ ch = byte '*' then .reqPath
      else if isAlpha ch then .reqSchema
      else .dead
    | .reqSchema =>
      if isAlpha ch then .reqSchema
      else if ch = byte ':' then .reqSchemaSlash
      else .dead
    | .reqSchemaSlash => if ch = byte '/' then .reqSchemaSlashSlash else .dead
    | .reqSchemaSlashSlash => if ch = byte '/' then .reqServerStart else .dead
    | .reqServerWithAt => if ch = byte '@' then .dead else server ch
    | .reqServerStart | .reqServer => server ch
    | .reqPath =>
      if isUrlChar ch then .reqPath
      else if ch = byte '?' then .reqQueryStringStart
      else if ch = byte '#' then .reqFragmentStart
      else .dead
    | .reqQueryStringStart | .reqQueryString =>
      if isUrlChar ch ∨ ch = byte '?' then .reqQueryString
      else if ch = byte '#' then .reqFragmentStart
      else .dead
    | .reqFragmentStart =>
      if isUrlChar ch ∨ ch = byte '?' then .reqFragment
      else if ch = byte '#' then .reqFragmentStart
      else .dead
    | .reqFragment => if isUrlChar ch ∨ ch = byte '?' ∨ ch = byte '#' then .reqFragment else .dead
    | _ => .dead
where
  server (ch : UInt8) : State :=
    if ch = byte '/' then .reqPath
    else if ch = byte '?' then .reqQueryStringStart
    else if ch = byte '@' then .reqServerWithAt
    else if isUserinfoChar ch ∨ ch = byte '[' ∨ ch = byte ']' then .reqServer
    else .dead

end Cclab.HttpParser
