import Cclab.HttpParser

/-! `http_parser_execute` with the callbacks of `HttpContext`, none of which fails. A pointer
into the data is what is left of the data from there on. -/
namespace Cclab.HttpParser

/-- The calls of the callbacks that `HttpContext` sets, with the parser that they are given. -/
inductive Call where
  | messageBegin (parser : Parser)
  | url (s : Bytes)
  | headerField (s : Bytes)
  | headerValue (s : Bytes)
  | headersComplete (parser : Parser)
  | body (s : Bytes)
  | messageComplete (parser : Parser)
deriving DecidableEq, Repr

def Call.callback : Call → HttpServer.Callback
  | .messageBegin parser => .messageBegin parser.seen
  | .url s => .url s
  | .headerField s => .headerField s
  | .headerValue s => .headerValue s
  | .headersComplete parser => .headersComplete parser.seen
  | .body s => .body s
  | .messageComplete parser => .messageComplete parser.seen

/-- The parser and the marks; `state` is both `parser->state` and `p_state`, which only differ
between two callbacks. -/
structure Machine where
  parser : Parser
  headerFieldMark : Option Bytes
  headerValueMark : Option Bytes
  urlMark : Option Bytes
  bodyMark : Option Bytes
deriving DecidableEq

/-- What the switch does with the byte at `p`: it goes on behind that byte and `skip` more,
it leaves the function with `p` or `p + 1` as the end of what was parsed, or an assertion
fails. -/
inductive Outcome where
  | next (m : Machine) (skip : ℕ) (calls : List Call)
  | leave (m : Machine) (p : Bytes) (calls : List Call)
  | abort
deriving DecidableEq

def Outcome.after (calls : List Call) : Outcome → Outcome
  | .next m skip calls' => .next m skip (calls ++ calls')
  | .leave m p calls' => .leave m p (calls ++ calls')
  | .abort => .abort

/-- `SET_ERRNO` and `goto error`. -/
def Machine.fail (m : Machine) (p : Bytes) (e : HttpErrno) : Outcome :=
  .leave { m with parser := { m.parser with httpErrno := e } } p []

/-- `UPDATE_STATE`. -/
def Machine.goto (m : Machine) (s : State) : Machine := { m with parser := { m.parser with state := s } }

/-- `UPDATE_STATE` and `break`. -/
def Machine.breakTo (m : Machine) (s : State) : Outcome := .next (m.goto s) 0 []

/-- `STRICT_CHECK`, or a check with another error, and `break`. -/
def Machine.expect (m : Machine) (p : Bytes) (good : Bool) (e : HttpErrno) (s : State) : Outcome :=
  if good then m.breakTo s else m.fail p e

/-- `COUNT_HEADER_SIZE`. -/
def Machine.count (m : Machine) (v : ℕ) (p : Bytes) (k : Machine → Outcome) : Outcome :=
  -- the sum is unsigned and is compared with the limit behind every addition
  let m := { m with parser := { m.parser with nread := m.parser.nread+UInt32.ofNat v } }
  if m.parser.nread > httpMaxHeaderSize then m.fail p .headerOverflow else k m

/-- The bytes from a mark on up to `p`. -/
def slice (mark p : Bytes) : Bytes := mark.take (mark.length-p.length)

/-- `CALLBACK_DATA` hands over what is between the mark and `p`, if the mark is set. -/
def callbackData (mark : Option Bytes) (on : Bytes → Call) (p : Bytes) : List Call :=
  match mark with
  | none => []
  | some s => [on (slice s p)]

/-- `UPDATE_STATE (NEW_MESSAGE ())` and `CALLBACK_NOTIFY (message_complete)`; the callback
initialises the parser. -/
def Machine.complete (m : Machine) : Machine × List Call :=
  ({ m with parser := httpParserInit }, [.messageComplete (m.goto (newMessage m.parser)).parser])

section states
variable (m : Machine) (ch : UInt8) (rest : Bytes)

def sDead : Outcome :=
  if ch = CR ∨ ch = LF then .next m 0 [] else m.fail (ch :: rest) .closedConnection

/-- `behind` is the byte in memory behind the data. -/
def sStartReq (behind : UInt8) : Outcome :=
  if ch = CR ∨ ch = LF then .next m 0 []
  else
    let m := { m with parser := { m.parser with flags := .none, contentLength := ullongMax } }
    -- the method that is assumed here is what `on_message_begin` is told
    if isAlpha ch then
      let m := { m with parser := { m.parser with method := .delete, index := 1 } }
      match startMethod ch (rest.headD behind) with
      | none => m.fail (ch :: rest) .invalidMethod
      | some method =>
        let m := { m with parser := { m.parser with method := method, state := .reqMethod } }
        .next m 0 [.messageBegin m.parser]
    else m.fail (ch :: rest) .invalidMethod

/-- A method string ends in a 0. -/
def sReqMethod : Outcome :=
  if ch = 0 then m.fail (ch :: rest) .invalidMethod
  else
    let matched := (methodString m.parser.method).getD m.parser.index 0
    let stepped := { m with parser := { m.parser with index := m.parser.index+1 } }
    -- the word is complete, or it goes on, or another word that starts alike is meant
    if ch = space ∧ matched = 0 then stepped.breakTo .reqSpacesBeforeUrl
    else if ch = matched then .next stepped 0 []
    else if (byte 'A' ≤ ch ∧ ch ≤ byte 'Z') ∨ ch = byte '-' then
      match refineMethod m.parser.method m.parser.index ch with
      | none => m.fail (ch :: rest) .invalidMethod
      | some method =>
        .next { stepped with parser := { stepped.parser with method := method } } 0 []
    else m.fail (ch :: rest) .invalidMethod

/-- `parse_url_char` on the current state. -/
def urlChar : Outcome :=
  let m := m.goto (parseUrlChar m.parser.state ch)
  if m.parser.state = .dead then m.fail (ch :: rest) .invalidUrl else .next m 0 []

def sReqSpacesBeforeUrl : Outcome :=
  if ch = space then .next m 0 []
  else
    let m := { m with urlMark := some (m.urlMark.getD (ch :: rest)) }
    -- behind CONNECT stands a server and no path
    urlChar (if m.parser.method = .connect then m.goto .reqServerStart else m) ch rest

/-- `s_req_schema` to `s_req_server_start`. -/
def sReqSchema : Outcome :=
  if ch = space ∨ ch = CR ∨ ch = LF then m.fail (ch :: rest) .invalidUrl else urlChar m ch rest

/-- `s_req_server` to `s_req_fragment`. -/
def sReqServer : Outcome :=
  let flushed := { m with urlMark := none }
  let call := callbackData m.urlMark .url (ch :: rest)
  if ch = space then .next (flushed.goto .reqHttpStart) 0 call
  else if ch = CR ∨ ch = LF then
    -- without a version the request is one of HTTP/0.9
    let m := { flushed with parser := { m.parser with httpMajor := 0, httpMinor := 9 } }
    .next (m.goto (if ch = CR then .reqLineAlmostDone else .headerFieldStart)) 0 call
  else urlChar m ch rest

def sReqHttpStart : Outcome :=
  if ch = byte 'H' then m.breakTo .reqHttpH
  else if ch = space then .next m 0 []
  else m.fail (ch :: rest) .invalidConstant

def sReqHttpMajor : Outcome :=
  if isNum ch then
    { m with parser := { m.parser with httpMajor := (ch-byte '0').toNat } }.breakTo .reqHttpDot
  else m.fail (ch :: rest) .invalidVersion

def sReqHttpMinor : Outcome :=
  if isNum ch then
    { m with parser := { m.parser with httpMinor := (ch-byte '0').toNat } }.breakTo .reqHttpEnd
  else m.fail (ch :: rest) .invalidVersion

def sReqHttpEnd : Outcome :=
  if ch = CR then m.breakTo .reqLineAlmostDone
  else if ch = LF then m.breakTo .headerFieldStart
  else m.fail (ch :: rest) .invalidVersion

/-- `parser->upgrade` was cleared by the callback, so the function goes on. -/
def sMessageDone (skip : ℕ) (p : Bytes) : Outcome :=
  let (m,calls) := m.complete
  if m.parser.upgrade then .leave m p calls else .next m skip calls

def sHeadersDone : Outcome :=
  if ch ≠ LF then m.fail (ch :: rest) .strict
  else
    let m := { m with parser := { m.parser with nread := 0 } }
    let parser := m.parser
    let hasBody := parser.flags.chunked ∨ (parser.contentLength > 0 ∧ parser.contentLength ≠ ullongMax)
    -- the rest of the data belongs to another protocol
    if parser.upgrade ∧ (parser.method = .connect ∨ parser.flags.skipbody ∨ ¬ hasBody) then
      .leave m.complete.1 rest m.complete.2
    else if parser.flags.skipbody then .next m.complete.1 0 m.complete.2
    else if parser.flags.chunked then m.breakTo .chunkSizeStart
    -- `Content-Length: 0` has no body, and neither has a request without a length
    else if parser.contentLength = 0 then .next m.complete.1 0 m.complete.2
    else if parser.contentLength ≠ ullongMax then m.breakTo .bodyIdentity
    else if !httpMessageNeedsEof parser then .next m.complete.1 0 m.complete.2
    else m.breakTo .bodyIdentityEof

/-- The callback `headers_complete_cb` returns 0. -/
def sHeadersAlmostDone : Outcome :=
  if ch ≠ LF then m.fail (ch :: rest) .strict
  -- the end of the headers behind the last chunk
  else if m.parser.flags.trailing then sMessageDone (m.goto .messageDone) 0 rest
  else if m.parser.flags.chunked ∧ m.parser.flags.contentLength then
    m.fail (ch :: rest) .unexpectedContentLength
  else
    -- `on_headers_complete` is called before the state `s_headers_done` sees the same byte
    let m := { m with parser := { m.parser with
      state := .headersDone
      upgrade := if m.parser.flags.upgrade ∧ m.parser.flags.connectionUpgrade then true
        else m.parser.method = .connect } }
    (sHeadersDone m ch rest).after [.headersComplete m.parser]

/-- The header that may start with the small letter `c`. -/
def headerStateOf (c : UInt8) : HeaderState :=
  if c = byte 'c' then .c
  else if c = byte 'p' then .matchingProxyConnection
  else if c = byte 't' then .matchingTransferEncoding
  else if c = byte 'u' then .matchingUpgrade
  else .general

def sHeaderFieldStart : Outcome :=
  if ch = CR then m.breakTo .headersAlmostDone
  -- a bare `LF` ends the headers as well, and the next state sees it again
  else if ch = LF then sHeadersAlmostDone (m.goto .headersAlmostDone) ch rest
  else if token ch = 0 then m.fail (ch :: rest) .invalidHeaderToken
  else .next { m with
    headerFieldMark := some (m.headerFieldMark.getD (ch :: rest))
    parser := { m.parser with
      index := 0
      state := .headerField
      headerState := headerStateOf (token ch) } } 0 []

end states

/-- One more byte of a word: it fails, it is the last one or it is neither. -/
def matchWord (word : String) (index : ℕ) (c : UInt8) (bad good stay : HeaderState) : HeaderState :=
  if index > (ascii word).length ∨ c ≠ (ascii word).getD index 0 then bad
  else if index = (ascii word).length-1 then good
  else stay

/-- The inner switch of `s_header_field` on `header_state` and `index`; the others are asserted
not to occur. -/
def headerFieldByte (h : HeaderState) (index : ℕ) (ch : UInt8) : Option (HeaderState × ℕ) :=
  let c := token ch
  match h with
  | .general => some (h,index)
  | .c => some (if c = byte 'o' then .co else .general, index+1)
  | .co => some (if c = byte 'n' then .con else .general, index+1)
  | .con => some (if c = byte 'n' then .matchingConnection
      else if c = byte 't' then .matchingContentLength else .general, index+1)
  | .matchingConnection => some (matchWord "connection" (index+1) c .general .connection h, index+1)
  | .matchingProxyConnection =>
    some (matchWord "proxy-connection" (index+1) c .general .connection h, index+1)
  | .matchingContentLength =>
    some (matchWord "content-length" (index+1) c .general .contentLength h, index+1)
  | .matchingTransferEncoding =>
    some (matchWord "transfer-encoding" (index+1) c .general .transferEncoding h, index+1)
  | .matchingUpgrade => some (matchWord "upgrade" (index+1) c .general .upgrade h, index+1)
  | .connection | .contentLength | .transferEncoding | .upgrade =>
    some (if ch ≠ space then .general else h, index)
  | _ => none

/-- The loop of `s_header_field`, with the number of bytes up to the first that is no token. -/
def headerFieldLoop : HeaderState → ℕ → Bytes → Option (HeaderState × ℕ × ℕ)
  | h, index, [] => some (h,index,0)
  | h, index, ch :: p =>
    if token ch = 0 then some (h,index,0)
    else
      match headerFieldByte h index ch with
      | none => none
      | some (h,index) => (headerFieldLoop h index p).map fun r => (r.1,r.2.1,r.2.2+1)

def sHeaderField (m : Machine) (ch : UInt8) (rest : Bytes) : Outcome :=
  let start := ch :: rest
  match headerFieldLoop m.parser.headerState m.parser.index start with
  | none => .abort
  | some (h,index,n) =>
    let m := { m with parser := { m.parser with headerState := h, index := index } }
    m.count n (start.drop n) fun m =>
      -- the data may end inside the name of the header
      match start.drop n with
      | [] => .next m n []
      | ch :: p =>
        if ch = byte ':' then
          .next ({ m with headerFieldMark := none }.goto .headerValueDiscardWs) n
            (callbackData m.headerFieldMark .headerField (ch :: p))
        else m.fail (ch :: p) .invalidHeaderToken

section values
variable (m : Machine) (ch : UInt8) (rest : Bytes)

/-- `looking for 'Connection: keep-alive'` and the other tokens, by their first byte. -/
def connectionToken (c : UInt8) : Option HeaderState :=
  if c = byte 'k' then some .matchingConnectionKeepAlive
  else if c = byte 'c' then some .matchingConnectionClose
  else if c = byte 'u' then some .matchingConnectionUpgrade
  else none

def sHeaderValueStart : Outcome :=
  let m := { m with
    headerValueMark := some (m.headerValueMark.getD (ch :: rest))
    parser := { m.parser with state := .headerValue, index := 0 } }
  let parser := m.parser
  match parser.headerState with
  | .upgrade =>
    .next { m with parser := { parser with
      flags := { parser.flags with upgrade := true }, headerState := .general } } 0 []
  | .transferEncoding =>
    .next { m with parser := { parser with
      headerState := if lower ch = byte 'c' then .matchingTransferEncodingChunked
        else .general } } 0 []
  | .contentLength =>
    -- a second length is an error even if it is the same
    if isNum ch then
      if parser.flags.contentLength then m.fail (ch :: rest) .unexpectedContentLength
      else
        .next { m with parser := { parser with
          flags := { parser.flags with contentLength := true }
          contentLength := (ch-byte '0').toUInt64 } } 0 []
    else m.fail (ch :: rest) .invalidContentLength
  | .connection =>
    .next { m with parser := { parser with
      headerState := (connectionToken (lower ch)).getD .matchingConnectionToken } } 0 []
  -- a folded value goes on with its next token
  | .matchingConnectionTokenStart => .next m 0 []
  | _ => .next { m with parser := { parser with headerState := .general } } 0 []

def sHeaderValueDiscardWs : Outcome :=
  if ch = space ∨ ch = tab then .next m 0 []
  else if ch = CR then m.breakTo .headerValueDiscardWsAlmostDone
  else if ch = LF then m.breakTo .headerValueDiscardLws
  else sHeaderValueStart m ch rest

/-- The flag that a finished value sets. -/
def finishValue (h : HeaderState) (flags : Flags) : Flags :=
  match h with
  | .connectionKeepAlive => { flags with connectionKeepAlive := true }
  | .connectionClose => { flags with connectionClose := true }
  | .transferEncodingChunked => { flags with chunked := true }
  | .connectionUpgrade => { flags with connectionUpgrade := true }
  | _ => flags

def sHeaderValueLws : Outcome :=
  -- the value goes on in this line
  if ch = space ∨ ch = tab then sHeaderValueStart (m.goto .headerValueStart) ch rest
  else
    sHeaderFieldStart { m with parser := { m.parser with
      flags := finishValue m.parser.headerState m.parser.flags
      state := .headerFieldStart } } ch rest

/-- The value was empty, and its callback is given no bytes. -/
def sHeaderValueDiscardLws : Outcome :=
  if ch = space ∨ ch = tab then m.breakTo .headerValueDiscardWs
  else
    let m := { m with
      headerValueMark := some (m.headerValueMark.getD (ch :: rest))
      parser := { m.parser with
        flags := finishValue m.parser.headerState m.parser.flags
        state := .headerFieldStart } }
    (sHeaderFieldStart { m with headerValueMark := none } ch rest).after
      (callbackData m.headerValueMark .headerValue (ch :: rest))

def sHeaderAlmostDone : Outcome := m.expect (ch :: rest) (ch = LF) .lfExpected .headerValueLws

end values

/-- `t` of the loops that read a number, unless the number is already too large. -/
def pushDigit (base content digit : UInt64) : Option UInt64 :=
  if (ullongMax-base)/base < content then none else some (content*base+digit)

/-- The inner switch of `s_header_value` on `h_state` and the parser. -/
def headerValueByte (h : HeaderState) (parser : Parser) (ch : UInt8) :
    Option (Except HttpErrno (HeaderState × Parser)) :=
  let c := lower ch
  let index := parser.index+1
  match h with
  -- not reached: the start of the value has replaced these two
  | .connection | .transferEncoding => none
  | .contentLength =>
    if ch = space then some (.ok (h,parser))
    else if isNum ch then
      match pushDigit 10 parser.contentLength (ch-byte '0').toUInt64 with
      | none => some (.error .invalidContentLength)
      | some t => some (.ok (h,{ parser with contentLength := t }))
    else some (.error .invalidContentLength)
  | .matchingTransferEncodingChunked =>
    some (.ok (matchWord "chunked" index c .general .transferEncodingChunked h,
      { parser with index := index }))
  -- the next token, possibly behind blanks
  | .matchingConnectionTokenStart =>
    some (.ok ((connectionToken c).getD
      (if token c ≠ 0 then .matchingConnectionToken
        else if c = space ∨ c = tab then h
        else .general), parser))
  | .matchingConnectionKeepAlive =>
    some (.ok (matchWord "keep-alive" index c .matchingConnectionToken .connectionKeepAlive h,
      { parser with index := index }))
  | .matchingConnectionClose =>
    some (.ok (matchWord "close" index c .matchingConnectionToken .connectionClose h,
      { parser with index := index }))
  | .matchingConnectionUpgrade =>
    some (.ok (matchWord "upgrade" index c .matchingConnectionToken .connectionUpgrade h,
      { parser with index := index }))
  | .matchingConnectionToken =>
    some (.ok (if ch = byte ',' then (.matchingConnectionTokenStart,{ parser with index := 0 })
      else (h,parser)))
  | .transferEncodingChunked => some (.ok (if ch ≠ space then .general else h,parser))
  | .connectionKeepAlive | .connectionClose | .connectionUpgrade =>
    some (.ok (
      if ch = byte ',' then
        (.matchingConnectionTokenStart,
          { parser with flags := finishValue h parser.flags, index := 0 })
      else (if ch ≠ space then .matchingConnectionToken else h,parser)))
  -- the default of the inner switch gives the header up
  | _ => some (.ok (.general,{ parser with state := .headerValue }))

/-- Where the loop of `s_header_value` ends, behind so many bytes. -/
inductive ValueEnd where
  | line (h : HeaderState) (parser : Parser) (n : ℕ)
  | data (h : HeaderState) (parser : Parser) (n : ℕ)
  | error (parser : Parser) (n : ℕ)
  | abort

def ValueEnd.succ : ValueEnd → ValueEnd
  | .line h parser n => .line h parser (n+1)
  | .data h parser n => .data h parser (n+1)
  | .error parser n => .error parser (n+1)
  | .abort => .abort

/-- `h_general` searches the next `CR` or `LF`, and takes all the data if none is near. -/
def generalLength (p : Bytes) : ℕ :=
  ((p.take httpMaxHeaderSize.toNat).findIdx? fun c => c = CR ∨ c = LF).getD p.length

def headerValueLoop : HeaderState → Parser → Bytes → ValueEnd
  | h, parser, [] => .data h parser 0
  | h, parser, ch :: p =>
    if ch = CR ∨ ch = LF then .line h parser 0
    else if !parser.lenientHttpHeaders && !isHeaderChar ch then
      .error { parser with httpErrno := .invalidHeaderToken } 0
    else if h = .general then
      -- nothing is looked for in this value, so the loop jumps to its end
      let n := generalLength (ch :: p)
      if n < (ch :: p).length then .line h parser n else .data h parser n
    else
      match headerValueByte h parser ch with
      | none => .abort
      | some (.error e) => .error { parser with headerState := h, httpErrno := e } 0
      | some (.ok (h,parser)) => (headerValueLoop h parser p).succ

/-- At a `CR` the callback comes before the count, at a `LF` behind it. -/
def sHeaderValue (m : Machine) (ch : UInt8) (rest : Bytes) : Outcome :=
  let start := ch :: rest
  match headerValueLoop m.parser.headerState m.parser start with
  | .abort => .abort
  | .error parser n => .leave { m with parser := parser } (start.drop n) []
  | .data h parser n =>
    { m with parser := { parser with headerState := h } }.count n [] fun m => .next m n []
  | .line h parser n =>
    let p := start.drop n
    let call := callbackData m.headerValueMark .headerValue p
    let m := { m with parser := { parser with state := .headerAlmostDone } }
    if p.head? = some CR then
      ({ m with headerValueMark := none, parser := { m.parser with headerState := h } }.count n p
        fun m => .next m n []).after call
    else
      m.count n p fun m =>
        let m := { m with headerValueMark := none, parser := { m.parser with headerState := h } }
        .next (m.goto .headerValueLws) n call

section bodies
variable (m : Machine) (ch : UInt8) (rest : Bytes)

/-- What `s_body_identity` and `s_chunk_data` take of the data, with the pointer behind it. -/
def takeBody : Machine × ℕ × Bytes :=
  let start := ch :: rest
  let toRead := min m.parser.contentLength (UInt64.ofNat start.length)
  ({ m with
      bodyMark := some (m.bodyMark.getD start)
      parser := { m.parser with contentLength := m.parser.contentLength-toRead } },
    toRead.toNat-1, start.drop toRead.toNat)

def sBodyIdentity : Outcome :=
  if m.parser.contentLength = 0 ∨ m.parser.contentLength = ullongMax then .abort
  else
    let (m,skip,p) := takeBody m ch rest
    -- the message is complete with the last byte of the body
    if m.parser.contentLength = 0 then
      (sMessageDone ({ m with bodyMark := none }.goto .messageDone) skip p).after
        (callbackData m.bodyMark .body p)
    else .next m skip []

def sBodyIdentityEof : Outcome :=
  .next { m with bodyMark := some (m.bodyMark.getD (ch :: rest)) } rest.length []

def sChunkSizeStart : Outcome :=
  if m.parser.nread ≠ 1 ∨ !m.parser.flags.chunked then .abort
  else
    match unhex ch with
    | none => m.fail (ch :: rest) .invalidChunkSize
    | some v =>
      .next { m with parser := { m.parser with
        contentLength := v.toUInt64, state := .chunkSize } } 0 []

def sChunkSize : Outcome :=
  if !m.parser.flags.chunked then .abort
  else if ch = CR then m.breakTo .chunkSizeAlmostDone
  else
    match unhex ch with
    | none =>
      if ch = byte ';' ∨ ch = space then m.breakTo .chunkParameters
      else m.fail (ch :: rest) .invalidChunkSize
    | some v =>
      match pushDigit 16 m.parser.contentLength v.toUInt64 with
      | none => m.fail (ch :: rest) .invalidContentLength
      | some t => .next { m with parser := { m.parser with contentLength := t } } 0 []

def sChunkParameters : Outcome :=
  if !m.parser.flags.chunked then .abort
  else if ch = CR then m.breakTo .chunkSizeAlmostDone
  else .next m 0 []

def sChunkSizeAlmostDone : Outcome :=
  if !m.parser.flags.chunked then .abort
  else if ch ≠ LF then m.fail (ch :: rest) .strict
  else
    let m := { m with parser := { m.parser with nread := 0 } }
    -- an empty chunk is the last one, and headers may follow
    if m.parser.contentLength = 0 then
      .next { m with parser := { m.parser with
        flags := { m.parser.flags with trailing := true }, state := .headerFieldStart } } 0 []
    else m.breakTo .chunkData

def sChunkData : Outcome :=
  if !m.parser.flags.chunked ∨ m.parser.contentLength = 0 ∨ m.parser.contentLength = ullongMax then
    .abort
  else
    let (m,skip,_) := takeBody m ch rest
    .next (if m.parser.contentLength = 0 then m.goto .chunkDataAlmostDone else m) skip []

def sChunkDataAlmostDone : Outcome :=
  if !m.parser.flags.chunked ∨ m.parser.contentLength ≠ 0 then .abort
  else if ch ≠ CR then m.fail (ch :: rest) .strict
  else
    -- the mark was set by `s_chunk_data`, in this call or not at all
    .next ({ m with bodyMark := none }.goto .chunkDataDone) 0
      (callbackData m.bodyMark .body (ch :: rest))

def sChunkDataDone : Outcome :=
  if !m.parser.flags.chunked then .abort
  else if ch ≠ LF then m.fail (ch :: rest) .strict
  else { m with parser := { m.parser with nread := 0 } }.breakTo .chunkSizeStart

end bodies

/-- The switch on the current state. -/
def switch (behind : UInt8) (m : Machine) (ch : UInt8) (rest : Bytes) : Outcome :=
  let p := ch :: rest
  match m.parser.state with
  | .dead => sDead m ch rest
  | .startReq => sStartReq m ch rest behind
  | .reqMethod => sReqMethod m ch rest
  | .reqSpacesBeforeUrl => sReqSpacesBeforeUrl m ch rest
  | .reqSchema | .reqSchemaSlash | .reqSchemaSlashSlash | .reqServerStart => sReqSchema m ch rest
  | .reqServer | .reqServerWithAt | .reqPath | .reqQueryStringStart | .reqQueryString
  | .reqFragmentStart | .reqFragment => sReqServer m ch rest
  | .reqHttpStart => sReqHttpStart m ch rest
  | .reqHttpH => m.expect p (ch = byte 'T') .strict .reqHttpHT
  | .reqHttpHT => m.expect p (ch = byte 'T') .strict .reqHttpHTT
  | .reqHttpHTT => m.expect p (ch = byte 'P') .strict .reqHttpHTTP
  | .reqHttpHTTP => m.expect p (ch = byte '/') .strict .reqHttpMajor
  | .reqHttpMajor => sReqHttpMajor m ch rest
  | .reqHttpDot => m.expect p (ch = byte '.') .invalidVersion .reqHttpMinor
  | .reqHttpMinor => sReqHttpMinor m ch rest
  | .reqHttpEnd => sReqHttpEnd m ch rest
  | .reqLineAlmostDone => m.expect p (ch = LF) .lfExpected .headerFieldStart
  | .headerFieldStart => sHeaderFieldStart m ch rest
  | .headerField => sHeaderField m ch rest
  | .headerValueDiscardWs => sHeaderValueDiscardWs m ch rest
  | .headerValueStart => sHeaderValueStart m ch rest
  | .headerValue => sHeaderValue m ch rest
  | .headerAlmostDone => sHeaderAlmostDone m ch rest
  | .headerValueLws => sHeaderValueLws m ch rest
  | .headerValueDiscardWsAlmostDone => m.expect p (ch = LF) .strict .headerValueDiscardLws
  | .headerValueDiscardLws => sHeaderValueDiscardLws m ch rest
  | .headersAlmostDone => sHeadersAlmostDone m ch rest
  | .headersDone => sHeadersDone m ch rest
  | .bodyIdentity => sBodyIdentity m ch rest
  | .bodyIdentityEof => sBodyIdentityEof m ch rest
  | .messageDone => sMessageDone m 0 rest
  | .chunkSizeStart => sChunkSizeStart m ch rest
  | .chunkSize => sChunkSize m ch rest
  | .chunkParameters => sChunkParameters m ch
  | .chunkSizeAlmostDone => sChunkSizeAlmostDone m ch rest
  | .chunkData => sChunkData m ch rest
  | .chunkDataAlmostDone => sChunkDataAlmostDone m ch rest
  | .chunkDataDone => sChunkDataDone m ch rest

/-- The body of the loop over the data. -/
def iteration (behind : UInt8) (m : Machine) (ch : UInt8) (rest : Bytes) : Outcome :=
  if parsingHeader m.parser.state then
    m.count 1 (ch :: rest) fun m => switch behind m ch rest
  else switch behind m ch rest

/-- The callbacks for the marks that are left over; at most one is set. -/
def Machine.flush (m : Machine) : Option (List Call) :=
  let calls := callbackData m.headerFieldMark .headerField [] ++
    callbackData m.headerValueMark .headerValue [] ++
    callbackData m.urlMark .url [] ++ callbackData m.bodyMark .body []
  if calls.length ≤ 1 then some calls else none

/-- The calls that are made with `unread` still to be parsed. -/
def withUnread (unread : Bytes) (calls : List Call) : List (Call × Bytes) :=
  calls.map fun c => (c,unread)

/-- The loop, with the calls it makes and what it leaves of the data. Beside each call stands
what the loop still parses behind it. Every iteration uses up a byte, so the length of the data
is enough fuel. -/
def loop (behind : UInt8) : ℕ → Machine → Bytes → Option (Parser × List (Call × Bytes) × Bytes)
  | fuel+1, m, ch :: rest =>
    match iteration behind m ch rest with
    | .next m skip calls =>
      (loop behind fuel m (rest.drop skip)).map fun r =>
        (r.1, withUnread (rest.drop skip) calls ++ r.2.1, r.2.2)
    | .leave m p calls => some (m.parser, withUnread [] calls, p)
    | .abort => none
  | _, m, p => m.flush.map fun calls => (m.parser, withUnread [] calls, p)

/-- The states in which `url_mark` is set. -/
def urlState : State → Bool
  | .reqPath | .reqSchema | .reqSchemaSlash | .reqSchemaSlashSlash | .reqServerStart | .reqServer
  | .reqServerWithAt | .reqQueryStringStart | .reqQueryString | .reqFragmentStart
  | .reqFragment => true
  | _ => false

/-- The marks of a call that goes on with a string of the last one. -/
def startMachine (parser : Parser) (data : Bytes) : Machine where
  parser := parser
  headerFieldMark := if parser.state = .headerField then some data else none
  headerValueMark := if parser.state = .headerValue then some data else none
  urlMark := if urlState parser.state then some data else none
  bodyMark := none

/-- `http_parser_execute` on the data and the byte behind it, with the number of parsed bytes;
`none` where an assertion fails. -/
def httpParserExecute (behind : UInt8) (parser : Parser) (data : Bytes) :
    Option (Parser × List (Call × Bytes) × ℕ) :=
  if parser.httpErrno ≠ .ok then some (parser,[],0)
  else if data = [] then
    -- no data mean that the input has ended
    match parser.state with
    | .bodyIdentityEof => some (httpParserInit,[(.messageComplete parser,[])],0)
    | .dead | .startReq => some (parser,[],0)
    | _ => some ({ parser with httpErrno := .invalidEofState },[],1)
  else
    (loop behind data.length (startMachine parser data) data).map fun r =>
      (r.1, r.2.1, data.length-r.2.2.length)

/-- What is given to the calls of `http_parser_execute`: the data and the byte that stands in
memory behind it. -/
abbrev Input := List (Bytes × UInt8)

/-- The calls of the callbacks in a sequence of calls of the parser, each with the input that
the parser has not read yet. -/
def reports (parser : Parser) : Input → Option (Parser × List (Call × Input))
  | [] => some (parser,[])
  | (data,behind) :: later =>
    (httpParserExecute behind parser data).bind fun r =>
      (reports r.1 later).map fun q =>
        (q.1, r.2.1.map (fun c => (c.1,(c.2,behind) :: later)) ++ q.2)

end Cclab.HttpParser
