import Cclab.FieldSlices
import Cclab.HttpParser

/-! `http_parser_parse_url` of `httpserver/http_parser.cc`: one pass over the URL, a second one over
the part with the host, and the number of the port. -/
namespace Cclab.HttpUrl
open FieldSlices HttpParser

/-- `enum http_parser_url_fields`; `UF_MAX` is the absence of a field. -/
inductive UrlField
  | schema | host | port | path | query | fragment | userinfo
deriving DecidableEq

/-- `field_set` and `field_data` are one table. -/
structure HttpParserUrl where
  fields : Slices UrlField
  port : UInt16

/-- `http_parser_url_init`. -/
def httpParserUrlInit : HttpParserUrl := ⟨⟨fun _ => false,fun _ => 0,fun _ => 0⟩,0⟩

/-- `enum http_host_state`. -/
inductive HostState
  | dead | userinfoStart | userinfo | hostStart | hostV6Start | host | hostV6 | hostV6End
  | hostV6ZoneStart | hostV6Zone | hostPortStart | hostPort
deriving DecidableEq

def isHex (c : UInt8) : Bool := isNum c || (byte 'a' ≤ lower c && lower c ≤ byte 'f')

/-- `IS_HOST_CHAR` in strict mode. -/
def isHostChar (c : UInt8) : Bool := isAlphanum c || c = byte '.' || c = byte '-'

/-- A byte of an address in brackets. -/
def isV6Char (c : UInt8) : Bool := isHex c || c = byte ':' || c = byte '.'

/-- A byte of a zone id. -/
def isZoneChar (c : UInt8) : Bool :=
  isAlphanum c || c = byte '%' || c = byte '.' || c = byte '-' || c = byte '_' || c = byte '~'

def httpParseHostChar (s : HostState) (ch : UInt8) : HostState :=
  match s with
  | .userinfo | .userinfoStart =>
    if ch = byte '@' then .hostStart
    else if isUserinfoChar ch then .userinfo
    else .dead
  | .hostStart =>
    if ch = byte '[' then .hostV6Start
    else if isHostChar ch then .host
    else .dead
  | .host =>
    if isHostChar ch then .host
    else if ch = byte ':' then .hostPortStart
    else .dead
  | .hostV6End => if ch = byte ':' then .hostPortStart else .dead
  | .hostV6 =>
    if ch = byte ']' then .hostV6End
    else if isV6Char ch then .hostV6
    else if ch = byte '%' then .hostV6ZoneStart
    else .dead
  | .hostV6Start => if isV6Char ch then .hostV6 else .dead
  | .hostV6Zone =>
    if ch = byte ']' then .hostV6End
    else if isZoneChar ch then .hostV6Zone
    else .dead
  | .hostV6ZoneStart => if isZoneChar ch then .hostV6Zone else .dead
  | .hostPort | .hostPortStart => if isNum ch then .hostPort else .dead
  | .dead => .dead

/-- The body of the loop of `http_parse_host`. -/
def hostStep (s : HostState) (ch : UInt8) : Option (HostState × Act UrlField) :=
  let newS := httpParseHostChar s ch
  match newS with
  | .dead => none
  | .host => some (newS, if s ≠ .host then .move .host else .extend .host)
  | .hostV6 => some (newS, if s ≠ .hostV6 then .move .host else .extend .host)
  | .hostV6ZoneStart | .hostV6Zone => some (newS,.extend .host)
  | .hostPort => some (newS, if s ≠ .hostPort then .start .port else .extend .port)
  | .userinfo => some (newS, if s ≠ .userinfo then .start .userinfo else .extend .userinfo)
  | _ => some (newS,.skip)

/-- The states in which the part with the host may end. -/
def hostEnds : HostState → Bool
  | .host | .hostV6End | .hostPort => true
  | _ => false

def httpParseHost (buf : List UInt8) (u : Slices UrlField) (foundAt : Bool) :
    Option (Slices UrlField) := do
  let s := if foundAt then .userinfoStart else .hostStart
  let (s,v) ← scan hostStep (u.off .host).toNat (textOf buf u .host) s (u.setLen .host 0)
  if hostEnds s then return v else none

/-- The variables of the loop of `http_parser_parse_url`. -/
structure UrlLoop where
  s : State
  oldUf : Option UrlField
  foundAt : Bool

/-- The body of that loop. -/
def urlStep (l : UrlLoop) (ch : UInt8) : Option (UrlLoop × Act UrlField) :=
  let s := parseUrlChar l.s ch
  match s with
  | .dead => none
  | .reqSchemaSlash | .reqSchemaSlashSlash | .reqServerStart | .reqQueryStringStart
  | .reqFragmentStart => some ({ l with s := s },.skip)
  | .reqSchema => some (enter s l.foundAt .schema)
  | .reqServerWithAt => some (enter s true .host)
  | .reqServer => some (enter s l.foundAt .host)
  | .reqPath => some (enter s l.foundAt .path)
  | .reqQueryString => some (enter s l.foundAt .query)
  | .reqFragment => some (enter s l.foundAt .fragment)
  | _ => none
where
  /-- The field goes on, or a new one begins. -/
  enter (s : State) (foundAt : Bool) (uf : UrlField) : UrlLoop × Act UrlField :=
    (⟨s,some uf,foundAt⟩, if l.oldUf = some uf then .extend uf else .start uf)

/-- A `char` as an `unsigned long`. -/
def ofChar (ch : UInt8) : UInt64 := if ch < 128 then ch.toUInt64 else ch.toUInt64-256

/-- The number of the port, if it does not become too large. -/
def portLoop : List UInt8 → UInt64 → Option UInt64
  | [], v => some v
  | ch :: rest, v =>
    let v := v*10+(ofChar ch-ofChar (byte '0'))
    if v > 0xffff then none else portLoop rest v

def httpParserParseUrl (buf : List UInt8) (isConnect : Bool) (u : HttpParserUrl) :
    Option HttpParserUrl := do
  let s := if isConnect then .reqServerStart else .reqSpacesBeforeUrl
  let (l,v) ← scan urlStep 0 buf ⟨s,none,false⟩ { u.fields with set := fun _ => false }
  -- the host must be present if there is a schema
  if v.set .schema ∧ ¬ v.set .host then none
  else
    let v ← if v.set .host then httpParseHost buf v l.foundAt else some v
    if isConnect ∧ ¬ (v.set .host ∧ v.set .port ∧
        ¬ v.set .schema ∧ ¬ v.set .path ∧ ¬ v.set .query ∧ ¬ v.set .fragment ∧ ¬ v.set .userinfo) then
      none
    else if v.set .port then
      let n ← portLoop (textOf buf v .port) 0
      return ⟨v,n.toUInt16⟩
    else return ⟨v,0⟩

end Cclab.HttpUrl
