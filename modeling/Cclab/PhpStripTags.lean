import Cclab.ByteMemory
import Mathlib.Data.Int.Notation
import Mathlib.Data.UInt

/-! `php_strip_tags_ex` of `php_strip_tags/php_strip_tags.c`. A run keeps a log of the bytes that
it touches, each with the number of the iteration, so that the log can say where a pointer
leaves its memory. -/
namespace Cclab.PhpStripTags
open ByteMemory

abbrev Bytes := List UInt8

def byte (x : Char) : UInt8 := x.toUInt8

def doubleQuote : UInt8 := 34
def singleQuote : UInt8 := 39
def backslash : UInt8 := 92

def isspace (c : UInt8) : Bool := (9 ≤ c && c ≤ 13) || c == 32

def tolower (c : UInt8) : UInt8 := if 65 ≤ c ∧ c ≤ 90 then c+32 else c

def phpTagBufSize : ℕ := 1023

def phpStrtolower (s : Bytes) (len : ℕ) : Bytes := (s.take len).map tolower ++ s.drop len

/-- The loop of `php_tag_find` from `t` on: what it writes to `norm` and the number of bytes it
reads, or `none` if it runs past these bytes. -/
def normalize : Bool → Bytes → Option (Bytes × ℕ)
  | _, [] => none
  | state, x :: t =>
    let c := tolower x
    if c = byte '<' then (normalize state t).map fun r => (c :: r.1,r.2+1)
    -- `done` ends the loop behind the read of the next byte
    else if c = byte '>' then some ([],2)
    else if isspace c = false then
      (normalize true t).map fun r => (if c = byte '/' then r.1 else c :: r.1,r.2+1)
    else if state then some ([],2)
    else (normalize state t).map fun r => (r.1,r.2+1)

/-- `php_tag_find` on a tag with its terminating 0; `set` is a C string. -/
def phpTagFind (tag set : Bytes) : Option Bool :=
  if tag = [] then some false
  else (normalize false (tag ++ [0])).map fun r =>
    decide ((r.1 ++ [byte '>']).takeWhile (· ≠ 0) <:+: set)

/-- What the code touches: the copy of the input (an index from `buf`), the result, the tag buffer
with the size it has at that time; and the tags given to `php_tag_find`. -/
inductive Access where
  | copy (index : ℤ)
  | result (index : ℕ)
  | tag (index allocated : ℕ)
  | find (tag : Bytes)
deriving DecidableEq

/-- `rbuf` and `tbuf` with the positions of `rp` and `tp` in them, and the log. -/
structure Buffers where
  rbuf : Mem
  rp : ℕ
  tbuf : Mem
  tp : ℕ
  allocated : ℕ
  log : List (ℕ × Access)

section buffers
variable (b : Buffers) (i : ℕ)

def Buffers.look (reads : List ℤ) : Buffers :=
  { b with log := b.log ++ reads.map fun d => (i,.copy (i+d)) }

/-- `*(rp++) = c;` -/
def Buffers.emit (c : UInt8) : Buffers :=
  { b with rbuf := store b.rbuf b.rp [c], rp := b.rp+1, log := b.log ++ [(i,.result b.rp)] }

/-- `if (tp - tbuf >= PHP_TAG_BUF_SIZE) { .. erealloc .. }` -/
def Buffers.grow : Buffers :=
  if phpTagBufSize ≤ b.tp then { b with allocated := b.tp+phpTagBufSize+1 } else b

/-- `*tp = c;` -/
def Buffers.writeTag (c : UInt8) : Buffers :=
  { b with tbuf := store b.tbuf b.tp [c], log := b.log ++ [(i,.tag b.tp b.allocated)] }

/-- A byte for the tag buffer, which is enlarged where it is full. -/
def Buffers.push (c : UInt8) : Buffers :=
  let b := b.grow.writeTag i c
  { b with tp := b.tp+1 }

/-- `memcpy(rp, tbuf, tp-tbuf); rp += tp-tbuf;` -/
def Buffers.copyTag : Buffers :=
  { b with
    rbuf := store b.rbuf b.rp (load b.tbuf 0 b.tp)
    rp := b.rp+b.tp
    log := b.log ++ (List.range b.tp).map fun k => (i,.result (b.rp+k)) }

/-- The end of a tag, with the call of `php_tag_find`. -/
def Buffers.finishTag (set : Bytes) : Buffers :=
  let b := (b.push i (byte '>')).writeTag i 0
  let tag := load b.tbuf 0 b.tp
  let b := { b with log := b.log ++ [(i,Access.find tag)] }
  let b := if phpTagFind tag set = some true then b.copyTag i else b
  { b with tp := 0 }

end buffers

/-- The variables of the loop; `p` is `buf + i`. -/
structure Regs where
  i : ℕ
  c : UInt8
  lc : UInt8
  state : ℤ
  depth : ℤ
  br : ℤ
  inQ : UInt8
  bufs : Buffers

/-- What the loop only reads: `allow` after `php_strtolower`, and the memory around the copy of the
input, indexed from it. -/
structure Env where
  allow : Option Bytes
  allowTagSpaces : Bool
  buf : ℤ → UInt8

/-- A condition that reads through `p`: the offsets that it reads, and its value. -/
structure Look where
  reads : List ℤ
  holds : Bool

def test (b : Bool) : Look := ⟨[],b⟩

/-- `a && b && ..`, which reads no further than the first that fails. -/
def all : List Look → Look
  | [] => ⟨[],true⟩
  | a :: rest => ⟨a.reads ++ if a.holds then (all rest).reads else [],a.holds && (all rest).holds⟩

/-- `a || b` -/
def either (a b : Look) : Look := ⟨a.reads ++ if a.holds then [] else b.reads,a.holds || b.holds⟩

section body
variable (env : Env) (r : Regs)

/-- A condition on the byte at `p + d`. -/
def Regs.at (d : ℤ) (ok : UInt8 → Bool) : Look := ⟨[d],ok (env.buf (r.i+d))⟩

def Regs.emit (c : UInt8) : Regs := { r with bufs := r.bufs.emit r.i c }

def Regs.push (c : UInt8) : Regs := { r with bufs := r.bufs.push r.i c }

/-- `if (k) yes else no` -/
def Regs.when (k : Look) (yes no : Regs → Regs) : Regs :=
  let r := { r with bufs := r.bufs.look r.i k.reads }
  if k.holds then yes r else no r

/-- `in_q = state = 0; tp = tbuf;` -/
def Regs.leave : Regs := { r with inQ := 0, state := 0, bufs := { r.bufs with tp := 0 } }

/-- The code behind `reg_char`. -/
def regChar : Regs :=
  if r.state = 0 then r.emit r.c
  else if env.allow.isSome ∧ r.state = 1 then r.push r.c
  else r

def caseLess : Regs :=
  if r.inQ ≠ 0 then r
  else
    r.when (all [r.at env 1 isspace, test (!env.allowTagSpaces)]) (regChar env) fun r =>
      if r.state = 0 then
        let r := { r with lc := byte '<', state := 1 }
        if env.allow.isSome then r.push (byte '<') else r
      else if r.state = 1 then { r with depth := r.depth+1 }
      else r

/-- The two parentheses. -/
def paren (c : UInt8) (step : ℤ) : Regs :=
  if r.state = 2 then
    if r.lc ≠ doubleQuote ∧ r.lc ≠ singleQuote then { r with lc := c, br := r.br+step } else r
  else if env.allow.isSome ∧ r.state = 1 then r.push r.c
  else if r.state = 0 then r.emit r.c
  else r

def caseOpenParen : Regs := paren env r (byte '(') 1

def caseCloseParen : Regs := paren env r (byte ')') (-1)

/-- The inner `switch (state)` of the case `'>'`. -/
def closeState : Regs :=
  if r.state = 1 then
    let r := { r with lc := byte '>', inQ := 0, state := 0 }
    match env.allow with
    | none => r
    | some set => { r with bufs := r.bufs.finishTag r.i set }
  else if r.state = 2 then
    r.when (all [test (r.br = 0), test (r.lc ≠ doubleQuote), r.at env (-1) (· = byte '?')])
      Regs.leave id
  else if r.state = 3 then r.leave
  else if r.state = 4 then
    r.when (all [test (2 ≤ r.i), r.at env (-1) (· = byte '-'), r.at env (-2) (· = byte '-')])
      Regs.leave id
  else r.emit r.c

def caseGreater : Regs :=
  if r.depth ≠ 0 then { r with depth := r.depth-1 }
  else if r.inQ ≠ 0 then r
  else closeState env r

/-- What a quotation mark does to `lc`, or the byte itself. -/
def quoteMark : Regs :=
  r.when (all [test (r.state = 2), r.at env (-1) (· ≠ backslash)])
    (fun r =>
      if r.lc = r.c then { r with lc := 0 }
      else if r.lc ≠ backslash then { r with lc := r.c }
      else r)
    (regChar env)

/-- The second `if` of the case of a quotation mark. -/
def quoteToggle : Regs :=
  r.when
    (all [test (r.state ≠ 0), test (r.i ≠ 0),
      either (test (r.state = 1)) (r.at env (-1) (· ≠ backslash)),
      either (test (r.inQ = 0)) (r.at env 0 (· = r.inQ))])
    (fun r =>
      if r.inQ ≠ 0 then { r with inQ := 0 }
      else { r with inQ := env.buf r.i, bufs := r.bufs.look r.i [0] })
    id

def caseQuote : Regs :=
  if r.state = 4 then r else quoteToggle env (quoteMark env r)

def caseBang : Regs :=
  r.when (all [test (r.state = 1), r.at env (-1) (· = byte '<')])
    (fun r => { r with state := 3, lc := r.c }) (regChar env)

def caseMinus : Regs :=
  r.when
    (all [test (r.state = 3), test (2 ≤ r.i), r.at env (-1) (· = byte '-'),
      r.at env (-2) (· = byte '!')])
    (fun r => { r with state := 4 }) (regChar env)

/-- `case 'l'` and what is behind it. -/
def caseL : Regs :=
  r.when
    (all [test (r.state = 2), test (2 < r.i), r.at env (-2) (tolower · = byte 'x'),
      r.at env (-1) (tolower · = byte 'm')])
    (fun r => { r with state := 1 }) (regChar env)

/-- `case 'E'` and what is behind it. -/
def caseE : Regs :=
  r.when
    (all [test (r.state = 3), test (6 < r.i), r.at env (-1) (tolower · = byte 'p'),
      r.at env (-2) (tolower · = byte 'y'), r.at env (-3) (tolower · = byte 't'),
      r.at env (-4) (tolower · = byte 'c'), r.at env (-5) (tolower · = byte 'o'),
      r.at env (-6) (tolower · = byte 'd')])
    (fun r => { r with state := 1 }) (caseL env)

/-- `case '?'`, which falls through to `case 'E'`. -/
def caseQuestion : Regs :=
  r.when (all [test (r.state = 1), r.at env (-1) (· = byte '<')])
    (fun r => { r with br := 0, state := 2 }) (caseE env)

/-- The `switch (c)`. -/
def switch : Regs :=
  if r.c = 0 then r
  else if r.c = byte '<' then caseLess env r
  else if r.c = byte '(' then caseOpenParen env r
  else if r.c = byte ')' then caseCloseParen env r
  else if r.c = byte '>' then caseGreater env r
  else if r.c = doubleQuote ∨ r.c = singleQuote then caseQuote env r
  else if r.c = byte '!' then caseBang env r
  else if r.c = byte '-' then caseMinus env r
  else if r.c = byte '?' then caseQuestion env r
  else if r.c = byte 'E' ∨ r.c = byte 'e' then caseE env r
  else if r.c = byte 'l' ∨ r.c = byte 'L' then caseL env r
  else regChar env r

/-- `c = *(++p); i++;` -/
def advance : Regs :=
  { r with i := r.i+1, c := env.buf (r.i+1), bufs := r.bufs.look r.i [1] }

end body

/-- `while (i < len)`, for `n` further iterations. -/
def loop (env : Env) : ℕ → Regs → Regs
  | 0, r => r
  | n+1, r => loop env n (advance env (switch env r))

/-- `estrndup`: the bytes before the first 0, and a 0. -/
def estrndup (s : Bytes) : Bytes := s.takeWhile (· ≠ 0) ++ [0]

/-- The memory around a block of the heap, indexed from the block. -/
def around (heap : ℤ → UInt8) (block : Bytes) (a : ℤ) : UInt8 :=
  if 0 ≤ a then (block[a.toNat]?).getD (heap a) else heap a

/-- The variables before the loop. -/
def start (env : Env) (rbuf : Mem) (stateptr : Option ℤ) : Regs :=
  { i := 0
    c := env.buf 0
    lc := 0
    state := stateptr.getD 0
    depth := 0
    br := 0
    inQ := 0
    bufs := ⟨rbuf, 0, fun _ => 0, 0, if env.allow.isSome then phpTagBufSize+1 else 0, [(0,.copy 0)]⟩ }

/-- `if (rp < rbuf + len) *rp = 0;` -/
def terminate (len : ℕ) (r : Regs) : Regs :=
  if r.bufs.rp < len then
    { r with bufs := { r.bufs with
      rbuf := store r.bufs.rbuf r.bufs.rp [0]
      log := r.bufs.log ++ [(r.i,.result r.bufs.rp)] } }
  else r

/-- The arguments of the call besides `rbuf` and `len`, and what lies around the copy on the
heap. -/
structure Args where
  stateptr : Option ℤ
  allow : Option Bytes
  allowLen : ℕ
  allowTagSpaces : Bool
  heap : ℤ → UInt8

def Args.env (a : Args) (rbuf : Mem) (len : ℕ) : Env :=
  ⟨a.allow.map fun s => phpStrtolower s a.allowLen, a.allowTagSpaces,
    around a.heap (estrndup (load rbuf 0 len))⟩

/-- `php_strip_tags_ex`: the variables at its end. It returns `rp - rbuf`. -/
def phpStripTagsEx (a : Args) (rbuf : Mem) (len : ℕ) : Regs :=
  terminate len (loop (a.env rbuf len) len (start (a.env rbuf len) rbuf a.stateptr))

/-- The result in `rbuf`. -/
def Regs.output (r : Regs) : Bytes := load r.bufs.rbuf 0 r.bufs.rp

end Cclab.PhpStripTags
