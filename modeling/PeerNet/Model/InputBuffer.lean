import PeerNet.Lib.Runs
import PeerNet.Model.Types

/-
  The buffer for command lines: `create_userbuf` and
  `process_user_input` of `input_buffer.c`.

  A call reads once, then hands every line it finds to
  `handle_line` and moves the bytes behind the line to the
  front. Lines are looked for with `strchr`, which stops at
  the first NUL and knows nothing of `cur`; the move does
  not clear the bytes it leaves behind.

  What `read` delivers is an argument of a call; nothing is
  the end of the input or an error. `malloc` succeeds.

  Key definitions include:
    * `UserIobuf`
    * `UserIobuf.takeLine`
    * `UserIobuf.processUserInput`
    * `InputSession.step`
-/

------------------------------------------------------------
-- The Buffer
------------------------------------------------------------

namespace PeerNet

/- `USERBUF_SIZE`. -/
abbrev userbufSize : Nat := 8191

/- `'\n'`. -/
abbrev newline : UInt8 := 10

/- The string at the front of some bytes. -/
def cString
    (buf : Bytes) : Bytes :=
  buf.takeWhile (fun c => c ≠ 0)

/- `strchr`, its result as an offset. -/
def strchr
    (c : UInt8)
    (buf : Bytes) : Option Nat :=
  (cString buf).findIdx? (fun d => d = c)

/- `struct user_iobuf`; `buf` has one byte more than it uses. -/
structure UserIobuf where
  buf : Bytes
  cur : Nat
deriving DecidableEq

namespace UserIobuf

/- `create_userbuf`. -/
def createUserbuf : UserIobuf where
  buf := List.replicate (userbufSize + 1) 0
  cur := 0

/- What `read` has stored at `buf + cur` is counted. -/
def store
    (data : Bytes)
    (b : UserIobuf) : UserIobuf where
  buf :=
    b.buf.take b.cur ++ data ++
      b.buf.drop (b.cur + data.length)
  cur := b.cur + data.length

/-
  The body of the loop, for a newline at offset `ret`: the
  line that `handle_line` gets, and the buffer behind
  `memmove` and the subtraction from the unsigned `cur`.
-/
def takeLine
    (ret : Nat)
    (b : UserIobuf) : Bytes × UserIobuf :=
  let buf := b.buf.set ret 0
  (cString buf,
    { buf :=
        (buf.drop (ret + 1)).take (userbufSize - ret) ++
          buf.drop (userbufSize - ret)
      cur := toUInt32 (b.cur - (ret + 1)) })

/-
  The loop over the lines. Every round shortens the string
  in the buffer, so `fuel` is only a bound.
-/
def lineLoop :
    Nat → UserIobuf → List Bytes × UserIobuf
| 0, b => ([], b)
| fuel + 1, b =>
    match strchr newline b.buf with
    | none => ([], b)
    | some ret =>
        let first := b.takeLine ret
        let others := lineLoop fuel first.2
        (first.1 :: others.1, others.2)

/-
  `process_user_input`: the lines that are handed on. At a
  full buffer the process exits.
-/
def processUserInput
    (data : Bytes)
    (b : UserIobuf) : Option (List Bytes × UserIobuf) :=
  if userbufSize - 1 ≤ b.cur then
    none
  else
    let b := b.store data
    some (lineLoop (b.buf.length + 1) b)

end UserIobuf

end PeerNet

------------------------------------------------------------
-- Successive Reads
------------------------------------------------------------

namespace PeerNet

/- A buffer in use, the lines so far, and has it exited? -/
structure InputSession where
  userbuf : UserIobuf
  lines : List Bytes
  exited : Bool

namespace InputSession

def start : InputSession where
  userbuf := .createUserbuf
  lines := []
  exited := false

/- One call, in which `read` delivers `data`. -/
def step
    (s : InputSession)
    (data : Bytes) : InputSession :=
  if s.exited then
    s
  else
    match s.userbuf.processUserInput data with
    | none => { s with exited := true }
    | some (lines, b) =>
        { s with userbuf := b, lines := s.lines ++ lines }

/- `read` delivers no more than it is asked for. -/
def ReadFits
    (s : InputSession)
    (data : Bytes) : Prop :=
  data.length ≤ userbufSize - s.userbuf.cur

end InputSession

end PeerNet
