import PeerNet.Model.Types

/-
  The SHA-1 of `sha.c` and the `shahash` of `chunk.c`.

  The machine is little-endian and `SHA1_UNROLL` is 20, its
  default: the other values only unroll the same rounds less.
  `sha1Update` is the build without `SHA1_FAST_COPY`, in which
  every byte goes through the buffer, and `sha1UpdateFast`
  the build with it, in which whole blocks are read where
  they are. Clearing the stack has no effect on the hash and
  is left out.

  A copy behind the end of the buffer or of the data, and a
  loop that does not end, are `none`.

  Main declarations:
    * `SHA1Context`
    * `sha1Guts`
    * `sha1Update` and `sha1UpdateFast`
    * `sha1Final` and `sha1FinalFast`
    * `shahash`
-/

------------------------------------------------------------
-- Macros
------------------------------------------------------------

namespace PeerNet

/- `ROTL` and `ROTR`. -/
def rotl
    (x n : UInt32) : UInt32 :=
  (x <<< n) ||| (x >>> (32 - n))

def rotr
    (x n : UInt32) : UInt32 :=
  (x >>> n) ||| (x <<< (32 - n))

/- `F_0_19`, `F_20_39`, `F_40_59` and `F_60_79`. -/
def f0_19
    (x y z : UInt32) : UInt32 :=
  z ^^^ (x &&& (y ^^^ z))

def f20_39
    (x y z : UInt32) : UInt32 :=
  x ^^^ y ^^^ z

def f40_59
    (x y z : UInt32) : UInt32 :=
  (x &&& (y ||| z)) ||| (y &&& z)

def f60_79
    (x y z : UInt32) : UInt32 :=
  x ^^^ y ^^^ z

/- `K_0_19`, `K_20_39`, `K_40_59` and `K_60_79`. -/
abbrev k0_19 : UInt32 := 0x5a827999

abbrev k20_39 : UInt32 := 0x6ed9eba1

abbrev k40_59 : UInt32 := 0x8f1bbcdc

abbrev k60_79 : UInt32 := 0xca62c1d6

/- `BYTESWAP`. -/
def byteswap
    (x : UInt32) : UInt32 :=
  (rotr x 8 &&& 0xff00ff00) ||| (rotl x 8 &&& 0x00ff00ff)

/- `_byteswap64`. -/
def byteswap64
    (x : UInt64) : UInt64 :=
  let a := (x >>> 32).toUInt32
  let b := x.toUInt32
  ((byteswap b).toUInt64 <<< 32) ||| (byteswap a).toUInt64

end PeerNet

------------------------------------------------------------
-- Memory
------------------------------------------------------------

namespace PeerNet

/- A 32-bit word in memory, least significant byte first. -/
def loadWord
    (bytes : Bytes) : UInt32 :=
  (bytes.getD 0 0).toUInt32 |||
    ((bytes.getD 1 0).toUInt32 <<< 8) |||
      ((bytes.getD 2 0).toUInt32 <<< 16) |||
        ((bytes.getD 3 0).toUInt32 <<< 24)

def wordBytes
    (x : UInt32) : Vector UInt8 4 :=
  #v[x.toUInt8, (x >>> 8).toUInt8, (x >>> 16).toUInt8,
    (x >>> 24).toUInt8]

/- A 64-bit number in memory. -/
def longBytes
    (x : UInt64) : Bytes :=
  [x.toUInt8, (x >>> 8).toUInt8, (x >>> 16).toUInt8,
    (x >>> 24).toUInt8, (x >>> 32).toUInt8,
    (x >>> 40).toUInt8, (x >>> 48).toUInt8,
    (x >>> 56).toUInt8]

/- `memcpy` of `n` bytes to `&buffer.bytes[start]`. -/
def memcpy
    (buffer : Vector UInt8 64)
    (start : Nat)
    (data : Bytes)
    (n : Nat) : Option (Vector UInt8 64) :=
  if start + n ≤ 64 ∧ n ≤ data.length then
    some (Vector.ofFn fun i =>
      if start ≤ i.val ∧ i.val < start + n then
        data.getD (i.val - start) 0
      else
        buffer[i])
  else
    none

end PeerNet

------------------------------------------------------------
-- One Block
------------------------------------------------------------

namespace PeerNet

/- `SHA1Context`; `words` and `bytes` share the buffer. -/
structure SHA1Context where
  totalLength : UInt64
  hash : Vector UInt32 5
  bufferLength : UInt32
  buffer : Vector UInt8 64
deriving DecidableEq

/- The variables `a` to `e` of `SHA1Guts`. -/
structure Registers where
  a : UInt32
  b : UInt32
  c : UInt32
  d : UInt32
  e : UInt32

/- `SHA1Init`; it leaves the buffer as it is. -/
def sha1Init
    (sc : SHA1Context) : SHA1Context :=
  { sc with
    totalLength := 0
    hash := #v[0x67452301, 0xefcdab89, 0x98badcfe, 0x10325476,
      0xc3d2e1f0]
    bufferLength := 0 }

/- The loop that fills the first words of `buf` in. -/
def copyWords :
    Nat → Bytes → List UInt32 → List UInt32
| 0, _, buf => buf
| i + 1, cbuf, buf =>
    copyWords i (cbuf.drop 4)
      (buf ++ [byteswap (loadWord cbuf)])

/- The loop behind it, with the pointers into `buf`. -/
def expandWords :
    Nat → Nat → Nat → Nat → Nat → List UInt32 → List UInt32
| 0, _, _, _, _, buf => buf
| i + 1, w3, w8, w14, w16, buf =>
    let w :=
      buf.getD w3 0 ^^^ buf.getD w8 0 ^^^ buf.getD w14 0 ^^^
        buf.getD w16 0
    expandWords i (w3 + 1) (w8 + 1) (w14 + 1) (w16 + 1)
      (buf ++ [rotl w 1])

/- `DO_ROUND`. -/
def doRound
    (f : UInt32 → UInt32 → UInt32 → UInt32)
    (k : UInt32)
    (r : Registers)
    (w : UInt32) : Registers :=
  let temp := rotl r.a 5 + f r.b r.c r.d + r.e + w + k
  { e := r.d
    d := r.c
    c := rotl r.b 30
    b := r.a
    a := temp }

/- Rounds one after another, with the pointer `W`. -/
def doRounds
    (f : UInt32 → UInt32 → UInt32 → UInt32)
    (k : UInt32) :
    Nat → Registers → List UInt32 → Registers × List UInt32
| 0, r, buf => (r, buf)
| n + 1, r, buf =>
    doRounds f k n (doRound f k r (buf.headD 0)) buf.tail

/- The five variables, as they are set from the hash. -/
def SHA1Context.registers
    (sc : SHA1Context) : Registers where
  a := sc.hash[0]
  b := sc.hash[1]
  c := sc.hash[2]
  d := sc.hash[3]
  e := sc.hash[4]

/- The five variables are added to the hash. -/
def SHA1Context.addRegisters
    (sc : SHA1Context)
    (r : Registers) : SHA1Context :=
  { sc with
    hash := #v[sc.hash[0] + r.a, sc.hash[1] + r.b,
      sc.hash[2] + r.c, sc.hash[3] + r.d, sc.hash[4] + r.e] }

/- `SHA1Guts`. -/
def sha1Guts
    (sc : SHA1Context)
    (cbuf : Bytes) : SHA1Context :=
  let buf := copyWords 16 cbuf []
  let buf := expandWords 64 13 8 2 0 buf
  let r := sc.registers
  let (r, buf) := doRounds f0_19 k0_19 20 r buf
  let (r, buf) := doRounds f20_39 k20_39 20 r buf
  let (r, buf) := doRounds f40_59 k40_59 20 r buf
  let (r, _) := doRounds f60_79 k60_79 20 r buf
  sc.addRegisters r

end PeerNet

------------------------------------------------------------
-- Updates
------------------------------------------------------------

namespace PeerNet

/-
  Copy `n` bytes behind those in the buffer. In the source
  both builds spell these lines out where they need them.
-/
def SHA1Context.append
    (sc : SHA1Context)
    (data : Bytes)
    (n : UInt32) : Option SHA1Context := do
  let buffer ←
    memcpy sc.buffer sc.bufferLength.toNat data n.toNat
  some
    { sc with
      buffer := buffer
      totalLength := sc.totalLength + n.toUInt64 * 8
      bufferLength := sc.bufferLength + n }

/- Compress the buffer when it is full. -/
def SHA1Context.flush
    (sc : SHA1Context) : SHA1Context :=
  if sc.bufferLength = 64 then
    { sha1Guts sc sc.buffer.toList with bufferLength := 0 }
  else
    sc

/- `bytesToCopy`. -/
def SHA1Context.bytesToCopy
    (sc : SHA1Context)
    (len : UInt32) : UInt32 :=
  let bufferBytesLeft := 64 - sc.bufferLength
  if bufferBytesLeft > len then len else bufferBytesLeft

/- The loop of `SHA1Update`. -/
def sha1UpdateLoop :
    Nat → SHA1Context → Bytes → UInt32 → Option SHA1Context
| 0, _, _, _ => none
| fuel + 1, sc, data, len =>
    if len = 0 then
      some sc
    else do
      let bytesToCopy := sc.bytesToCopy len
      let sc ← sc.append data bytesToCopy
      sha1UpdateLoop fuel sc.flush
        (data.drop bytesToCopy.toNat) (len - bytesToCopy)

/- `SHA1Update`, every round of it taking at least a byte. -/
def sha1Update
    (sc : SHA1Context)
    (data : Bytes)
    (len : UInt32) : Option SHA1Context :=
  sha1UpdateLoop (len.toNat + 1) sc data len

/- Whole blocks, where they are. -/
def sha1BlockLoop :
    Nat → SHA1Context → Bytes → UInt32 →
      Option (SHA1Context × Bytes × UInt32)
| 0, _, _, _ => none
| fuel + 1, sc, data, len =>
    if len > 63 then
      if data.length < 64 then
        none
      else
        sha1BlockLoop fuel
          (sha1Guts
            { sc with totalLength := sc.totalLength + 512 }
            data)
          (data.drop 64) (len - 64)
    else
      some (sc, data, len)

/- Whole blocks, and what is behind them. -/
def sha1UpdateBlocks
    (sc : SHA1Context)
    (data : Bytes)
    (len : UInt32) : Option SHA1Context := do
  let (sc, data, len) ←
    sha1BlockLoop (len.toNat + 1) sc data len
  if len ≠ 0 then
    sc.append data len
  else
    some sc

/- `SHA1Update` with `SHA1_FAST_COPY`. -/
def sha1UpdateFast
    (sc : SHA1Context)
    (data : Bytes)
    (len : UInt32) : Option SHA1Context :=
  if sc.bufferLength ≠ 0 then do
    let bytesToCopy := sc.bytesToCopy len
    let sc ← sc.append data bytesToCopy
    sha1UpdateBlocks sc.flush
      (data.drop bytesToCopy.toNat) (len - bytesToCopy)
  else
    sha1UpdateBlocks sc data len

end PeerNet

------------------------------------------------------------
-- Digests
------------------------------------------------------------

namespace PeerNet

/- `padding`. -/
def shaPadding : Bytes :=
  0x80 :: List.replicate 63 0

/- `bytesToPad`. -/
def SHA1Context.bytesToPad
    (sc : SHA1Context) : UInt32 :=
  let bytesToPad := 120 - sc.bufferLength
  if bytesToPad > 64 then bytesToPad - 64 else bytesToPad

/- A word of the hash, as it is stored byte by byte. -/
def hashBytes
    (w : UInt32) : Vector UInt8 4 :=
  #v[(w >>> 24).toUInt8, (w >>> 16).toUInt8,
    (w >>> 8).toUInt8, w.toUInt8]

/- `SHA1Final`: what it stores in `hash`. -/
def sha1Final
    (sc : SHA1Context) : Option Hash := do
  let lengthPad := byteswap64 sc.totalLength
  let sc ← sha1Update sc shaPadding sc.bytesToPad
  let sc ← sha1Update sc (longBytes lengthPad) 8
  some (sc.hash.flatMap hashBytes)

/- `SHA1Final` with `SHA1_FAST_COPY`. -/
def sha1FinalFast
    (sc : SHA1Context) : Option Hash := do
  let lengthPad := byteswap64 sc.totalLength
  let sc ← sha1UpdateFast sc shaPadding sc.bytesToPad
  let sc ← sha1UpdateFast sc (longBytes lengthPad) 8
  some (sc.hash.flatMap fun w => wordBytes (byteswap w))

/- `shahash`, on the context that the stack happens to hold. -/
def shahash
    (sha : SHA1Context)
    (str : Bytes)
    (len : Int) : Option Hash := do
  let sha ← sha1Update (sha1Init sha) str (UInt32.ofInt len)
  sha1Final sha

end PeerNet
