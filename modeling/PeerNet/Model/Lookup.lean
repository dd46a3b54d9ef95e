import PeerNet.Model.Types

/-
  Looking a hash up in the has-chunk file and in the
  master-chunk file.

  Both functions read `<id> <hash>` items with `fscanf` into
  a 41-byte text buffer that keeps what earlier items left
  in it, and decode all 40 characters of that buffer. Their
  loops are modelled with fuel: a call of `fscanf` that
  stores two items takes bytes off the text, so a run that
  outlasts the length of the text has stopped advancing.

  Key definitions include:
    * `hasChunk`
    * `masterChunk`
    * `masterDataFile`
-/

------------------------------------------------------------
-- Hexadecimal Hashes
------------------------------------------------------------

namespace PeerNet

open Scanf

/- `_hex2binary`: the comparison is one of signed `char`s. -/
def hexValue
    (hex : UInt8) : UInt8 :=
  let c := toUpper hex
  if c ≤ 57 || 128 ≤ c then c - 48 else c - 55

/- `hex2binary(buf, 40, binary)`. -/
def hex2binary
    (buf : Bytes) : Hash :=
  Vector.ofFn fun i : Fin 20 =>
    (hexValue (buf.getD (2 * i) 0) <<< 4) |||
      hexValue (buf.getD (2 * i + 1) 0)

/- `binary2hex` of a hash. -/
def binary2hex
    (hash : Hash) : Text :=
  printHex hash.toList

/- `memcpy(hash, bytes, 20)`. -/
def hashOfBytes
    (bytes : Bytes) : Hash :=
  Vector.ofFn fun i : Fin 20 => bytes.getD i 0

/- `hash_equal`. -/
def hashEqual
    (h₁ h₂ : Hash) : Bool :=
  h₁ = h₂

end PeerNet

------------------------------------------------------------
-- The Text Buffer
------------------------------------------------------------

namespace PeerNet

open Scanf

/- `char buf[41]`, not yet written. -/
def textBuffer
    (env : Env) : Bytes :=
  env.fill 41 []

/-
  Store a word and its terminating zero; what lies behind
  stays. A word of more than 40 bytes overflows the buffer.
-/
def storeWord
    (word : Text)
    (buf : Bytes) : Except Fault Bytes :=
  if word.length ≤ 40 then
    .ok (word ++ 0 :: buf.drop (word.length + 1))
  else
    .error .textOverflow

end PeerNet

------------------------------------------------------------
-- The Has-Chunk File
------------------------------------------------------------

namespace PeerNet

open Scanf

/- The body of `has_chunk`'s loop, on the rest of the text. -/
def hasChunkLoop
    (hash : Hash) :
    Nat → Text → Int → Bytes → Except Fault Int
| 0, _, _, _ => .error .hang
| fuel + 1, input, id, buf =>
    match scanIntWord input with
    | .eof => .ok id
    | .none rest =>
        if hashEqual hash (hex2binary buf) then
          .ok id
        else
          hasChunkLoop hash fuel rest (-1) buf
    | .int newId rest =>
        if hashEqual hash (hex2binary buf) then
          .ok newId
        else
          hasChunkLoop hash fuel rest (-1) buf
    | .both newId word rest =>
        match storeWord word buf with
        | .error f => .error f
        | .ok buf =>
            if hashEqual hash (hex2binary buf) then
              .ok newId
            else
              hasChunkLoop hash fuel rest (-1) buf

/- `has_chunk`. -/
def hasChunk
    (env : Env)
    (files : Files)
    (config : BtConfig)
    (hash : Hash) : Except Fault Int :=
  match files.content config.hasChunkFile with
  | none => .ok (-1)
  | some text =>
      hasChunkLoop hash (text.length + 1) text (-1)
        (textBuffer env)

end PeerNet

------------------------------------------------------------
-- The Master-Chunk File
------------------------------------------------------------

namespace PeerNet

open Scanf

/-
  `while (fgetc(chunk_file) != '\n') { }`: without a newline
  the loop reads `EOF` for ever.
-/
def skipLine
    (input : Text) : Except Fault Text :=
  match input.dropWhile (fun c => c != 10) with
  | [] => .error .hang
  | _ :: rest => .ok rest

/- The body of `master_chunk`'s loop. -/
def masterChunkLoop
    (hash : Hash) :
    Nat → Text → Int → Bytes → Except Fault Int
| 0, _, _, _ => .error .hang
| fuel + 1, input, id, buf =>
    match scanIntWord input with
    | .eof => .ok id
    | .none rest =>
        match skipLine rest with
        | .error f => .error f
        | .ok rest => masterChunkLoop hash fuel rest id buf
    | .int newId rest =>
        if hashEqual hash (hex2binary buf) then
          .ok newId
        else
          masterChunkLoop hash fuel rest newId buf
    | .both newId word rest =>
        match storeWord word buf with
        | .error f => .error f
        | .ok buf =>
            if hashEqual hash (hex2binary buf) then
              .ok newId
            else
              masterChunkLoop hash fuel rest newId buf

/- `master_chunk`. -/
def masterChunk
    (env : Env)
    (files : Files)
    (config : BtConfig)
    (hash : Hash) : Except Fault Int :=
  match files.content config.chunkFile with
  | none => .ok (-1)
  | some text =>
      masterChunkLoop hash (text.length + 1) text (-1)
        (textBuffer env)

/-
  `master_data_file`: the word behind `File:`. Where the
  literal does not match, the call still succeeds and the
  name is what the buffer happens to hold.
-/
def masterDataFile
    (env : Env)
    (files : Files)
    (config : BtConfig) : Except Fault (Option Path) :=
  match files.content config.chunkFile with
  | none => .ok none
  | some text =>
      match scanLiteralWord [70, 105, 108, 101, 58] text with
      | .eof => .ok none
      | .mismatch _ =>
          .ok (some
            ((env.fill 255 []).takeWhile (fun c => c != 0)))
      | .value name _ =>
          if name.length < 255 then
            .ok (some name)
          else
            .error .textOverflow

/-
  What `fseek` to `id * BT_CHUNK_SIZE` and `fread` of one
  chunk give: nothing where the seek fails or nothing is
  left to read.
-/
def readChunk
    (data : Bytes)
    (id : Int) : Except Fault (Option Bytes) :=
  let offset := id * btChunkSize
  if offset < -2 ^ 31 ∨ 2 ^ 31 ≤ offset then
    .error .offsetOverflow
  else if offset < 0 then
    .ok none
  else
    match (data.drop offset.toNat).take btChunkSize with
    | [] => .ok none
    | bytes => .ok (some bytes)

end PeerNet
