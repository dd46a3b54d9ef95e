import PeerNet.Model.Types

/-
  `make_chunks`: the hashes that a publisher makes of a file.

  The program reads the file in buffers of `BT_CHUNK_SIZE`
  bytes, the last one shorter, and hashes what it has read of
  each. A read that gives nothing ends its loop.

  Key definitions include:
    * `chunkReads`
    * `makeChunks`
-/

------------------------------------------------------------
-- Publishing
------------------------------------------------------------

namespace PeerNet

/- What `fread` gives, one call after the other. -/
def chunkReads :
    Nat → Bytes → List Bytes
| 0, _ => []
| fuel + 1, file =>
    match file.take btChunkSize with
    | [] => []
    | buffer =>
        buffer :: chunkReads fuel (file.drop btChunkSize)

/- `make_chunks`. -/
def makeChunks
    (env : Env)
    (file : Bytes) : List Hash :=
  (chunkReads (file.length + 1) file).map env.shahash

end PeerNet
