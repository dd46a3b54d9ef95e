import PeerNet.Model.Publish
import PeerNet.Model.Receiver

/-
  `make-chunks`: the program that lists the chunks of a file.

  It counts the chunks by the size of the file, makes room
  for as many hashes, and has `make_chunks` write one hash
  after the other into it. Then it prints a line for each.
  Files that do not open and memory that runs out end it
  before that and are left out.

  Key definitions include:
    * `getNumchunks`
    * `makeChunksMain`
-/

------------------------------------------------------------
-- The Program
------------------------------------------------------------

namespace PeerNet

/- `get_numchunks`: the size, divided and rounded up. -/
def getNumchunks
    (file : Bytes) : Nat :=
  (file.length + (btChunkSize - 1)) / btChunkSize

/-
  `main`: what it prints. A hash behind the end of the array
  is `none`. The lines have the form that `finish_chunk`
  writes.
-/
def makeChunksMain
    (env : Env)
    (file : Bytes) : Option Bytes :=
  let hashes := makeChunks env file
  if getNumchunks file < hashes.length then
    none
  else
    some (hashes.zipIdx.flatMap fun entry =>
      hasChunkLine (entry.2 : Nat) entry.1)

end PeerNet
