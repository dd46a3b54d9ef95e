import PeerNet.Model.Types

/-
  The packet list of a chunk: `add_packet_list`,
  `del_packet_list` and `write_to_buffer`.

  The search loop of `add_packet_list` either finds the node
  of the new packet, received already or still empty, or
  ends at the last node. Nodes up to the new number are then
  appended, the last of them filled.

  Key definitions include:
    * `addPacketList`
    * `delPacketList`
    * `packetBytes`
-/

------------------------------------------------------------
-- Adding a Packet
------------------------------------------------------------

namespace PeerNet

/- The end of the search loop. -/
inductive Search where
  | duplicate
  | filled (nodes : List BtPacket)
  | absent (lastSeq : Int)
deriving DecidableEq

/- `while (cur != NULL)`: look for the node numbered `seqNum`. -/
def searchPackets
    (seqNum : Int)
    (data : Bytes) :
    Int → List BtPacket → Search
| lastSeq, [] => .absent lastSeq
| _, cur :: rest =>
    if cur.seqNum = seqNum then
      if cur.recv then
        .duplicate
      else
        .filled ({ cur with data := some data } :: rest)
    else
      match searchPackets seqNum data cur.seqNum rest with
      | .filled nodes => .filled (cur :: nodes)
      | found => found

/-
  `for (i = last_seq + 1; i <= seq_num; i++)`. At `INT_MAX`
  the test would never fail; `process_data` passes nothing
  above `MAX_SEQNUM`.
-/
def newPackets
    (lastSeq seqNum : Int)
    (data : Bytes) : List BtPacket :=
  (List.range (seqNum - lastSeq).toNat).map fun k : Nat =>
    let i := lastSeq + 1 + (k : Int)
    { seqNum := i
      data := if i = seqNum then some data else none }

/- The last number of the received prefix. -/
def lastGottenUpto :
    Int → List BtPacket → Int
| upto, [] => upto
| upto, cur :: rest =>
    if cur.recv then
      lastGottenUpto cur.seqNum rest
    else
      upto

/- The nodes after a packet; `none` if it is had already. -/
def storePacket
    (nodes : List BtPacket)
    (seqNum : Int)
    (data : Bytes) : Option (List BtPacket) :=
  match searchPackets seqNum data 0 nodes with
  | .duplicate => none
  | .filled nodes' => some nodes'
  | .absent lastSeq =>
      some (nodes ++ newPackets lastSeq seqNum data)

/- `add_packet_list`, on a chunk whose nodes are `nodes`. -/
def addPacketList
    (chunk : BtChunk)
    (nodes : List BtPacket)
    (seqNum : Int)
    (data : Bytes) : BtChunk :=
  match storePacket nodes seqNum data with
  | none => chunk
  | some nodes' =>
      { chunk with
        packets := .live nodes'
        totalData := chunk.totalData + data.length
        nextExpected := lastGottenUpto 0 nodes' + 1 }

end PeerNet

------------------------------------------------------------
-- Deleting and Writing
------------------------------------------------------------

namespace PeerNet

/-
  `del_packet_list`: the nodes are freed, the pointer to them
  stays. An empty list is `NULL` before and after.
-/
def delPacketList :
    BtPackets → Except Fault BtPackets
| .live [] => .ok (.live [])
| .live (_ :: _) => .ok .freed
| .freed => .error .freedPackets

/-
  The bytes that `write_to_buffer` and `write_to_file` copy.
  An empty node has no data, and its length is not set.
-/
def packetBytes :
    List BtPacket → Except Fault Bytes
| [] => .ok []
| cur :: rest =>
    match cur.data with
    | none => .error .unsetNode
    | some data =>
        match packetBytes rest with
        | .error f => .error f
        | .ok bytes => .ok (data ++ bytes)

/- `write_to_buffer`, into a buffer of one chunk. -/
def writeToBuffer
    (env : Env)
    (nodes : List BtPacket) : Except Fault Bytes :=
  match packetBytes nodes with
  | .error f => .error f
  | .ok bytes =>
      if bytes.length ≤ btChunkSize then
        .ok (env.fill btChunkSize bytes)
      else
        .error .bufferOverflow

/- The payload lengths of the received nodes, summed. -/
def dataLength
    (nodes : List BtPacket) : Nat :=
  (nodes.map fun node =>
    (node.data.getD []).length).sum

end PeerNet
