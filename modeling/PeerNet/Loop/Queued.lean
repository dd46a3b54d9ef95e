import PeerNet.Lib.Commute
import PeerNet.Model.System
import PeerNet.Model.Wire

/-
  What is queued waits untouched.

  The handlers append to the packet queue and look at nothing
  in it: whatever the queue is replaced by before a call, the
  process takes the same way, reads the clock as often, and
  ends with the same datagrams appended. All that is known of
  these datagrams is that `packet_new` made them, so their
  bytes are as many as their head says.

  Main declarations:
    * `QueueMap`
    * `commutes_dispatch` and `commutes_handle`
    * `calls_append`
-/

------------------------------------------------------------
-- Replacing the Queue
------------------------------------------------------------

namespace PeerNet

open Prog

/- The head counts all bytes of the datagram. -/
def Datagram.Exact
    (d : Datagram) : Prop :=
  d.packet.header.packetLen.toNat =
    packetHeadSize + d.packet.buf.length

instance : DecidablePred Datagram.Exact :=
  fun _ => inferInstanceAs (Decidable (_ = _))

/- A change of the queue that leaves new datagrams alone. -/
structure QueueMap where
  map : List Datagram → List Datagram
  append : ∀ queue d, d.Exact →
    map (queue ++ [d]) = map queue ++ [d]

/- The process with another queue. -/
def Node.requeue
    (g : QueueMap)
    (n : Node) : Node :=
  { n with queue := g.map n.queue }

end PeerNet

------------------------------------------------------------
-- Single Steps
------------------------------------------------------------

namespace PeerNet

open Prog

section

variable {α : Type} {env : Env} {g : QueueMap}

theorem commutes_lift
    (x : Except Fault α) :
    Commutes (Node.requeue g) (lift x) := by
  cases x with
  | ok a => exact Commutes.pure a
  | error f => exact Commutes.throw f

theorem commutes_onConfig
    (f : BtConfig → BtConfig) :
    Commutes (Node.requeue g)
      (modify (Node.onConfig f) : Prog Unit) :=
  Commutes.modify fun _ => rfl

theorem commutes_onFiles
    (f : Files → Files) :
    Commutes (Node.requeue g)
      (modify (Node.onFiles f) : Prog Unit) :=
  Commutes.modify fun _ => rfl

theorem commutes_emit
    (e : Event) :
    Commutes (Node.requeue g)
      (modify (Node.emit e) : Prog Unit) :=
  Commutes.modify fun _ => rfl

theorem commutes_timeMillis
    (env : Env) :
    Commutes (Node.requeue g) (timeMillis env) :=
  fun _ => rfl

theorem commutes_derefChunk
    (r : ChunkRef) :
    Commutes (Node.requeue g) (derefChunk r) := by
  apply Commutes.get_bind
  · exact fun _ => rfl
  · intro n
    cases n.config.chunk r with
    | none => exact Commutes.throw _
    | some chunk => exact Commutes.pure chunk

/- The one thing that is done with the queue. -/
theorem commutes_packetNew
    (p : Packet)
    (a : Addr) :
    Commutes (Node.requeue g) (packetNew p a) := by
  unfold packetNew
  dsimp only
  by_cases hHead :
      p.header.packetLen.toNat < packetHeadSize
  · rw [if_pos hHead]
    exact Commutes.throw _
  rw [if_neg hHead]
  by_cases hShort :
      p.buf.length <
        p.header.packetLen.toNat - packetHeadSize
  · rw [if_pos hShort]
    exact Commutes.throw _
  rw [if_neg hShort]
  apply Commutes.modify
  intro n
  unfold Node.requeue
  dsimp only
  rw [g.append]
  have hTaken :
      (p.buf.take
          (p.header.packetLen.toNat -
            packetHeadSize)).length =
        p.header.packetLen.toNat - packetHeadSize :=
    List.length_take_of_le (Nat.not_lt.mp hShort)
  change p.header.packetLen.toNat = packetHeadSize + _
  rw [hTaken]
  omega

end

end PeerNet

------------------------------------------------------------
-- Receiving
------------------------------------------------------------

namespace PeerNet

open Prog

section

variable {g : QueueMap}

theorem commutes_timeoutPeer
    (env : Env)
    (curTime : Int)
    (cur : PeerRef) :
    Commutes (Node.requeue g) (timeoutPeer env curTime cur) := by
  apply Commutes.get_bind
  · exact fun _ => rfl
  · intro n
    dsimp only
    apply Commutes.ite _ (Commutes.pure _)
    apply (commutes_onConfig _).bind
    intro _
    apply Commutes.ite _ (Commutes.pure _)
    apply (commutes_timeMillis env).bind
    intro now
    cases (n.config.peer cur).chunk with
    | none => exact Commutes.throw _
    | some r =>
        apply (commutes_derefChunk r).bind
        intro chunk
        apply (commutes_lift _).bind
        exact fun _ => commutes_onConfig _

theorem commutes_timeoutCheck
    (env : Env) :
    Commutes (Node.requeue g) (timeoutCheck env) := by
  apply Commutes.get_bind
  · exact fun _ => rfl
  · intro n
    dsimp only
    apply Commutes.ite _ (Commutes.pure _)
    apply (commutes_timeMillis env).bind
    intro curTime
    exact Commutes.forM _ (commutes_timeoutPeer env curTime)

theorem commutes_isBad
    (env : Env)
    (peer : BtPeer) :
    Commutes (Node.requeue g) (isBad env peer) := by
  unfold isBad
  apply Commutes.ite _ (Commutes.pure _)
  apply (commutes_timeMillis env).bind
  exact fun _ => Commutes.pure _

theorem commutes_sendWhohas
    (env : Env) :
    Commutes (Node.requeue g) (sendWhohas env) := by
  apply Commutes.get_bind
  · exact fun _ => rfl
  · intro n
    dsimp only
    apply Commutes.ite (Commutes.pure _)
    apply (commutes_timeMillis env).bind
    intro now
    apply Commutes.ite (Commutes.pure _)
    apply (commutes_timeMillis env).bind
    intro now
    apply (commutes_onConfig _).bind
    intro _
    apply Commutes.ite (Commutes.throw _)
    apply Commutes.bind
    · apply Commutes.forM
      intro p
      exact Commutes.ite (commutes_packetNew _ _)
        (Commutes.pure _)
    · exact fun _ => Commutes.pure _

theorem commutes_sendGet
    (env : Env)
    (dest : Addr)
    (r : ChunkRef) :
    Commutes (Node.requeue g) (sendGet env dest r) := by
  apply Commutes.get_bind
  · exact fun _ => rfl
  · intro n
    dsimp only
    apply Commutes.ite (Commutes.pure _)
    apply (commutes_onConfig _).bind
    intro _
    cases peerWithAddr dest n.config with
    | none => exact Commutes.throw _
    | some p =>
        apply (commutes_timeMillis env).bind
        intro now
        apply (commutes_onConfig _).bind
        intro _
        apply (commutes_derefChunk r).bind
        intro chunk
        apply (commutes_emit _).bind
        intro _
        apply (commutes_packetNew _ _).bind
        exact fun _ => Commutes.pure _

theorem commutes_scanPeers
    (env : Env)
    (r : ChunkRef)
    (peers : List PeerRef)
    (allBad : Bool) :
    Commutes (Node.requeue g) (scanPeers env r peers allBad) := by
  induction peers generalizing allBad with
  | nil => exact Commutes.pure _
  | cons p rest ih =>
      apply Commutes.get_bind
      · exact fun _ => rfl
      · intro n
        apply (commutes_isBad env _).bind
        intro bad
        apply Commutes.get_bind
        · exact fun _ => rfl
        · intro m
          dsimp only
          apply Commutes.ite (ih _)
          apply (commutes_isBad env _).bind
          intro bad
          apply Commutes.ite (ih _)
          apply (commutes_sendGet env _ r).bind
          exact fun _ => Commutes.pure _

theorem commutes_scanChunks
    (env : Env)
    (chunks : List ChunkRef) :
    Commutes (Node.requeue g) (scanChunks env chunks) := by
  induction chunks with
  | nil => exact Commutes.pure _
  | cons r rest ih =>
      apply Commutes.get_bind
      · exact fun _ => rfl
      · intro n
        dsimp only
        apply Commutes.ite _ (Commutes.pure _)
        apply (commutes_derefChunk r).bind
        intro chunk
        apply Commutes.ite _ ih
        apply (commutes_scanPeers env r _ true).bind
        intro allBad
        apply Commutes.ite _ ih
        exact (commutes_sendWhohas env).bind fun _ => ih

theorem commutes_getAllTheThingz
    (env : Env) :
    Commutes (Node.requeue g) (getAllTheThingz env) := by
  apply Commutes.get_bind
  · exact fun _ => rfl
  · exact fun n => commutes_scanChunks env _

theorem commutes_ihaveLoop
    (p : PeerRef)
    (buf : Bytes)
    (count offset : Nat)
    (datalen : Int) :
    Commutes (Node.requeue g)
      (ihaveLoop p buf count offset datalen) := by
  induction count generalizing offset datalen with
  | zero => exact Commutes.pure _
  | succ count ih =>
      unfold ihaveLoop
      apply Commutes.ite (Commutes.pure _)
      apply Commutes.ite (Commutes.throw _)
      apply Commutes.get_bind
      · exact fun _ => rfl
      · intro n
        dsimp only
        split
        · exact ih _ _
        · exact (commutes_onConfig _).bind fun _ => ih _ _

theorem commutes_processIhave
    (src : Addr)
    (packet : Packet) :
    Commutes (Node.requeue g) (processIhave src packet) := by
  apply Commutes.get_bind
  · exact fun _ => rfl
  · intro n
    dsimp only
    apply Commutes.ite (Commutes.pure _)
    cases peerWithAddr src n.config with
    | none => exact Commutes.throw _
    | some p =>
        apply (commutes_onConfig _).bind
        intro _
        cases packet.buf with
        | nil => exact Commutes.throw _
        | cons numchunks rest =>
            exact commutes_ihaveLoop p _ _ _ _

theorem commutes_writeToFile
    (packets : BtPackets) :
    Commutes (Node.requeue g) (writeToFile packets) := by
  unfold writeToFile
  cases packets with
  | freed => exact Commutes.throw _
  | live nodes =>
      apply (commutes_lift _).bind
      intro bytes
      apply Commutes.get_bind
      · exact fun _ => rfl
      · exact fun n => commutes_onFiles _

theorem commutes_finishGetChunk
    (env : Env)
    (nextChunk : Int) :
    Commutes (Node.requeue g)
      (finishGetChunk env nextChunk) := by
  apply Commutes.get_bind
  · exact fun _ => rfl
  · intro n
    cases chunkWithId nextChunk n.config with
    | none => exact Commutes.throw _
    | some next =>
        apply (commutes_lift _).bind
        intro realId
        apply Commutes.ite
        · apply (commutes_lift _).bind
          intro bytes
          cases bytes with
          | none => exact Commutes.pure _
          | some filechunk =>
              exact (commutes_onFiles _).bind
                fun _ => Commutes.pure _
        · exact (commutes_writeToFile _).bind
            fun _ => Commutes.pure _

theorem commutes_finishGetLoop
    (env : Env)
    (count : Nat)
    (nextChunk : Int) :
    Commutes (Node.requeue g)
      (finishGetLoop env count nextChunk) := by
  induction count generalizing nextChunk with
  | zero => exact Commutes.pure _
  | succ count ih =>
      apply (commutes_finishGetChunk env nextChunk).bind
      intro go
      exact Commutes.ite (ih _) (Commutes.pure _)

theorem commutes_delReceiverList :
    Commutes (Node.requeue g) delReceiverList := by
  apply Commutes.get_bind
  · exact fun _ => rfl
  · intro n
    exact Commutes.ite (commutes_onConfig _)
      (Commutes.throw _)

theorem commutes_finishGet
    (env : Env) :
    Commutes (Node.requeue g) (finishGet env) := by
  apply Commutes.get_bind
  · exact fun _ => rfl
  · intro n
    apply (commutes_emit _).bind
    intro _
    apply Commutes.ite _ (Commutes.pure _)
    apply (commutes_onFiles _).bind
    intro _
    apply (commutes_finishGetLoop env _ 0).bind
    intro go
    apply Commutes.ite _ (Commutes.pure _)
    exact (commutes_emit _).bind
      fun _ => commutes_delReceiverList

theorem commutes_recordChunk
    (env : Env)
    (r : ChunkRef)
    (hash : Hash) :
    Commutes (Node.requeue g) (recordChunk env r hash) := by
  apply Commutes.get_bind
  · exact fun _ => rfl
  · intro n
    apply (commutes_onFiles _).bind
    intro _
    apply Commutes.get_bind
    · exact fun _ => rfl
    · intro m
      apply (commutes_lift _).bind
      intro id
      apply (commutes_onFiles _).bind
      intro _
      apply (commutes_onConfig _).bind
      intro _
      apply Commutes.get_bind
      · exact fun _ => rfl
      · intro k
        exact Commutes.ite (commutes_finishGet env)
          (Commutes.pure _)

theorem commutes_finishChunk
    (env : Env)
    (r : ChunkRef) :
    Commutes (Node.requeue g) (finishChunk env r) := by
  apply (commutes_derefChunk r).bind
  intro chunk
  apply (commutes_emit _).bind
  intro _
  cases chunk.peer with
  | none => exact Commutes.throw _
  | some p =>
      apply (commutes_onConfig _).bind
      intro _
      cases chunk.packets with
      | freed => exact Commutes.throw _
      | live nodes =>
          apply (commutes_lift _).bind
          intro buffer
          apply Commutes.ite _ (commutes_emit _)
          apply Commutes.get_bind
          · exact fun _ => rfl
          · intro n
            exact Commutes.ite
              (commutes_recordChunk env r _)
              (commutes_emit _)

theorem commutes_addPacket
    (env : Env)
    (r : ChunkRef)
    (packet : Packet) :
    Commutes (Node.requeue g) (addPacket env r packet) := by
  apply (commutes_derefChunk r).bind
  intro chunk
  cases chunk.packets with
  | freed => exact Commutes.throw _
  | live nodes =>
      dsimp only
      apply Commutes.ite (Commutes.throw _)
      apply (commutes_onConfig _).bind
      intro _
      apply Commutes.ite _ (Commutes.pure _)
      exact (commutes_finishChunk env r).bind
        fun _ => Commutes.pure _

theorem commutes_processData
    (env : Env)
    (src : Addr)
    (packet : Packet) :
    Commutes (Node.requeue g)
      (processData env src packet) := by
  apply Commutes.get_bind
  · exact fun _ => rfl
  · intro n
    dsimp only
    cases peerWithAddr src n.config with
    | none => exact Commutes.pure _
    | some p =>
        dsimp only
        cases (n.config.peer p).chunk with
        | none => exact Commutes.pure _
        | some r =>
            apply (commutes_timeMillis env).bind
            intro now
            apply (commutes_onConfig _).bind
            intro _
            apply Commutes.ite (Commutes.pure _)
            apply (commutes_addPacket env r packet).bind
            intro nextExpected
            exact (commutes_packetNew _ _).bind
              fun _ => Commutes.pure _

theorem commutes_addChunks
    (env : Env)
    (fuel : Nat)
    (input buf : Bytes) :
    Commutes (Node.requeue g)
      (addChunks env fuel input buf) := by
  induction fuel generalizing input buf with
  | zero => exact Commutes.throw _
  | succ fuel ih =>
      unfold addChunks
      split
      · apply (commutes_lift _).bind
        intro buf
        apply Commutes.bind
        · apply Commutes.get_bind
          · exact fun _ => rfl
          · intro n
            exact (commutes_lift _).bind
              fun _ => commutes_onConfig _
        · exact fun _ => ih _ _
      · exact Commutes.pure _

theorem commutes_processUserGet
    (env : Env)
    (chunkfile outputfile : Path) :
    Commutes (Node.requeue g)
      (processUserGet env chunkfile outputfile) := by
  apply Commutes.get_bind
  · exact fun _ => rfl
  · intro n
    cases n.files.content chunkfile with
    | none => exact Commutes.pure _
    | some text =>
        apply (commutes_onConfig _).bind
        intro _
        apply (commutes_addChunks env _ _ _).bind
        intro _
        apply (commutes_sendWhohas env).bind
        intro _
        apply Commutes.get_bind
        · exact fun _ => rfl
        · intro m
          exact Commutes.ite (commutes_finishGet env)
            (Commutes.pure _)

end

end PeerNet

------------------------------------------------------------
-- Sending and Answering
------------------------------------------------------------

namespace PeerNet

open Prog

section

variable {g : QueueMap}

theorem commutes_sendData
    (env : Env)
    (dest : Addr)
    (hash : Hash) :
    Commutes (Node.requeue g) (sendData env dest hash) := by
  apply Commutes.get_bind
  · exact fun _ => rfl
  · intro n
    apply (commutes_lift _).bind
    intro read
    cases read with
    | none => exact Commutes.pure _
    | some found =>
        dsimp only
        apply Commutes.ite (Commutes.pure _)
        cases peerWithAddr dest n.config with
        | none => exact Commutes.throw _
        | some peer =>
            exact (commutes_onConfig _).bind
              fun _ => Commutes.pure _

theorem commutes_processGet
    (env : Env)
    (src : Addr)
    (packet : Packet) :
    Commutes (Node.requeue g)
      (processGet env src packet) := by
  apply Commutes.get_bind
  · exact fun _ => rfl
  · intro n
    dsimp only
    cases peerWithAddr src n.config with
    | none => exact Commutes.pure _
    | some peer =>
        dsimp only
        apply Commutes.ite (Commutes.pure _)
        apply Commutes.ite (Commutes.pure _)
        apply Commutes.ite (Commutes.throw _)
        exact commutes_sendData env src _

theorem commutes_processAck
    (src : Addr)
    (packet : Packet) :
    Commutes (Node.requeue g) (processAck src packet) := by
  apply Commutes.get_bind
  · exact fun _ => rfl
  · intro n
    dsimp only
    cases peerWithAddr src n.config with
    | none => exact Commutes.pure _
    | some peer =>
        dsimp only
        cases findSenderList n.config peer with
        | none => exact Commutes.pure _
        | some s =>
            exact (commutes_onConfig _).bind
              fun _ => Commutes.pure _

theorem commutes_peerCc
    (env : Env) :
    Commutes (Node.requeue g) (peerCc env) := by
  apply Commutes.get_bind
  · exact fun _ => rfl
  · intro n
    dsimp only
    apply Commutes.bind
    · apply Commutes.forM
      intro sv
      exact Commutes.forM _ fun _ => commutes_packetNew _ _
    · intro _
      refine (Commutes.modify ?_).bind fun _ => ?_
      · exact fun _ => rfl
      split
      · exact Commutes.throw _
      · exact Commutes.pure _

theorem commutes_sendIhaveLoop
    (dest : Addr)
    (fuel : Nat)
    (next : List Hash) :
    Commutes (Node.requeue g)
      (sendIhaveLoop dest fuel next) := by
  induction fuel generalizing next with
  | zero => exact Commutes.throw _
  | succ fuel ih =>
      unfold sendIhaveLoop
      dsimp only
      apply Commutes.ite (Commutes.pure _)
      apply Commutes.ite (Commutes.pure _)
      exact (commutes_packetNew _ _).bind fun _ => ih _

theorem commutes_processWhohas
    (env : Env)
    (src : Addr)
    (packet : Packet) :
    Commutes (Node.requeue g)
      (processWhohas env src packet) := by
  apply Commutes.get_bind
  · exact fun _ => rfl
  · intro n
    split
    · exact Commutes.throw _
    · exact commutes_sendIhaveLoop src _ _

theorem commutes_dispatch
    (env : Env)
    (src : Addr)
    (p : Packet) :
    Commutes (Node.requeue g) (dispatch env src p) := by
  unfold dispatch
  apply Commutes.ite
    (commutes_processWhohas env src p).discard
  apply Commutes.ite (commutes_processIhave src p).discard
  apply Commutes.ite (commutes_processGet env src p).discard
  apply Commutes.ite
    (commutes_processData env src p).discard
  apply Commutes.ite (commutes_processAck src p).discard
  exact Commutes.pure _

theorem commutes_processInboundUdp
    (env : Env)
    (src : Addr)
    (datagram : Bytes) :
    Commutes (Node.requeue g)
      (processInboundUdp env src datagram) := by
  unfold processInboundUdp
  apply (commutes_lift _).bind
  intro read
  cases read with
  | none => exact Commutes.pure _
  | some p => exact commutes_dispatch env src p

theorem commutes_handle
    (env : Env)
    (e : NodeEvent) :
    Commutes (Node.requeue g) (handle env e) := by
  cases e with
  | userGet chunkfile outputfile =>
      exact commutes_processUserGet env chunkfile outputfile
  | timeoutCheck => exact commutes_timeoutCheck env
  | getAllTheThingz => exact commutes_getAllTheThingz env
  | peerCc => exact commutes_peerCc env
  | ihave src packet =>
      exact (commutes_processIhave src packet).discard
  | get src packet =>
      exact (commutes_processGet env src packet).discard
  | data src packet =>
      exact (commutes_processData env src packet).discard
  | ack src packet =>
      exact (commutes_processAck src packet).discard

end

end PeerNet

------------------------------------------------------------
-- Calls of a Process
------------------------------------------------------------

namespace PeerNet

open Prog

/- A process runs a call the same way, whatever waits. -/
theorem exec_requeue
    {α : Type}
    {x : Prog α}
    {g : QueueMap}
    (hx : Commutes (Node.requeue g) x)
    (n : Node) :
    (n.requeue g).exec x = (n.exec x).requeue g := by
  have hFault : (n.requeue g).fault = n.fault := rfl
  unfold Node.exec
  rw [hFault]
  by_cases hStopped : n.fault.isSome = true
  · rw [if_pos hStopped, if_pos hStopped]
  · rw [if_neg hStopped, if_neg hStopped, hx n]
    cases x n with
    | ok a m => rfl
    | error f m => rfl

/- More in front of the queue. -/
def QueueMap.behind
    (waiting : List Datagram) : QueueMap where
  map queue := waiting ++ queue
  append queue d _ := (List.append_assoc waiting queue [d]).symm

/- The exact datagrams of the queue. -/
def QueueMap.exact : QueueMap where
  map queue := queue.filter fun d => d.Exact
  append queue d hExact := by
    simp [List.filter_append, hExact]

/-
  There are datagrams, as long as their heads say, that the
  call appends to whatever queue it finds, and apart from
  them its end is the same for every queue.
-/
def Appends
    {α : Type}
    (n : Node)
    (x : Prog α) : Prop :=
  ∃ new : List Datagram,
    (∀ d ∈ new, d.Exact) ∧
      ∀ waiting,
        { n with queue := waiting }.exec x =
          { n.exec x with queue := waiting ++ new }

theorem appends_of_commutes
    {α : Type}
    {x : Prog α}
    (hx : ∀ g, Commutes (Node.requeue g) x)
    (n : Node) :
    Appends n x := by
  have hBehind : ∀ waiting,
      { n with queue := waiting }.exec x =
        ({ n with queue := [] }.exec x).requeue
          (.behind waiting) := by
    intro waiting
    have hRun := exec_requeue (hx (.behind waiting))
      { n with queue := [] }
    rw [← hRun]
    unfold Node.requeue QueueMap.behind
    dsimp only
    rw [List.append_nil]
  have hExact :
      ({ n with queue := [] }.exec x).queue =
        QueueMap.exact.map
          ({ n with queue := [] }.exec x).queue :=
    congrArg Node.queue
      (exec_requeue (hx .exact) { n with queue := [] })
  have hSelf :
      n.exec x =
        ({ n with queue := [] }.exec x).requeue
          (.behind n.queue) :=
    hBehind n.queue
  refine ⟨({ n with queue := [] }.exec x).queue, ?_, ?_⟩
  · intro d hd
    rw [hExact] at hd
    exact of_decide_eq_true (List.mem_filter.mp hd).2
  · intro waiting
    rw [hBehind waiting, hSelf]
    rfl

theorem appends_handle
    (env : Env)
    (e : NodeEvent)
    (n : Node) :
    Appends n (handle env e) :=
  appends_of_commutes (fun _ => commutes_handle env e) n

theorem appends_processInboundUdp
    (env : Env)
    (src : Addr)
    (datagram : Bytes)
    (n : Node) :
    Appends n (processInboundUdp env src datagram) :=
  appends_of_commutes
    (fun _ => commutes_processInboundUdp env src datagram) n

/-
  Every event and every datagram from the network: what a
  process does and what it queues does not depend on the
  packets that wait, and these stay in front as they are.
-/
theorem calls_append
    (env : Env)
    (n : Node) :
    (∀ e, Appends n (handle env e)) ∧
      ∀ src datagram,
        Appends n (processInboundUdp env src datagram) :=
  ⟨fun e => appends_handle env e n, fun src datagram =>
    appends_processInboundUdp env src datagram n⟩

end PeerNet
