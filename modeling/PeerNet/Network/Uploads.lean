import PeerNet.Network.Fetches
import PeerNet.Sender.Charges

/-
  Where DATA and ACKs come from, over whole runs.

  Neither names a chunk. What an upload sends was cut from
  data that the peer asked for with the GET of the upload,
  and an ACK was sent for a GET whose fetch has accepted all
  it acknowledges. But whoever gets a late one has only its
  sender to go by: `process_data` stores it in the chunk that
  is fetched from there now, and `process_ack` counts it for
  the upload that goes there now. So what an upload counts
  was accepted by the GET of the ACK it counted last, and by
  its own GET where that ACK was sent for it.

  Main declarations:
    * `CountedAck`
    * `UploadFor`
    * `Traced`
    * `Recorded`
    * `Recorded.step`
    * `recorded_of_run`
    * `acked_of_run`
-/

------------------------------------------------------------
-- Data That Was Asked For
------------------------------------------------------------

namespace PeerNet

open Reassembly

/- Part `i` of data that has the hash. -/
def PartOf
    (env : Env)
    (hash : Hash)
    (i : Nat)
    (payload : Bytes) : Prop :=
  ∃ filechunk readBytes,
    ReadFor env hash filechunk readBytes ∧
      (parts filechunk readBytes)[i]? = some payload

/- `a` read the data that request `o` of `b` asks for. -/
def Supplies
    (env : Env)
    (requests : List Request)
    (b a : Addr)
    (o : Nat)
    (filechunk : Bytes)
    (readBytes : Nat) : Prop :=
  ∃ hash, requests[o]? = some ⟨b, a, hash⟩ ∧
    ReadFor env hash filechunk readBytes

/- A packet of that data. -/
def CutFor
    (env : Env)
    (requests : List Request)
    (b a : Addr)
    (o : Nat)
    (packet : Packet) : Prop :=
  ∃ filechunk readBytes,
    Supplies env requests b a o filechunk readBytes ∧
      packet ∈ dataPackets filechunk readBytes

/- Request `f` of `b` to `a` has accepted all up to `k`. -/
structure Acknowledges
    (requests : List Request)
    (accepted : List Accepted)
    (b a : Addr)
    (f : Nat)
    (k : Int) : Prop where
  asked : ∃ hash, requests[f]? = some ⟨b, a, hash⟩
  accepted : AcceptedUpTo accepted f k

/-
  The ACK with what an upload of `a` counts as acknowledged,
  from a peer with the id that the upload goes to.
-/
structure CountedAck
    (net : List Message)
    (a : Addr)
    (c : BtConfig)
    (s : BtSender)
    (m : Message) : Prop where
  sent : m ∈ net
  dest : m.dest = a
  packet : m.packet = ackPacket s.lastAcked
  src : ∃ q ∈ c.peers, (c.peer q).addr = m.src ∧
    (c.peer q).id = (c.peer s.peer).id

/-
  An upload of `a`. It sends what the GET of its tag asks
  for. It counts nothing as acknowledged for its own GET, or
  an ACK for the GET of that ACK.
-/
structure UploadFor
    (env : Env)
    (requests : List Request)
    (net : List Message)
    (tag counted : Addr → Nat)
    (a : Addr)
    (c : BtConfig)
    (s : BtSender) : Prop where
  found : peerWithAddr (c.peer s.peer).addr c = some s.peer
  packets : ∃ filechunk readBytes,
    Supplies env requests (c.peer s.peer).addr a
        (tag (c.peer s.peer).addr) filechunk readBytes ∧
      s.packets =
        some ((dataPackets filechunk readBytes).map some)
  counts :
    (s.lastAcked = 0 ∧
      counted (c.peer s.peer).addr =
        tag (c.peer s.peer).addr) ∨
      ∃ m, CountedAck net a c s m ∧
        counted (c.peer s.peer).addr = m.tag

section

variable {env : Env} {requests later : List Request}
variable {accepted more : List Accepted} {a b src : Addr}
variable {o f : Nat} {k : Int} {hash : Hash}
variable {filechunk : Bytes} {readBytes : Nat}
variable {packet : Packet} {m : Message}
variable {net net' : List Message}
variable {tag tag' counted counted' : Addr → Nat}
variable {c c' : BtConfig} {s t : BtSender} {p : PeerRef}

theorem Supplies.append
    (h : Supplies env requests b a o filechunk readBytes) :
    Supplies env (requests ++ later) b a o filechunk
      readBytes := by
  rcases h with ⟨hash, ho, hRead⟩
  exact ⟨hash, getElem?_append_of_some ho, hRead⟩

theorem CutFor.append
    (h : CutFor env requests b a o packet) :
    CutFor env (requests ++ later) b a o packet := by
  rcases h with ⟨filechunk, readBytes, hData, hPacket⟩
  exact ⟨filechunk, readBytes, hData.append, hPacket⟩

theorem Acknowledges.append
    (h : Acknowledges requests accepted b a f k)
    (hMore : accepted ⊆ more) :
    Acknowledges (requests ++ later) more b a f k := by
  rcases h with ⟨⟨hash, hf⟩, hAccepted⟩
  exact ⟨⟨hash, getElem?_append_of_some hf⟩,
    hAccepted.mono hMore⟩

/- Packet `k + 1` of a chunk is stored as part `k`. -/
theorem mem_dataPackets
    (h : ReadFor env hash filechunk readBytes)
    (hPacket : packet ∈ dataPackets filechunk readBytes) :
    (parts filechunk readBytes)[packet.slot]? =
        some packet.payload ∧
      packet.copy = packet ∧
        packet.header.type = typeData := by
  have hFits : readBytes ≤ filechunk.length :=
    h.length ▸ h.fits
  rw [dataPackets_eq hFits] at hPacket
  rcases mem_numbered hPacket with ⟨k, part, hPart, rfl⟩
  have hSmall : part.length ≤ maxDataSize :=
    length_le_of_mem_parts (List.mem_of_getElem? hPart)
  have hLt := (List.getElem?_eq_some_iff.mp hPart).1
  rw [length_parts] at hLt
  have hCount : numPackets readBytes ≤ 354 := by
    have hFew := (numPackets_spec readBytes).2 h.some
    have hSize : btChunkSize = 524288 := rfl
    have hData : maxDataSize = 1484 := rfl
    have hBytes := h.fits
    rw [hData] at hFew
    omega
  have hMax : maxSeqnum = 524288 := by decide
  have hSeq :
      (dataPacket (1 + (k : Int)) part).seq =
        1 + (k : Int) :=
    dataPacket_seq (by omega) (by omega)
  have hSlot :
      (dataPacket (1 + (k : Int)) part).slot = k := by
    unfold Packet.slot
    omega
  rw [hSlot, dataPacket_payload hSmall]
  exact ⟨hPart, dataPacket_copy hSmall, rfl⟩

/- What is stored of it. -/
theorem CutFor.part
    (h : CutFor env requests b a o packet) :
    ∃ hash, requests[o]? = some ⟨b, a, hash⟩ ∧
      PartOf env hash packet.slot packet.payload := by
  rcases h with
    ⟨filechunk, readBytes, ⟨hash, ho, hRead⟩, hPacket⟩
  exact ⟨hash, ho, filechunk, readBytes, hRead,
    (mem_dataPackets hRead hPacket).1⟩

theorem CutFor.type
    (h : CutFor env requests b a o packet) :
    packet.header.type = typeData := by
  rcases h with
    ⟨filechunk, readBytes, ⟨hash, _, hRead⟩, hPacket⟩
  exact (mem_dataPackets hRead hPacket).2.2

/- What an upload sends is cut for its GET. -/
theorem UploadFor.carries
    (h : UploadFor env requests net tag counted a c s)
    (hCarries : s.Carries packet) :
    CutFor env requests (c.peer s.peer).addr a
        (tag (c.peer s.peer).addr) packet ∧
      packet.copy = packet := by
  rcases h.packets with
    ⟨filechunk, readBytes, hData, hPackets⟩
  rcases hCarries with ⟨packets, hCarried, hMem⟩
  rw [hPackets] at hCarried
  rw [← Option.some.inj hCarried] at hMem
  have hPacket : packet ∈ dataPackets filechunk readBytes := by
    simpa using hMem
  have hRead := hData
  rcases hRead with ⟨hash, _, hRead⟩
  exact ⟨⟨filechunk, readBytes, hData, hPacket⟩,
    (mem_dataPackets hRead hPacket).2.1⟩

theorem CountedAck.widen
    (h : CountedAck net a c s m)
    (hNet : net ⊆ net') :
    CountedAck net' a c s m where
  sent := hNet h.sent
  dest := h.dest
  packet := h.packet
  src := h.src

/- More requests and more messages. -/
theorem UploadFor.append
    (h : UploadFor env requests net tag counted a c s)
    (hNet : net ⊆ net') :
    UploadFor env (requests ++ later) net' tag counted a c
      s where
  found := h.found
  packets := by
    rcases h.packets with
      ⟨filechunk, readBytes, hData, hPackets⟩
    exact ⟨filechunk, readBytes, hData.append, hPackets⟩
  counts := by
    rcases h.counts with hNone | ⟨m, hAck, hTag⟩
    · exact .inl hNone
    · exact .inr ⟨m, hAck.widen hNet, hTag⟩

theorem UploadFor.widen
    (h : UploadFor env requests net tag counted a c s)
    (hNet : net ⊆ net') :
    UploadFor env requests net' tag counted a c s := by
  have hSame :
      UploadFor env (requests ++ []) net' tag counted a c s :=
    h.append hNet
  rw [List.append_nil] at hSame
  exact hSame

/- The same directory of peers. -/
theorem UploadFor.same
    (h : UploadFor env requests net tag counted a c s)
    (hPeers : c'.peers = c.peers)
    (hId : ∀ p, (c'.peer p).id = (c.peer p).id)
    (hAddr : ∀ p, (c'.peer p).addr = (c.peer p).addr) :
    UploadFor env requests net tag counted a c' s where
  found := by
    rw [peerWithAddr_congr hPeers hAddr, hAddr]
    exact h.found
  packets := by
    rw [hAddr]
    exact h.packets
  counts := by
    rw [hAddr]
    rcases h.counts with hNone | ⟨m, hAck, hTag⟩
    · exact .inl hNone
    rcases hAck.src with ⟨q, hq, hSrc, hSame⟩
    refine .inr ⟨m, ?_, hTag⟩
    refine ⟨hAck.sent, hAck.dest, hAck.packet, q, ?_, ?_, ?_⟩
    · rw [hPeers]
      exact hq
    · rw [hAddr]
      exact hSrc
    · rw [hId, hId]
      exact hSame

/- A pass does not touch what matters here. -/
theorem UploadFor.passed
    (h : UploadFor env requests net tag counted a c s)
    (hSame : SameUpload s t) :
    UploadFor env requests net tag counted a c t where
  found := by
    rw [hSame.peer]
    exact h.found
  packets := by
    rw [hSame.peer, hSame.packets]
    exact h.packets
  counts := by
    rw [hSame.peer, hSame.lastAcked]
    rcases h.counts with hNone | ⟨m, hAck, hTag⟩
    · exact .inl hNone
    refine .inr ⟨m, ?_, hTag⟩
    constructor
    · exact hAck.sent
    · exact hAck.dest
    · rw [hSame.lastAcked]
      exact hAck.packet
    · rw [hSame.peer]
      exact hAck.src

/- Tags that are set for another address. -/
theorem UploadFor.retag
    (h : UploadFor env requests net tag counted a c s)
    (hTag : tag' (c.peer s.peer).addr =
      tag (c.peer s.peer).addr)
    (hCounted : counted' (c.peer s.peer).addr =
      counted (c.peer s.peer).addr) :
    UploadFor env requests net tag' counted' a c s where
  found := h.found
  packets := by
    rw [hTag]
    exact h.packets
  counts := by
    rw [hTag, hCounted]
    exact h.counts

/- An ACK that is not counted leaves the number. -/
theorem UploadFor.ignored
    (h : UploadFor env requests net tag counted a c s)
    {ackNum : UInt32}
    (hSame : (ackSender ackNum s).lastAcked = s.lastAcked)
    (hCounted : counted' (c.peer s.peer).addr =
      counted (c.peer s.peer).addr) :
    UploadFor env requests net tag counted' a c
      (ackSender ackNum s) where
  found := by
    rw [ackSender_peer]
    exact h.found
  packets := by
    rw [ackSender_peer, ackSender_packets]
    exact h.packets
  counts := by
    rw [ackSender_peer, hSame, hCounted]
    rcases h.counts with hNone | ⟨m, hAck, hTag⟩
    · exact .inl hNone
    refine .inr ⟨m, ?_, hTag⟩
    constructor
    · exact hAck.sent
    · exact hAck.dest
    · rw [hSame]
      exact hAck.packet
    · rw [ackSender_peer]
      exact hAck.src

/- An ACK that is counted. -/
theorem UploadFor.raised
    (h : UploadFor env requests net tag counted a c s)
    (hSent : m ∈ net)
    (hDest : m.dest = a)
    (hPacket : m.packet =
      ackPacket (ackSender m.packet.header.ackNum s).lastAcked)
    (hFound : peerWithAddr m.src c = some p)
    (hTo : c.uploadsTo p s = true)
    (hCounted : counted' (c.peer s.peer).addr = m.tag) :
    UploadFor env requests net tag counted' a c
      (ackSender m.packet.header.ackNum s) where
  found := by
    rw [ackSender_peer]
    exact h.found
  packets := by
    rw [ackSender_peer, ackSender_packets]
    exact h.packets
  counts := by
    rw [ackSender_peer]
    refine .inr ⟨m, ⟨hSent, hDest, hPacket, p, ?_⟩, hCounted⟩
    refine ⟨mem_peers_of_peerWithAddr hFound,
      addr_of_peerWithAddr hFound, ?_⟩
    rw [ackSender_peer]
    unfold BtConfig.uploadsTo at hTo
    exact (of_decide_eq_true hTo).symm

/- A new upload serves the GET that made it. -/
theorem Uploaded.uploadFor
    {n : Node}
    (h : Uploaded env n src packet s)
    (hAsked : requests[tag src]? =
      some ⟨src, a, hashOfBytes packet.buf⟩)
    (hCounted : counted src = tag src) :
    UploadFor env requests net tag counted a n.config s := by
  have hAddr := addr_of_peerWithAddr h.peer
  rcases h.entry with ⟨filechunk, readBytes, hRead, hIs⟩
  have hPackets :
      s.packets =
        some ((dataPackets filechunk readBytes).map some) := by
    rw [hIs]
    rfl
  have hNone : s.lastAcked = 0 := by
    rw [hIs]
    rfl
  constructor
  · rw [hAddr]
    exact h.peer
  · rw [hAddr]
    exact ⟨filechunk, readBytes, ⟨_, hAsked, hRead⟩,
      hPackets⟩
  · rw [hAddr]
    exact .inl ⟨hNone, hCounted⟩

/- No upload goes to the peer of a new one. -/
theorem Uploaded.elsewhere
    {n : Node}
    (h : Uploaded env n src packet t)
    (hs : s ∈ n.config.upload)
    (hFound :
      peerWithAddr (n.config.peer s.peer).addr n.config =
        some s.peer) :
    (n.config.peer s.peer).addr ≠ src := by
  intro hSame
  rw [hSame, h.peer] at hFound
  have hNot := List.find?_eq_none.mp h.fresh s hs
  apply hNot
  unfold BtConfig.uploadsTo
  rw [Option.some.inj hFound]
  simp

/- With one upload to a peer, its number is looked at. -/
theorem ackedFor_of_mem
    {n : Node}
    (hUploads : Uploads n.config)
    (hFound : ∀ s ∈ n.config.upload,
      peerWithAddr (n.config.peer s.peer).addr n.config =
        some s.peer)
    (hs : s ∈ n.config.upload) :
    System.ackedFor n (n.config.peer s.peer).addr =
      some s.lastAcked := by
  unfold System.ackedFor
  cases hFind : n.config.upload.find? fun t =>
      (n.config.peer t.peer).addr =
        (n.config.peer s.peer).addr with
  | none =>
      have hNot := List.find?_eq_none.mp hFind s hs
      simp at hNot
  | some t =>
      have ht := List.mem_of_find?_eq_some hFind
      have hAddr :
          (n.config.peer t.peer).addr =
            (n.config.peer s.peer).addr := by
        simpa using List.find?_some hFind
      have hPeer : t.peer = s.peer := by
        have hSame := hFound t ht
        rw [hAddr, hFound s hs] at hSame
        exact (Option.some.inj hSame).symm
      rw [List.inj_on_of_nodup_map hUploads.distinct ht hs
        hPeer]
      rfl

end

end PeerNet

------------------------------------------------------------
-- The Invariant
------------------------------------------------------------

namespace PeerNet

open PeerNet.System

/- What a message on the network was sent for. -/
structure Traced
    (env : Addr → Env)
    (requests : List Request)
    (accepted : List Accepted)
    (m : Message) : Prop where
  get : m.packet.header.type = typeGet →
    requests[m.tag]? =
      some ⟨m.src, m.dest, hashOfBytes m.packet.buf⟩
  data : m.packet.header.type = typeData →
    CutFor (env m.src) requests m.dest m.src m.tag m.packet
  ack : m.packet.header.type = typeAck →
    ∃ k, m.packet = ackPacket k ∧
      Acknowledges requests accepted m.src m.dest m.tag k

/- The state of a system and its records, between steps. -/
structure Recorded
    (env : Addr → Env)
    (σ : System) : Prop where
  quiet : ∀ a, (σ.node a).queue = []
  tagged : σ.Tagged
  tracing : ∀ b,
    Tracing σ.requests σ.accepted b (σ.node b).config
  apart : ∀ a, Uploads (σ.node a).config
  uploads : ∀ a, ∀ s ∈ (σ.node a).config.upload,
    UploadFor (env a) σ.requests σ.net (σ.uploadTag a)
      (σ.countedTag a) a (σ.node a).config s
  traced : ∀ m ∈ σ.net,
    Traced env σ.requests σ.accepted m

section

variable {env : Addr → Env} {σ : System} {e : SystemEvent}
variable {ne : NodeEvent} {n : Node} {m : Message}
variable {requests later : List Request}
variable {accepted more : List Accepted}

theorem Traced.append
    (h : Traced env requests accepted m)
    (hMore : accepted ⊆ more) :
    Traced env (requests ++ later) more m where
  get := fun hType => getElem?_append_of_some (h.get hType)
  data := fun hType => (h.data hType).append
  ack := by
    intro hType
    rcases h.ack hType with ⟨k, hPacket, hAcked⟩
    exact ⟨k, hPacket, hAcked.append hMore⟩

/- What a step has to keep at its own process. -/
theorem Recorded.of_step
    (h : Recorded env σ)
    (hEvent : nodeEvent e = some ne)
    (hNode :
      (σ.node (place e)).step (env (place e)) ne = n)
    (hTracing :
      Tracing (System.step env σ e).requests
        (System.step env σ e).accepted (place e) n.config)
    (hUploads : ∀ s ∈ n.config.upload,
      UploadFor (env (place e))
        (System.step env σ e).requests
        (System.step env σ e).net
        ((System.step env σ e).uploadTag (place e))
        ((System.step env σ e).countedTag (place e)) (place e)
        n.config s)
    (hSent : ∀ m d,
      Sent (place e) n.queue (System.step env σ e) m d →
        Traced env (System.step env σ e).requests
          (System.step env σ e).accepted m) :
    Recorded env (System.step env σ e) := by
  have hPlace := step_node env σ hEvent
  rw [hNode] at hPlace
  have hRequests :
      (System.step env σ e).requests =
        σ.requests ++ requestsOf (place e) n.queue := by
    rw [step_requests hEvent, hNode]
  have hMore : σ.accepted ⊆ (System.step env σ e).accepted :=
    fun _ hA => mem_accepted_step env e hA
  constructor
  · intro a
    by_cases ha : a = place e
    · rw [ha, hPlace]
    · rw [step_node_of_ne ha]
      exact h.quiet a
  · exact h.tagged.step env e
  · intro b
    by_cases hb : b = place e
    · rw [hb, hPlace]
      exact hTracing
    · rw [step_node_of_ne hb, hRequests]
      apply (h.tracing b).append _ hMore
      intro q hq hSrc
      exact hb (hSrc.symm.trans (src_of_mem_requestsOf hq))
  · intro a
    by_cases ha : a = place e
    · rw [ha, hPlace, ← hNode]
      exact (h.apart (place e)).step (env (place e)) ne
    · rw [step_node_of_ne ha]
      exact h.apart a
  · intro a s hs
    by_cases ha : a = place e
    · subst ha
      rw [hPlace] at hs ⊢
      exact hUploads s hs
    · rw [step_node_of_ne ha] at hs ⊢
      rw [step_uploadTag_of_ne ha, step_countedTag_of_ne ha,
        hRequests]
      exact (h.uploads a s hs).append
        (net_subset_step env σ e)
  · intro m hm
    rcases sent_of_mem_step hEvent hm with hOld | ⟨d, hNew⟩
    · rw [hRequests]
      exact (h.traced m hOld).append hMore
    · rw [hNode] at hNew
      exact hSent m d hNew

/- Where nothing was asked for, the requests stay. -/
theorem step_requests_of_no_get
    (hEvent : nodeEvent e = some ne)
    (hNode :
      (σ.node (place e)).step (env (place e)) ne = n)
    (hNone :
      ∀ d ∈ n.queue, d.packet.header.type ≠ typeGet) :
    (System.step env σ e).requests = σ.requests := by
  rw [step_requests hEvent, hNode, requestsOf_eq_nil hNone,
    List.append_nil]

/- The uploads of a process whose peers stay as they are. -/
theorem Recorded.uploads_same
    (h : Recorded env σ)
    (hEvent : nodeEvent e = some ne)
    (hNode :
      (σ.node (place e)).step (env (place e)) ne = n)
    (hSame : SameSending (σ.node (place e)).config n.config)
    (hNot : ∀ m, e = .deliver m →
      m.packet.header.type ≠ typeAck) :
    ∀ s ∈ n.config.upload,
      UploadFor (env (place e))
        (System.step env σ e).requests
        (System.step env σ e).net
        ((System.step env σ e).uploadTag (place e))
        ((System.step env σ e).countedTag (place e)) (place e)
        n.config s := by
  intro s hs
  rw [hSame.upload] at hs
  have hFew : ∀ m, e = .deliver m →
      m.packet.header.type = typeGet →
        ((σ.node (place e)).step (env (place e))
            ne).config.upload.length ≤
          (σ.node (place e)).config.upload.length := by
    intro _ _ _
    rw [hNode, hSame.upload]
  rw [step_uploadTag hEvent hFew,
    step_countedTag hEvent hFew hNot, step_requests hEvent]
  exact ((h.uploads _ s hs).append
    (net_subset_step env σ e)).same hSame.peers hSame.id
      hSame.addr

/-
  The sending side leaves the fetches and the peers alone; it
  asks for nothing.
-/
theorem Recorded.serves
    (h : Recorded env σ)
    (hEvent : nodeEvent e = some ne)
    (hServes : ¬ ne.receives)
    (hNode :
      (σ.node (place e)).step (env (place e)) ne = n)
    (hUploads : ∀ s ∈ n.config.upload,
      UploadFor (env (place e)) σ.requests σ.net
        ((System.step env σ e).uploadTag (place e))
        ((System.step env σ e).countedTag (place e)) (place e)
        (σ.node (place e)).config s)
    (hQueue : ∀ d ∈ n.queue,
      CutFor (env (place e)) σ.requests d.destAddr (place e)
        ((System.step env σ e).uploadTag (place e) d.destAddr)
        d.packet) :
    Recorded env (System.step env σ e) := by
  have hMore : σ.accepted ⊆ (System.step env σ e).accepted :=
    fun _ hA => mem_accepted_step env e hA
  have hRequests :
      (System.step env σ e).requests = σ.requests := by
    apply step_requests_of_no_get hEvent hNode
    intro d hd
    rw [(hQueue d hd).type]
    decide
  apply h.of_step hEvent hNode
  · have hTracing :=
      ((h.tracing (place e)).step_serves (env (place e))
        hServes).widen hMore
    rw [hNode] at hTracing
    rw [hRequests]
    exact hTracing
  · intro s hs
    have hUpload :=
      (hUploads s hs).widen (net_subset_step env σ e)
    rw [hRequests]
    rcases step_serves (env (place e)) (σ.node (place e))
        hServes with ⟨m, ⟨_, _, _, rfl⟩, hEnd | ⟨f, hEnd⟩⟩
    · rw [← hNode, hEnd]
      exact hUpload.same rfl (fun _ => rfl) fun _ => rfl
    · rw [← hNode, hEnd]
      exact hUpload.same rfl (fun _ => rfl) fun _ => rfl
  · intro m d hSent
    have hCut := hQueue d hSent.mem
    have hIs : m.packet.header.type = typeData := by
      rw [hSent.packet]
      exact hCut.type
    refine ⟨hSent.get, fun _ => ?_, fun hAck => ?_⟩
    · rw [hSent.data hIs, hSent.src, hSent.dest,
        hSent.packet, hRequests]
      exact hCut
    · rw [hIs] at hAck
      cases hAck

/- GETs and announcements that a process sends. -/
theorem Recorded.receives
    (h : Recorded env σ)
    (hEvent : nodeEvent e = some ne)
    (hReceives : ne.receives)
    (hOther : ∀ src packet, ne ≠ .data src packet)
    (hNot : ∀ m, e ≠ .deliver m) :
    Recorded env (System.step env σ e) := by
  have hMidway :=
    (h.tracing (place e)).step_receives (h.quiet (place e))
      (env (place e)) hReceives hOther
  have hRequests :
      (System.step env σ e).requests =
        σ.requests ++
          requestsOf (place e)
            ((σ.node (place e)).step (env (place e))
              ne).queue :=
    step_requests hEvent
  apply h.of_step hEvent rfl
  · rw [hRequests]
    exact hMidway.tracing.widen
      fun _ hA => mem_accepted_step env e hA
  · exact h.uploads_same hEvent rfl
      (sameSending_step _ _ hReceives)
      fun m hIs => absurd hIs (hNot m)
  · intro m d hSent
    refine ⟨hSent.get, fun hType => ?_, fun hType => ?_⟩
    · rw [hSent.packet] at hType
      rcases hMidway.queue d hSent.mem with hIs | hIs
      · rw [hIs] at hType
        cases hType
      · rw [hIs] at hType
        cases hType
    · rw [hSent.packet] at hType
      rcases hMidway.queue d hSent.mem with hIs | hIs
      · rw [hIs] at hType
        cases hType
      · rw [hIs] at hType
        cases hType

/- DATA comes to a process. -/
theorem Recorded.data
    (h : Recorded env σ)
    (hType : m.packet.header.type = typeData) :
    Recorded env (System.step env σ (.deliver m)) := by
  have hEvent := nodeEvent_data hType
  have hMore :
      σ.accepted ⊆
        (System.step env σ (.deliver m)).accepted :=
    fun _ hA => mem_accepted_step env _ hA
  have hBefore :
      Tracing σ.requests
        (System.step env σ (.deliver m)).accepted m.dest
        (σ.node m.dest).config :=
    (h.tracing m.dest).widen hMore
  have hAccepts :
      (∃ p r, Fetching (σ.node m.dest).config m.src p r) →
        Accepts σ.requests
          (System.step env σ (.deliver m)).accepted m.dest
          m.src m.packet.seq := by
    rintro ⟨p, r, hFound, hAssigned⟩ f hLast
    have hFetching :
        (fetching (σ.node m.dest) m.src).isSome := by
      unfold fetching
      rw [hFound]
      simp [hAssigned]
    rcases accepts_step env hType hFetching with
      ⟨A, hA, hFetch, hSeq⟩
    refine ⟨A, hA, ?_, hSeq⟩
    rw [hFetch]
    exact h.tagged _ _ _ hLast
  rcases hBefore.step_data (h.quiet m.dest) (env m.dest)
      hAccepts with ⟨hTracing, hQueue⟩
  have hNone :
      ∀ d ∈ ((σ.node m.dest).step (env m.dest)
          (.data m.src m.packet)).queue,
        d.packet.header.type ≠ typeGet := by
    intro d hd
    rcases hQueue d hd with ⟨k, f, rfl, _⟩
    exact (by decide : typeAck ≠ typeGet)
  have hRequests :
      (System.step env σ (.deliver m)).requests =
        σ.requests :=
    step_requests_of_no_get hEvent rfl hNone
  apply h.of_step hEvent rfl
  · rw [hRequests]
    exact hTracing
  · apply h.uploads_same hEvent rfl
      (sameSending_step _ _ trivial)
    rintro _ ⟨⟩
    rw [hType]
    decide
  · intro m' d hSent
    rcases hQueue d hSent.mem with
      ⟨k, f, rfl, hLast, hAcked⟩
    have hPacket : m'.packet = ackPacket k := hSent.packet
    have hIs : m'.packet.header.type = typeAck := by
      rw [hPacket]
      rfl
    refine ⟨hSent.get, fun hData => ?_, fun _ => ?_⟩
    · rw [hIs] at hData
      cases hData
    · have hSrc : m'.src = m.dest := hSent.src
      have hDest : m'.dest = m.src := hSent.dest
      have hTag : m'.tag = f := by
        rw [hSent.answer (by rw [hIs]; decide) hNone, hSrc,
          hDest]
        apply h.tagged.step env (.deliver m)
        rw [hRequests]
        exact hLast
      refine ⟨k, hPacket, ?_, ?_⟩
      · rw [hTag, hSrc, hDest, hRequests]
        exact hLast.sent
      · rw [hTag]
        exact hAcked

/- A pass of `peer_cc`. -/
theorem Recorded.pass
    (h : Recorded env σ)
    (a : Addr) :
    Recorded env (System.step env σ (.peerCc a)) := by
  have hEvent : nodeEvent (.peerCc a) = some .peerCc := rfl
  have hTag :
      (System.step env σ (.peerCc a)).uploadTag =
        σ.uploadTag :=
    step_uploadTag hEvent fun _ hIs => nomatch hIs
  have hCounted :
      (System.step env σ (.peerCc a)).countedTag =
        σ.countedTag :=
    step_countedTag hEvent (fun _ hIs => nomatch hIs)
      fun _ hIs => nomatch hIs
  apply h.serves hEvent id rfl
  · intro t ht
    rcases step_peerCc_uploads ⟨ht, rfl⟩ with
      ⟨s, ⟨hs, _⟩, hSame⟩
    rw [hTag, hCounted]
    exact (h.uploads a s hs).passed hSame
  · intro d hd
    rcases step_peerCc_queue hd with
      hOld | ⟨s, packet, ⟨hs, hDest⟩, hCarries, hCopy⟩
    · have hEmpty : (σ.node (place (.peerCc a))).queue = [] :=
        h.quiet a
      rw [hEmpty] at hOld
      cases hOld
    · rcases (h.uploads a s hs).carries hCarries with
        ⟨hCut, hSame⟩
      rw [hTag, hCopy, hSame, ← hDest]
      exact hCut

/- The uploads of a process after an ACK. -/
theorem Recorded.ackedFor_ack
    (h : Recorded env σ)
    {t : BtSender}
    (ht : t ∈
      ((σ.node m.dest).step (env m.dest)
        (.ack m.src m.packet)).config.upload) :
    ackedFor
        ((σ.node m.dest).step (env m.dest)
          (.ack m.src m.packet))
        ((σ.node m.dest).config.peer t.peer).addr =
      some t.lastAcked := by
  have hUploads :=
    (h.apart m.dest).step (env m.dest) (.ack m.src m.packet)
  cases hRun : (σ.node m.dest).fault with
  | some f =>
      rw [step_of_fault _ _ hRun] at ht ⊢
      exact ackedFor_of_mem (h.apart m.dest)
        (fun s hs => (h.uploads m.dest s hs).found) ht
  | none =>
      have hFound : ∀ u ∈
          ((σ.node m.dest).step (env m.dest)
            (.ack m.src m.packet)).config.upload,
          peerWithAddr
              ((σ.node m.dest).config.peer u.peer).addr
              (σ.node m.dest).config =
            some u.peer := by
        intro u hu
        rcases step_ack_uploads ⟨hu, rfl⟩ with
          ⟨s, ⟨hs, _⟩, rfl | ⟨rfl, _⟩⟩
        · exact (h.uploads m.dest u hs).found
        · rw [ackSender_peer]
          exact (h.uploads m.dest s hs).found
      rw [step_ack (env m.dest) hRun] at ht hUploads hFound ⊢
      exact ackedFor_of_mem hUploads hFound ht

/- An ACK comes to a process. -/
theorem Recorded.ack
    (h : Recorded env σ)
    (hNet : m ∈ σ.net)
    (hType : m.packet.header.type = typeAck) :
    Recorded env (System.step env σ (.deliver m)) := by
  have hEvent := nodeEvent_ack hType
  have hTag :
      (System.step env σ (.deliver m)).uploadTag =
        σ.uploadTag := by
    apply step_uploadTag hEvent
    rintro _ ⟨⟩ hGet
    rw [hType] at hGet
    cases hGet
  rcases (h.traced m hNet).ack hType with
    ⟨k, hPacket, hAcked⟩
  apply h.serves hEvent id rfl
  · intro t ht
    have hAfter := h.ackedFor_ack ht
    rcases step_ack_uploads ⟨ht, rfl⟩ with
      ⟨s, ⟨hs, _⟩, hCase⟩
    have hUpload := h.uploads m.dest s hs
    have hBefore :=
      ackedFor_of_mem (h.apart m.dest)
        (fun u hu => (h.uploads m.dest u hu).found) hs
    rw [hTag, step_countedTag_ack hType]
    change UploadFor _ _ _ (σ.uploadTag m.dest)
      (Function.update σ.countedTag m.dest _ m.dest) m.dest _
      t
    rw [Function.update_self]
    rcases hCase with rfl | ⟨rfl, p, hFound, hTo⟩
    · apply hUpload.retag rfl
      rw [hAfter, hBefore, if_pos rfl]
    · rw [ackSender_peer] at hAfter
      by_cases hSame :
          (ackSender m.packet.header.ackNum s).lastAcked =
            s.lastAcked
      · apply hUpload.ignored hSame
        rw [hAfter, hBefore, hSame, if_pos rfl]
      · have hNew :
            (ackSender m.packet.header.ackNum s).lastAcked =
              k := by
          have hLow := hAcked.accepted.low
          have hHigh := hAcked.accepted.high
          have hMax : maxSeqnum = 524288 := by decide
          rw [ackSender_lastAcked] at hSame ⊢
          split at hSame
          · next hLess =>
              rw [if_pos hLess, hPacket]
              exact toInt32_ofInt hLow (by omega)
          · exact absurd rfl hSame
        apply hUpload.raised hNet rfl _ hFound hTo
        · rw [hAfter, hBefore, if_neg]
          exact fun hEq => hSame (Option.some.inj hEq)
        · rw [hNew]
          exact hPacket
  · intro d hd
    rw [step_ack_queue, h.quiet] at hd
    cases hd

/- A GET comes to a process. -/
theorem Recorded.get
    (h : Recorded env σ)
    (hNet : m ∈ σ.net)
    (hType : m.packet.header.type = typeGet) :
    Recorded env (System.step env σ (.deliver m)) := by
  have hEvent := nodeEvent_get hType
  have hAsked := (h.traced m hNet).get hType
  have hNone :
      ∀ d ∈ (σ.node m.dest).queue,
        CutFor (env m.dest) σ.requests d.destAddr m.dest
          ((System.step env σ (.deliver m)).uploadTag m.dest
            d.destAddr) d.packet := by
    rw [h.quiet]
    exact fun d hd => absurd hd List.not_mem_nil
  rcases step_get (env m.dest) (σ.node m.dest) m.src
      m.packet with ⟨fault, hEnd⟩ | ⟨t, hUploaded, hEnd⟩
  · have hFew : ∀ m', SystemEvent.deliver m = .deliver m' →
        m'.packet.header.type = typeGet →
          ((σ.node m.dest).step (env m.dest)
              (.get m.src m.packet)).config.upload.length ≤
            (σ.node m.dest).config.upload.length := by
      intro _ _ _
      rw [hEnd]
    have hNot : ∀ m', SystemEvent.deliver m = .deliver m' →
        m'.packet.header.type ≠ typeAck := by
      rintro _ ⟨⟩
      rw [hType]
      decide
    apply h.serves hEvent id hEnd
    · intro s hs
      rw [step_uploadTag hEvent hFew,
        step_countedTag hEvent hFew hNot]
      exact h.uploads m.dest s hs
    · exact hNone
  · -- an upload is made, and the tags set to its GET
    have hMore :
        (σ.node m.dest).config.upload.length <
          ((σ.node m.dest).step (env m.dest)
            (.get m.src m.packet)).config.upload.length := by
      rw [hEnd]
      exact Nat.lt_succ_self _
    apply h.serves hEvent id hEnd
    · intro s hs
      rw [step_uploadTag_get hType hMore,
        step_countedTag_get hType hMore]
      change UploadFor _ _ _
        (Function.update σ.uploadTag m.dest _ m.dest)
        (Function.update σ.countedTag m.dest _ m.dest)
        m.dest _ s
      rw [Function.update_self, Function.update_self]
      rcases List.mem_cons.mp hs with rfl | hOld
      · apply hUploaded.uploadFor
        · rw [Function.update_self]
          exact hAsked
        · rw [Function.update_self, Function.update_self]
      · have hUpload := h.uploads m.dest s hOld
        have hOther :=
          hUploaded.elsewhere hOld hUpload.found
        apply hUpload.retag
        · exact Function.update_of_ne hOther _ _
        · exact Function.update_of_ne hOther _ _
    · exact hNone

/- Every step keeps the records right. -/
theorem Recorded.step
    (h : Recorded env σ)
    (hAllow : NoForging σ e) :
    Recorded env (System.step env σ e) := by
  cases e with
  | userGet a chunkfile outputfile =>
      exact h.receives rfl trivial (fun _ _ hIs => nomatch hIs)
        fun _ hIs => nomatch hIs
  | timeoutCheck a =>
      exact h.receives rfl trivial (fun _ _ hIs => nomatch hIs)
        fun _ hIs => nomatch hIs
  | getAllTheThingz a =>
      exact h.receives rfl trivial (fun _ _ hIs => nomatch hIs)
        fun _ hIs => nomatch hIs
  | peerCc a => exact h.pass a
  | ihave a src packet =>
      exact h.receives rfl trivial (fun _ _ hIs => nomatch hIs)
        fun _ hIs => nomatch hIs
  | deliver m =>
      by_cases hGet : m.packet.header.type = typeGet
      · exact h.get hAllow hGet
      by_cases hData : m.packet.header.type = typeData
      · exact h.data hData
      by_cases hAck : m.packet.header.type = typeAck
      · exact h.ack hAllow hAck
      rw [step_of_none]
      · exact h
      · simp [nodeEvent, hGet, hData, hAck]

end

end PeerNet

------------------------------------------------------------
-- Any Number of Transfers
------------------------------------------------------------

namespace PeerNet

open Runs PeerNet.System

/- Every process has just started, and nothing was sent. -/
structure Started
    (σ : System) : Prop where
  configured : ∀ a, Configured (σ.node a)
  net : σ.net = []
  requests : σ.requests = []
  accepted : σ.accepted = []

/-
  An upload of `a` to `b` whose counts are all its own. GET
  `o` asked for what it sends and has accepted all it counts;
  that is every packet where `peer_cc` finds it finished.
-/
structure OwnAcked
    (env : Env)
    (σ : System)
    (b a : Addr)
    (o : Nat)
    (s : BtSender) : Prop where
  packets : ∃ filechunk readBytes,
    Supplies env σ.requests b a o filechunk readBytes ∧
      s.packets =
        some ((dataPackets filechunk readBytes).map some)
  accepted : AcceptedUpTo σ.accepted o s.lastAcked
  finished : ∀ reads,
    (ccVisit env ccFuel reads s).ending = .finished →
      AcceptedUpTo σ.accepted o s.numPackets

/-
  What an upload of `a` to `b` counts as acknowledged. The
  GET of the ACK that it counted last has accepted as much;
  no other GET needs to have.
-/
structure AckedUpload
    (env : Env)
    (σ : System)
    (b a : Addr)
    (s : BtSender) : Prop where
  last :
    (s.lastAcked = 0 ∧ σ.countedTag a b = σ.uploadTag a b) ∨
      ∃ m, CountedAck σ.net a (σ.node a).config s m ∧
        σ.countedTag a b = m.tag
  accepted : ∃ q ∈ (σ.node a).config.peers,
    ((σ.node a).config.peer q).id =
        ((σ.node a).config.peer s.peer).id ∧
      Acknowledges σ.requests σ.accepted
        ((σ.node a).config.peer q).addr a (σ.countedTag a b)
        s.lastAcked
  own : σ.countedTag a b = σ.uploadTag a b →
    OwnAcked env σ b a (σ.uploadTag a b) s

section

variable {env : Addr → Env} {σ₀ σ : System} {a : Addr}
variable {s : BtSender}

theorem Started.recorded
    (h : Started σ₀) :
    Recorded env σ₀ where
  quiet := fun a => (h.configured a).queue
  tagged := by
    rintro b a f ⟨⟨hash, hSent⟩, _⟩
    rw [h.requests] at hSent
    cases hSent
  tracing := by
    intro b
    have hFree := (h.configured b).free
    constructor
    · intro p hp r chunk hAssigned _
      rw [hFree p hp] at hAssigned
      cases hAssigned
    · rintro a p r chunk ⟨hFound, hAssigned⟩ _
      rw [hFree p (mem_peers_of_peerWithAddr hFound)]
        at hAssigned
      cases hAssigned
  apart := by
    intro a
    have hNone := (h.configured a).upload
    constructor
    · intro s hs
      rw [hNone] at hs
      cases hs
    · rw [hNone]
      exact List.nodup_nil
  uploads := by
    intro a s hs
    rw [(h.configured a).upload] at hs
    cases hs
  traced := by
    intro m hm
    rw [h.net] at hm
    cases hm

theorem recorded_of_run
    (hStart : Started σ₀)
    (hRun : Reaches (step env) NoForging σ₀ σ) :
    Recorded env σ :=
  hRun.invariant hStart.recorded
    fun _ _ h hAllow => h.step hAllow

/- The ACK an upload counts says who has accepted it. -/
theorem Recorded.acknowledged
    (h : Recorded env σ)
    (hs : s ∈ (σ.node a).config.upload) :
    ∃ q ∈ (σ.node a).config.peers,
      ((σ.node a).config.peer q).id =
          ((σ.node a).config.peer s.peer).id ∧
        Acknowledges σ.requests σ.accepted
          ((σ.node a).config.peer q).addr a
          (σ.countedTag a
            ((σ.node a).config.peer s.peer).addr)
          s.lastAcked := by
  have hUpload := h.uploads a s hs
  rcases hUpload.counts with ⟨hNone, hOwn⟩ | ⟨m, hAck, hTag⟩
  · rcases hUpload.packets with
      ⟨_, _, ⟨hash, hAsked, _⟩, _⟩
    refine ⟨s.peer, mem_peers_of_peerWithAddr hUpload.found,
      rfl, ?_⟩
    rw [hNone, hOwn]
    exact ⟨⟨hash, hAsked⟩, acceptedUpTo_zero⟩
  · rcases hAck.src with ⟨q, hq, hSrc, hId⟩
    refine ⟨q, hq, hId, ?_⟩
    have hType : m.packet.header.type = typeAck := by
      rw [hAck.packet]
      rfl
    rcases (h.traced m hAck.sent).ack hType with
      ⟨k, hPacket, hAcked⟩
    have hSame : s.lastAcked = k := by
      have hLow := hAcked.accepted.low
      have hHigh := hAcked.accepted.high
      have hMax : maxSeqnum = 524288 := by decide
      have hCounter := ((h.apart a).sound s hs).counter
      have hSent := hAck.packet.symm.trans hPacket
      have hNum := congrArg
        (fun packet => toInt32 packet.header.ackNum) hSent
      exact (toInt32_ofInt_of_isInt hCounter).symm.trans
        (hNum.trans (toInt32_ofInt hLow (by omega)))
    rw [hSrc, hTag, hSame, ← hAck.dest]
    exact hAcked

/- What an upload counts by ACKs for its own GET. -/
theorem Recorded.ownAcked
    (h : Recorded env σ)
    (hs : s ∈ (σ.node a).config.upload)
    (hOwn :
      σ.countedTag a ((σ.node a).config.peer s.peer).addr =
        σ.uploadTag a
          ((σ.node a).config.peer s.peer).addr) :
    OwnAcked (env a) σ ((σ.node a).config.peer s.peer).addr a
      (σ.uploadTag a ((σ.node a).config.peer s.peer).addr)
      s := by
  rcases h.acknowledged hs with ⟨_, _, _, hAcked⟩
  rw [hOwn] at hAcked
  refine ⟨(h.uploads a s hs).packets, hAcked.accepted, ?_⟩
  intro reads hEnd
  rw [(visit_ccVisit (env a) ccFuel reads s).finished_acked
    hEnd]
  exact hAcked.accepted

/-
  An ACK was sent for a GET whose fetch has accepted all that
  it acknowledges. What an upload counts was accepted by the
  GET of the ACK that it counted last, and by its own GET
  where that ACK was sent for it.
-/
theorem acked_of_run
    (hStart : Started σ₀)
    (hRun : Reaches (step env) NoForging σ₀ σ) :
    (∀ m ∈ σ.net, m.packet.header.type = typeAck →
      ∃ k, m.packet = ackPacket k ∧
        Acknowledges σ.requests σ.accepted m.src m.dest m.tag
          k) ∧
      ∀ a, ∀ s ∈ (σ.node a).config.upload,
        AckedUpload (env a) σ
          ((σ.node a).config.peer s.peer).addr a s := by
  have h := recorded_of_run hStart hRun
  refine ⟨fun m hm => (h.traced m hm).ack, fun a s hs => ?_⟩
  exact ⟨(h.uploads a s hs).counts, h.acknowledged hs,
    fun hOwn => h.ownAcked hs hOwn⟩

end

end PeerNet

------------------------------------------------------------
-- A Late ACK
------------------------------------------------------------

namespace PeerNet

open Runs PeerNet.System

/- A process with one packet of data, and one that asks it. -/
def sharerNode : Node :=
  { onePeerNode with
    config :=
      { onePeerConfig with
        peer := fun _ => { idlePeer with addr := ⟨2, 2⟩ } }
    files :=
      { content := fun path =>
          if path = [1] then some masterText
          else if path = [2] then some oneChunkText
          else if path = [68] then some [0]
          else none
        writable := fun _ => true } }

def sharingSystem : System where
  node := fun x =>
    if x = ⟨2, 2⟩ then oneChunkNode else sharerNode
  net := []
  requests := []
  fetchTag := fun _ _ => 0
  uploadTag := fun _ _ => 0
  countedTag := fun _ _ => 0
  accepted := []

/- Whoever asks waits 20 seconds between two looks. -/
def waitingEnv
    (x : Addr) : Env :=
  if x = ⟨2, 2⟩ then
    { stillEnv with clock := fun k => 20000 * (k + 1) }
  else
    stillEnv

theorem sharingSystem_started :
    Started sharingSystem where
  configured := by
    intro a
    by_cases ha : a = ⟨2, 2⟩
    · rw [ha]
      exact oneChunkNode_configured
    · have hIs : sharingSystem.node a = sharerNode := if_neg ha
      rw [hIs]
      refine
        { onePeerNode_configured with
          distinct := ?_
          idle := fun _ _ => rfl
          free := fun _ _ => rfl
          silent := fun _ _ => rfl }
      intro p hp q hq _
      rw [List.mem_singleton.mp hp, List.mem_singleton.mp hq]
  net := rfl
  requests := rfl
  accepted := rfl

def zeroRequest
    (tag : Nat) : Message :=
  ⟨⟨2, 2⟩, ⟨1, 1⟩, getPacket (Vector.replicate 20 0), tag⟩

def zeroData : Message :=
  ⟨⟨1, 1⟩, ⟨2, 2⟩, dataPacket 1 [0], 0⟩

def staleAck : Message :=
  ⟨⟨2, 2⟩, ⟨1, 1⟩, ackPacket 1, 0⟩

/-
  The chunk is asked for, sent and acknowledged; the upload
  is finished. The process that asked waits for more bytes,
  gives up and asks again. Then the ACK comes once more.
-/
def staleAckEvents : List SystemEvent :=
  [.userGet ⟨2, 2⟩ [4] [3],
    .ihave ⟨2, 2⟩ ⟨1, 1⟩ oneChunkIhave,
    .getAllTheThingz ⟨2, 2⟩,
    .deliver (zeroRequest 0), .peerCc ⟨1, 1⟩,
    .deliver zeroData, .deliver staleAck, .peerCc ⟨1, 1⟩,
    .timeoutCheck ⟨2, 2⟩, .timeoutCheck ⟨2, 2⟩,
    .timeoutCheck ⟨2, 2⟩, .timeoutCheck ⟨2, 2⟩,
    .timeoutCheck ⟨2, 2⟩,
    .ihave ⟨2, 2⟩ ⟨1, 1⟩ oneChunkIhave,
    .getAllTheThingz ⟨2, 2⟩,
    .deliver (zeroRequest 1), .deliver staleAck]

def staleAcked : System :=
  foldSteps (step waitingEnv) sharingSystem staleAckEvents

/- Whatever is delivered there was sent before. -/
theorem staleAckEvents_allowed :
    AllAllowed (step waitingEnv) NoForging sharingSystem
      staleAckEvents := by
  decide

/- The first transfer, up to its ACK. -/
def firstAcked : System :=
  foldSteps (step waitingEnv) sharingSystem
    (staleAckEvents.take 7)

/- There the upload counts an ACK for its own GET. -/
theorem acked_of_run_first :
    ((firstAcked.node ⟨1, 1⟩).config.upload.map
          BtSender.lastAcked = [1] ∧
        firstAcked.countedTag ⟨1, 1⟩ ⟨2, 2⟩ =
          firstAcked.uploadTag ⟨1, 1⟩ ⟨2, 2⟩) ∧
      (∀ m ∈ firstAcked.net,
        m.packet.header.type = typeAck →
          ∃ k, m.packet = ackPacket k ∧
            Acknowledges firstAcked.requests
              firstAcked.accepted m.src m.dest m.tag k) ∧
        ∀ a, ∀ s ∈ (firstAcked.node a).config.upload,
          AckedUpload (waitingEnv a) firstAcked
            ((firstAcked.node a).config.peer s.peer).addr a
            s :=
  ⟨by decide,
    acked_of_run sharingSystem_started
      (reaches_take 7 staleAckEvents_allowed)⟩

/-
  The new upload counts its only packet as acknowledged,
  while the chunk that is fetched again is empty.
-/
theorem stale_ack_is_counted :
    ¬ ∀ (env : Addr → Env) (σ₀ σ : System),
      Started σ₀ → Reaches (step env) NoForging σ₀ σ →
        ∀ a b s p r chunk,
          (σ.node a).config.sendsTo b s →
            Fetching (σ.node b).config a p r →
              (σ.node b).config.chunk r = some chunk →
                chunk.hash = s.hash →
                  chunk.downloaded = true ∨
                    s.lastAcked < chunk.nextExpected := by
  intro hClaim
  have hUpload :
      (staleAcked.node ⟨1, 1⟩).config.upload.map
          (fun s => (s.hash, s.lastAcked, s.peer)) =
        [(Vector.replicate 20 0, 1, 0)] := by
    decide +kernel
  have hChunk :
      ((staleAcked.node ⟨2, 2⟩).config.chunk 0).map
          (fun chunk =>
            (chunk.hash, chunk.downloaded,
              chunk.nextExpected)) =
        some (Vector.replicate 20 0, false, 1) := by
    decide +kernel
  rcases List.map_eq_singleton_iff.mp hUpload with
    ⟨s, hOnly, hFields⟩
  rcases Option.map_eq_some_iff.mp hChunk with
    ⟨chunk, hLive, hStored⟩
  simp only [Prod.mk.injEq] at hFields hStored
  have hPeers :
      ((staleAcked.node ⟨1, 1⟩).config.peer 0).addr =
          ⟨2, 2⟩ ∧
        peerWithAddr ⟨1, 1⟩ (staleAcked.node ⟨2, 2⟩).config =
          some 0 ∧
        ((staleAcked.node ⟨2, 2⟩).config.peer 0).chunk =
          some 0 := by
    decide +kernel
  have hTo :
      (staleAcked.node ⟨1, 1⟩).config.sendsTo ⟨2, 2⟩ s := by
    refine ⟨?_, ?_⟩
    · rw [hOnly]
      exact List.mem_cons_self
    · rw [hFields.2.2, hPeers.1]
  have hFetching :
      Fetching (staleAcked.node ⟨2, 2⟩).config ⟨1, 1⟩ 0 0 :=
    ⟨hPeers.2.1, hPeers.2.2⟩
  have hSame : chunk.hash = s.hash :=
    hStored.1.trans hFields.1.symm
  rcases hClaim waitingEnv sharingSystem staleAcked
      sharingSystem_started
      (reaches_foldSteps staleAckEvents_allowed) _ _ s 0 0
      chunk hTo hFetching hLive hSame with hDone | hLess
  · rw [hStored.2.1] at hDone
    cases hDone
  · rw [hStored.2.2, hFields.2.1] at hLess
    exact absurd hLess (Int.lt_irrefl 1)

end PeerNet
