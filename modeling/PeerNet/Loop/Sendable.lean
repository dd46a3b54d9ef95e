import PeerNet.Network.Uploads
import PeerNet.Wire.Reads

/-
  The packets of a transfer are read back as they were sent.

  Whatever GET, DATA or ACK a process of the system queues
  has a head that agrees with its payload, and fits into the
  receiver's buffer. So the bytes that go over the network
  stand for that packet and for no other.

  Main declarations:
    * `Sendable`
    * `Recorded.sendable`
    * `Backed`
-/

------------------------------------------------------------
-- Packets of a Transfer
------------------------------------------------------------

namespace PeerNet

/- The types that the system model delivers as messages. -/
def Transfers
    (type : UInt8) : Prop :=
  type = typeGet ∨ type = typeData ∨ type = typeAck

/- A packet that comes through the receiver's checks. -/
structure Sendable
    (p : Packet) : Prop where
  framed : Framed p
  fits : p.buf.length ≤ maxDataSize

theorem Sendable.readPacket
    {p q : Packet}
    (h : Sendable p)
    (hRead :
      readPacket (received (encodePacket p)) =
        .ok (some q)) :
    q = p := by
  rw [h.framed.readPacket h.fits] at hRead
  exact (Option.some.inj (Except.ok.inj hRead)).symm

theorem sendable_getPacket
    (hash : Hash) :
    Sendable (getPacket hash) where
  framed :=
    { magicNum := rfl
      version := rfl
      headerLen := rfl
      packetLen := by
        change 36 = 16 + hash.toList.length
        rw [Vector.length_toList] }
  fits := by
    change hash.toList.length ≤ 1484
    rw [Vector.length_toList]
    decide

theorem sendable_ackPacket
    (ackNum : Int) :
    Sendable (ackPacket ackNum) where
  framed := framed_ackPacket ackNum
  fits := Nat.zero_le _

/- A packet of an upload. -/
theorem CutFor.sendable
    {env : Env}
    {requests : List Request}
    {b a : Addr}
    {o : Nat}
    {packet : Packet}
    (h : CutFor env requests b a o packet) :
    Sendable packet := by
  rcases h with
    ⟨filechunk, readBytes, ⟨hash, _, hRead⟩, hPacket⟩
  have hFits : readBytes ≤ filechunk.length :=
    hRead.length ▸ hRead.fits
  rw [dataPackets_eq hFits] at hPacket
  rcases mem_numbered hPacket with ⟨k, part, hPart, rfl⟩
  have hSmall : part.length ≤ maxDataSize :=
    length_le_of_mem_parts (List.mem_of_getElem? hPart)
  exact ⟨framed_wirePacket typeData _ 0 hSmall, hSmall⟩

end PeerNet

------------------------------------------------------------
-- GETs in the Queue
------------------------------------------------------------

namespace PeerNet

open Runs PeerNet.System

/- The GETs in the queue are what `send_get` makes. -/
def GetsMade
    (n : Node) : Prop :=
  ∀ d ∈ n.queue, d.packet.header.type = typeGet →
    ∃ hash, d.packet = getPacket hash

section

variable {env : Env} {call : Call} {n m : Node}
variable {d : Datagram}

theorem GetsMade.push
    (h : GetsMade n)
    (hLast : d.packet.header.type = typeGet →
      ∃ hash, d.packet = getPacket hash) :
    GetsMade (n.push d) := by
  intro d' hd' hType
  rcases List.mem_append.mp hd' with hOld | hNew
  · exact h d' hOld hType
  · rw [List.mem_singleton.mp hNew] at hType ⊢
    exact hLast hType

theorem GetsMade.move
    (h : GetsMade n)
    (hMove : Move env call n m) :
    GetsMade m := by
  cases hMove with
  | get hGet =>
      cases hGet with
      | _ => exact h
  | push _ d hType =>
      apply h.push
      intro hGet
      rw [hType] at hGet
      cases hGet
  | fetched _ p q r chunk _ _ _ _ _ _ _ =>
      unfold Node.fetch
      apply GetsMade.push h
      exact fun _ => ⟨chunk.hash, rfl⟩
  | _ => exact h

theorem getsMade_closed :
    Closed env call GetsMade where
  move _ _ h hMove := h.move hMove
  load _ _ _ _ _ _ h := h
  raise _ h := h
  halt _ _ h := h

/- DATA asks for nothing. -/
theorem GetsMade.data
    (h : GetsMade n)
    (hOwned : Owned n.config)
    (src : Addr)
    (packet : Packet) :
    GetsMade (n.step env (.data src packet)) := by
  have hClosed : Closed env .ihave GetsMade :=
    getsMade_closed
  cases hRun : n.fault with
  | some f =>
      rw [step_of_fault _ _ hRun]
      exact h
  | none =>
  rcases hOwned.step_data env src packet hRun with
    hData | ⟨p, r, f, _, _, hEnd⟩
  · apply hClosed.dataRun _ _ hData
    · intro k ackNum hk
      apply hk.push
      intro hType
      exact absurd hType (by decide : typeAck ≠ typeGet)
    · intro ack counted k hStep d hd
      rw [hStep.queue] at hd
      exact h d hd
  · rw [hEnd]
    exact h

theorem GetsMade.receives
    {e : NodeEvent}
    (h : GetsMade n)
    (env : Env)
    (hOwned : Owned n.config)
    (hReceives : e.receives) :
    GetsMade (n.step env e) := by
  apply getsMade_closed.step hReceives _ h
  rintro src packet rfl
  exact h.data hOwned src packet

end

end PeerNet

------------------------------------------------------------
-- What a Step Queues
------------------------------------------------------------

namespace PeerNet

open Runs PeerNet.System

section

variable {env : Addr → Env} {σ : System} {e : SystemEvent}
variable {ne : NodeEvent} {d : Datagram}

/- The sending side queues DATA only. -/
theorem Recorded.serves_data
    (h : Recorded env σ)
    {a : Addr}
    (hServes : ¬ ne.receives)
    (hMem : d ∈ ((σ.node a).step (env a) ne).queue) :
    d.packet.header.type = typeData := by
  have hEmpty : d ∉ (σ.node a).queue := by
    rw [h.quiet a]
    exact List.not_mem_nil
  cases ne with
  | peerCc =>
      rcases step_peerCc_queue hMem with
        hOld | ⟨s, packet, ⟨hs, _⟩, hCarries, hCopy⟩
      · exact absurd hOld hEmpty
      · rcases (h.uploads a s hs).carries hCarries with
          ⟨hCut, hSame⟩
        rw [hCopy, hSame]
        exact hCut.type
  | get src packet =>
      rcases step_get (env a) (σ.node a) src packet with
        ⟨fault, hEnd⟩ | ⟨t, _, hEnd⟩
      · rw [hEnd] at hMem
        exact absurd hMem hEmpty
      · rw [hEnd] at hMem
        exact absurd hMem hEmpty
  | ack src packet =>
      rw [step_ack_queue] at hMem
      exact absurd hMem hEmpty
  | userGet _ _ => exact absurd trivial hServes
  | timeoutCheck => exact absurd trivial hServes
  | getAllTheThingz => exact absurd trivial hServes
  | ihave _ _ => exact absurd trivial hServes
  | data _ _ => exact absurd trivial hServes

/- All of a transfer that a step queues can be sent. -/
theorem Recorded.sendable
    (h : Recorded env σ)
    (hAllow : NoForging σ e)
    (hEvent : nodeEvent e = some ne)
    (hMem : d ∈
      ((σ.node (place e)).step (env (place e)) ne).queue)
    (hType : Transfers d.packet.header.type) :
    Sendable d.packet := by
  rcases step_carries hEvent hMem with ⟨m, hNet, _, _, hIs⟩
  have hTraced := (h.step hAllow).traced m hNet
  rcases hType with hGet | hData | hAck
  · by_cases hReceives : ne.receives
    · have hBefore : GetsMade (σ.node (place e)) := by
        intro d' hd'
        rw [h.quiet] at hd'
        cases hd'
      have hMade := hBefore.receives (env (place e))
        (h.tracing _).owned hReceives
      rcases hMade d hMem hGet with ⟨hash, hPacket⟩
      rw [hPacket]
      exact sendable_getPacket hash
    · have hData := h.serves_data hReceives hMem
      rw [hData] at hGet
      cases hGet
  · rw [← hIs] at hData ⊢
    exact (hTraced.data hData).sendable
  · rw [← hIs] at hAck
    rcases hTraced.ack hAck with ⟨k, hPacket, _⟩
    rw [← hIs, hPacket]
    exact sendable_ackPacket k

end

end PeerNet

------------------------------------------------------------
-- Bytes and Messages
------------------------------------------------------------

namespace PeerNet

open Runs PeerNet.System

/-
  What a peer reads from the bytes as part of a transfer is
  a message that the network carries.
-/
def Backed
    (net : List Message)
    (src dest : Addr)
    (bytes : Bytes) : Prop :=
  ∀ p, readPacket (received bytes) = .ok (some p) →
    Transfers p.header.type →
      ∃ tag, ⟨src, dest, p, tag⟩ ∈ net

theorem Backed.mono
    {net net' : List Message}
    {src dest : Addr}
    {bytes : Bytes}
    (h : Backed net src dest bytes)
    (hMore : net ⊆ net') :
    Backed net' src dest bytes := by
  intro p hRead hType
  rcases h p hRead hType with ⟨tag, hNet⟩
  exact ⟨tag, hMore hNet⟩

/- Whatever is read, its head is the one that was sent. -/
theorem header_of_readPacket
    {p q : Packet}
    (hRead :
      readPacket (received (encodePacket p)) =
        .ok (some q)) :
    q.header = p.header := by
  have hTaken :
      received (encodePacket p) =
        encodeHead p.header ++ p.buf.take (bufLen - 16) := by
    unfold received encodePacket
    rw [List.take_append, length_encodeHead,
      List.take_of_length_le]
    rw [length_encodeHead]
    decide
  rw [(readPacket_eq_some.mp hRead).header, hTaken,
    decodeHead_encodeHead]

/- Packets of other types are not messages. -/
theorem backed_of_type
    {net : List Message}
    {src dest : Addr}
    {p : Packet}
    (hOther : ¬ Transfers p.header.type) :
    Backed net src dest (encodePacket p) := by
  intro q hRead hType
  rw [header_of_readPacket hRead] at hType
  exact absurd hType hOther

section

variable {env : Addr → Env} {σ : System} {e : SystemEvent}
variable {ne : NodeEvent} {d : Datagram}

/- The bytes of what a step queues. -/
theorem Recorded.backed
    (h : Recorded env σ)
    (hAllow : NoForging σ e)
    (hEvent : nodeEvent e = some ne)
    (hMem : d ∈
      ((σ.node (place e)).step (env (place e)) ne).queue) :
    Backed (System.step env σ e).net (place e) d.destAddr
      (encodePacket d.packet) := by
  intro p hRead hType
  rw [header_of_readPacket hRead] at hType
  have hIs :=
    (h.sendable hAllow hEvent hMem hType).readPacket hRead
  rcases step_carries hEvent hMem with
    ⟨⟨src, dest, packet, tag⟩, hNet, rfl, rfl, rfl⟩
  exact ⟨tag, hIs ▸ hNet⟩

end

end PeerNet
