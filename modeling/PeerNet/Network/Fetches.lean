import PeerNet.Network.Requests
import PeerNet.Packets.Restart
import PeerNet.Wire.Listing

/-
  The fetches of a process and the GETs they belong to.

  What a chunk pointer of a process points to is the chunk
  of the last GET it sent to that peer. The packet list of
  the chunk is a reassembly buffer, and each of its slots
  was filled by DATA that this fetch has accepted. So an ACK
  tells of DATA that the fetch has accepted, whatever chunk
  that DATA was cut from.

  Main declarations:
    * `Collected`
    * `Current`
    * `Tracing`
    * `Tracing.move`
    * `Tracing.data`
-/

------------------------------------------------------------
-- Chunks and Their Fetches
------------------------------------------------------------

namespace PeerNet

open Reassembly

/- The packet list is a buffer of what the fetch accepted. -/
structure Collected
    (accepted : List Accepted)
    (f : Nat)
    (chunk : BtChunk)
    (slots : List (Option Bytes)) : Prop where
  packets : chunk.packets = .live (nodesOf slots)
  nextExpected :
    chunk.nextExpected = (firstGap slots : Nat) + 1
  few : (slots.length : Int) ≤ maxSeqnum
  accepted : ∀ i, (content slots i).isSome →
    ∃ A ∈ accepted, A.fetch = f ∧
      A.seqNum = ((i + 1 : Nat) : Int)

/- Or it was freed. -/
def Collects
    (accepted : List Accepted)
    (f : Nat)
    (chunk : BtChunk) : Prop :=
  chunk.packets = .freed ∨
    ∃ slots, Collected accepted f chunk slots

/- The chunk is what `b` asked `a` for last, by request `f`. -/
structure Current
    (requests : List Request)
    (accepted : List Accepted)
    (b a : Addr)
    (chunk : BtChunk)
    (f : Nat) : Prop where
  last : IsLast requests b a f
  asked : requests[f]? = some ⟨b, a, chunk.hash⟩
  collects : Collects accepted f chunk

/- What the chunk pointers of a process point to. -/
structure Tracing
    (requests : List Request)
    (accepted : List Accepted)
    (b : Addr)
    (c : BtConfig) : Prop where
  owned : Owned c
  current : ∀ a p r chunk, Fetching c a p r →
    c.chunk r = some chunk →
      ∃ f, Current requests accepted b a chunk f

section

variable {a b dest src : Addr} {n m : Node} {f : Nat}
variable {requests later : List Request}
variable {accepted more : List Accepted}
variable {chunk chunk' : BtChunk} {c c' : BtConfig}
variable {slots : List (Option Bytes)} {p : PeerRef}
variable {r : ChunkRef}

theorem Collected.mono
    (h : Collected accepted f chunk slots)
    (hMore : accepted ⊆ more) :
    Collected more f chunk slots where
  packets := h.packets
  nextExpected := h.nextExpected
  few := h.few
  accepted := by
    intro i hFilled
    rcases h.accepted i hFilled with ⟨A, hA, hRest⟩
    exact ⟨A, hMore hA, hRest⟩

theorem Collects.mono
    (h : Collects accepted f chunk)
    (hMore : accepted ⊆ more) :
    Collects more f chunk := by
  rcases h with hFreed | ⟨slots, hCollected⟩
  · exact .inl hFreed
  · exact .inr ⟨slots, hCollected.mono hMore⟩

/- An empty list holds nothing. -/
theorem Collects.empty
    (hEmpty : chunk.packets = .live [])
    (hNext : chunk.nextExpected = initSeqnum) :
    Collects accepted f chunk := by
  refine .inr ⟨[], hEmpty, hNext, by decide, ?_⟩
  intro i hFilled
  rw [content_nil] at hFilled
  cases hFilled

/- Only the list and what is expected matter. -/
theorem Collects.congr
    (h : Collects accepted f chunk)
    (hPackets : chunk'.packets = chunk.packets)
    (hNext : chunk'.nextExpected = chunk.nextExpected) :
    Collects accepted f chunk' := by
  rcases h with hFreed | ⟨slots, hCollected⟩
  · exact .inl (hPackets.trans hFreed)
  · exact .inr ⟨slots, hPackets.trans hCollected.packets,
      hNext.trans hCollected.nextExpected, hCollected.few,
      hCollected.accepted⟩

/- What a move leaves of a chunk that is fetched. -/
structure Retained
    (chunk chunk' : BtChunk) : Prop where
  hash : chunk'.hash = chunk.hash
  packets : chunk'.packets = chunk.packets
  nextExpected : chunk'.nextExpected = chunk.nextExpected

theorem Retained.refl
    (chunk : BtChunk) :
    Retained chunk chunk :=
  ⟨rfl, rfl, rfl⟩

theorem Current.retained
    (h : Current requests accepted b a chunk f)
    (hSame : Retained chunk chunk') :
    Current requests accepted b a chunk' f where
  last := h.last
  asked := by
    rw [hSame.hash]
    exact h.asked
  collects := h.collects.congr hSame.packets
    hSame.nextExpected

/- Requests to others and more that was accepted. -/
theorem Current.append
    (h : Current requests accepted b a chunk f)
    (hOther : ∀ q ∈ later, ¬ (q.src = b ∧ q.dest = a))
    (hMore : accepted ⊆ more) :
    Current (requests ++ later) more b a chunk f where
  last := (isLast_append hOther).mpr h.last
  asked := getElem?_append_of_some h.asked
  collects := h.collects.mono hMore

/- The requests of other processes change nothing. -/
theorem Tracing.append
    (h : Tracing requests accepted b c)
    (hOther : ∀ q ∈ later, q.src ≠ b)
    (hMore : accepted ⊆ more) :
    Tracing (requests ++ later) more b c where
  owned := h.owned
  current := by
    intro a p r chunk hFetching hLive
    rcases h.current a p r chunk hFetching hLive with
      ⟨f, hCurrent⟩
    exact ⟨f, hCurrent.append
      (fun q hq hIs => hOther q hq hIs.1) hMore⟩

theorem Tracing.widen
    (h : Tracing requests accepted b c)
    (hMore : accepted ⊆ more) :
    Tracing requests more b c := by
  have hSame : Tracing (requests ++ []) more b c :=
    h.append (fun q hq => absurd hq List.not_mem_nil) hMore
  rw [List.append_nil] at hSame
  exact hSame

/- Fewer pointers, to chunks that hold the same. -/
theorem Tracing.mono
    (h : Tracing requests accepted b c)
    (hOwned : Owned c')
    (hBefore : ∀ a p r chunk', Fetching c' a p r →
      c'.chunk r = some chunk' →
        Fetching c a p r ∧
          ∃ chunk, c.chunk r = some chunk ∧
            Retained chunk chunk') :
    Tracing requests accepted b c' where
  owned := hOwned
  current := by
    intro a p r chunk' hFetching hLive
    rcases hBefore a p r chunk' hFetching hLive with
      ⟨hFetching', chunk, hLive', hSame⟩
    rcases h.current a p r chunk hFetching' hLive' with
      ⟨f, hCurrent⟩
    exact ⟨f, hCurrent.retained hSame⟩

/- The same addresses, pointers and chunks. -/
theorem Tracing.same
    (h : Tracing requests accepted b c)
    (hPeers : c'.peers = c.peers)
    (hPeer : c'.peer = c.peer)
    (hChunk : c'.chunk = c.chunk) :
    Tracing requests accepted b c' := by
  apply h.mono
  · intro p hp r chunk hAssigned hLive
    rw [hPeers] at hp
    rw [hPeer] at hAssigned
    rw [hChunk] at hLive
    exact h.owned p hp r chunk hAssigned hLive
  · rintro a p r chunk' ⟨hFound, hAssigned⟩ hLive
    rw [hChunk] at hLive
    refine ⟨⟨?_, ?_⟩, chunk', hLive, .refl _⟩
    · rw [← hFound]
      exact (peerWithAddr_congr hPeers
        (fun q => by rw [hPeer]) a).symm
    · rw [← hPeer]
      exact hAssigned

end

end PeerNet

------------------------------------------------------------
-- The Moves of the Receiver
------------------------------------------------------------

namespace PeerNet

open Reassembly

section

variable {e : Env} {a b dest : Addr} {call : Call}
variable {requests : List Request} {accepted : List Accepted}
variable {chunk : BtChunk} {f : Nat} {c c' : BtConfig}
variable {p : PeerRef} {r : ChunkRef} {n m : Node}

theorem Tracing.setPeer
    (h : Tracing requests accepted b c)
    (p : PeerRef)
    (g : BtPeer → BtPeer)
    (hAddr : ∀ peer, (g peer).addr = peer.addr)
    (hChunk : ∀ peer, (g peer).chunk = peer.chunk) :
    Tracing requests accepted b (c.setPeer p g) := by
  apply h.mono (h.owned.setPeer p g hChunk)
  rintro a q r chunk' ⟨hFound, hAssigned⟩ hLive
  refine ⟨⟨?_, ?_⟩, chunk', hLive, .refl _⟩
  · rw [← hFound]
    apply Eq.symm
    apply peerWithAddr_congr
    · rfl
    · intro s
      by_cases hs : s = p
      · subst hs
        simp [hAddr]
      · simp [hs]
  · by_cases hq : q = p
    · subst hq
      rw [BtConfig.setPeer_peer, Function.update_self,
        hChunk] at hAssigned
      exact hAssigned
    · simpa [hq] using hAssigned

theorem Tracing.setChunk
    (h : Tracing requests accepted b c)
    (r : ChunkRef)
    (g : BtChunk → BtChunk)
    (hPeer : ∀ chunk, (g chunk).peer = chunk.peer)
    (hSame : ∀ chunk, Retained chunk (g chunk)) :
    Tracing requests accepted b (c.setChunk r g) := by
  apply h.mono (h.owned.setChunk r g fun chunk _ => hPeer chunk)
  rintro a q s chunk' ⟨hFound, hAssigned⟩ hLive
  refine ⟨⟨hFound, hAssigned⟩, ?_⟩
  by_cases hs : s = r
  · subst hs
    simp only [BtConfig.setChunk_chunk,
      Function.update_self, Option.map_eq_some_iff] at hLive
    rcases hLive with ⟨chunk, hOld, rfl⟩
    exact ⟨chunk, hOld, hSame chunk⟩
  · have hOld : c.chunk s = some chunk' := by
      simpa [hs] using hLive
    exact ⟨chunk', hOld, .refl _⟩

/- One peer lets go of its chunk, whatever becomes of it. -/
theorem Tracing.unlink
    (h : Tracing requests accepted b c)
    (hOwned : Owned c')
    (hListed : p ∈ c.peers)
    (hPointed : (c.peer p).chunk = some r)
    (hFound : ∀ a, peerWithAddr a c' = peerWithAddr a c)
    (hNone : (c'.peer p).chunk = none)
    (hPeer : ∀ q, q ≠ p → c'.peer q = c.peer q)
    (hChunk : ∀ s, s ≠ r → c'.chunk s = c.chunk s)
    (hLive : (c'.chunk r).isSome → (c.chunk r).isSome) :
    Tracing requests accepted b c' := by
  apply h.mono hOwned
  rintro a q s chunk' ⟨hFrom, hAssigned⟩ hLive'
  have hq : q ≠ p := by
    rintro rfl
    rw [hNone] at hAssigned
    cases hAssigned
  rw [hFound] at hFrom
  rw [hPeer q hq] at hAssigned
  have hs : s ≠ r := by
    rintro rfl
    rcases Option.isSome_iff_exists.mp
      (hLive (by rw [hLive']; rfl)) with ⟨chunk, hOld⟩
    exact hq (h.owned.unique
      (mem_peers_of_peerWithAddr hFrom) hListed hOld
      hAssigned hPointed)
  rw [hChunk s hs] at hLive'
  exact ⟨⟨hFrom, hAssigned⟩, chunk', hLive', .refl _⟩

/- A new fetch is the current one of its peer. -/
theorem Tracing.fetch
    (h : Tracing requests accepted b n.config)
    (hOwned : Owned (n.fetch e p r chunk dest).config)
    (hFound : peerWithAddr dest n.config = some p)
    (hLive : n.config.chunk r = some chunk)
    (hFree : chunk.peer = none) :
    Tracing (requests ++ [⟨b, dest, chunk.hash⟩]) accepted b
      (n.fetch e p r chunk dest).config where
  owned := hOwned
  current := by
    rintro a q s chunk' ⟨hFrom, hAssigned⟩ hLive'
    rw [fetch_peerWithAddr] at hFrom
    by_cases hq : q = p
    · subst hq
      have hDest : dest = a := by
        rw [← addr_of_peerWithAddr hFound,
          addr_of_peerWithAddr hFrom]
      have hs : r = s := by
        simpa [Node.fetch, BtConfig.fetch, BtConfig.assign]
          using hAssigned
      subst hDest
      subst hs
      have hNew : chunk.fetched q = chunk' := by
        simpa [Node.fetch, BtConfig.fetch, BtConfig.assign,
          hLive, BtChunk.fetched] using hLive'
      subst hNew
      refine ⟨requests.length, isLast_concat _ _ _ _, ?_,
        .empty rfl rfl⟩
      simp [BtChunk.fetched]
    · have hBefore : (n.config.peer q).chunk = some s := by
        simpa [Node.fetch, BtConfig.fetch, BtConfig.assign,
          hq] using hAssigned
      have hs : s ≠ r := by
        rintro rfl
        have hBack := h.owned q
          (mem_peers_of_peerWithAddr hFrom) s chunk hBefore
          hLive
        rw [hFree] at hBack
        cases hBack
      have hOld : n.config.chunk s = some chunk' := by
        simpa [Node.fetch, BtConfig.fetch, BtConfig.assign,
          hs] using hLive'
      rcases h.current a q s chunk' ⟨hFrom, hBefore⟩ hOld
        with ⟨f, hCurrent⟩
      refine ⟨f, hCurrent.append ?_ (List.Subset.refl _)⟩
      intro q' hq' hIs
      rw [List.mem_singleton.mp hq'] at hIs
      rw [← hIs.2, hFound] at hFrom
      exact hq (Option.some.inj hFrom).symm

/- After a user GET no peer points to a chunk. -/
theorem Tracing.load
    (chunkfile outputfile : Path)
    (items : List Item)
    (c : BtConfig) :
    Tracing requests accepted b
      (c.load chunkfile outputfile items) where
  owned := Owned.load chunkfile outputfile items c
  current := by
    rintro a p r chunk ⟨hFound, hAssigned⟩ _
    have hListed := mem_peers_of_peerWithAddr hFound
    rw [(SameSending.load chunkfile outputfile items _).peers]
      at hListed
    have hNone :=
      load_peer_chunk chunkfile outputfile items hListed
    cases hNone.symm.trans hAssigned

/-
  In the middle of a step: the GETs in the queue count, and
  there are only announcements besides them.
-/
structure Midway
    (requests : List Request)
    (accepted : List Accepted)
    (b : Addr)
    (n : Node) : Prop where
  tracing :
    Tracing (requests ++ requestsOf b n.queue) accepted b
      n.config
  queue : ∀ d ∈ n.queue,
    d.packet.header.type = typeWhohas ∨
      d.packet.header.type = typeGet

/- An update of the configuration. -/
theorem Midway.onConfig
    {g : BtConfig → BtConfig}
    (h : Midway requests accepted b n)
    (hTracing :
      Tracing (requests ++ requestsOf b n.queue) accepted b
        (g n.config)) :
    Midway requests accepted b (n.onConfig g) :=
  ⟨hTracing, h.queue⟩

/- Another announcement in the queue. -/
theorem Midway.announce
    {d : Datagram}
    (h : Midway requests accepted b n)
    (hType : d.packet.header.type = typeWhohas) :
    Midway requests accepted b (n.push d) := by
  have hNone : requestsOf b [d] = [] := by
    apply requestsOf_eq_nil
    intro d' hd'
    rw [List.mem_singleton.mp hd', hType]
    decide
  constructor
  · rw [Node.push_queue, requestsOf_append, hNone,
      List.append_nil]
    exact h.tracing
  · intro d' hd'
    rcases List.mem_append.mp hd' with hOld | hLast
    · exact h.queue d' hOld
    · rw [List.mem_singleton.mp hLast]
      exact .inl hType

/- A GET goes behind those of the queue. -/
theorem Midway.fetch
    (h : Midway requests accepted b n)
    (e : Env)
    (hOwned : Owned (n.fetch e p r chunk dest).config)
    (hFound : peerWithAddr dest n.config = some p)
    (hLive : n.config.chunk r = some chunk)
    (hFree : chunk.peer = none) :
    Midway requests accepted b (n.fetch e p r chunk dest) := by
  have hQueue :
      (n.fetch e p r chunk dest).queue =
        n.queue ++ [⟨getPacket chunk.hash, dest⟩] :=
    rfl
  constructor
  · rw [hQueue, requestsOf_append, requestsOf_get rfl,
      hashOfBytes_getPacket, ← List.append_assoc]
    exact h.tracing.fetch hOwned hFound hLive hFree
  · intro d hd
    rw [hQueue] at hd
    rcases List.mem_append.mp hd with hOld | hLast
    · exact h.queue d hOld
    · rw [List.mem_singleton.mp hLast]
      exact .inr rfl

/- Every move of the receiver keeps the records right. -/
theorem Midway.move
    (h : Midway requests accepted b n)
    (hMove : Move e call n m) :
    Midway requests accepted b m := by
  have hOwned := h.tracing.owned.move hMove
  cases hMove with
  | get hGet =>
      cases hGet with
      | dropped _ =>
          apply h.onConfig
          apply h.tracing.mono hOwned
          rintro a p r chunk ⟨hFound, hAssigned⟩ hLive
          simp only [Node.onConfig_config,
            BtConfig.dropDownload_chunk] at hLive
          split at hLive
          · cases hLive
          · exact ⟨⟨hFound, hAssigned⟩, chunk, hLive,
              .refl _⟩
      | _ => exact ⟨h.tracing, h.queue⟩
  | tick => exact ⟨h.tracing, h.queue⟩
  | whohas now =>
      exact h.onConfig (h.tracing.same rfl rfl rfl)
  | push _ d hType => exact h.announce hType
  | counted _ cur _ _ =>
      apply h.onConfig
      exact h.tracing.setPeer cur _ (fun _ => rfl)
        fun _ => rfl
  | gaveUp _ cur r chunk packets now hCur hAssigned hLive _ =>
      apply h.onConfig
      apply h.tracing.unlink hOwned hCur hAssigned
      · intro a
        apply peerWithAddr_congr
        · rfl
        · intro q
          by_cases hq : q = cur
          · subst hq
            simp [BtConfig.giveUp]
          · simp [BtConfig.giveUp, hq]
      · simp [BtConfig.giveUp]
      · intro q hq
        simp [BtConfig.giveUp, hq]
      · intro s hs
        simp [BtConfig.giveUp, hs]
      · intro _
        rw [hLive]
        rfl
  | fetched _ p q r chunk _ hLive _ hFree _ _ hFound =>
      exact h.fetch e hOwned hFound hLive hFree
  | cleared _ p _ =>
      apply h.onConfig
      exact h.tracing.setPeer p _ (fun _ => rfl)
        fun _ => rfl
  | announced _ r p _ _ =>
      apply h.onConfig
      exact h.tracing.setChunk r _ (fun _ => rfl)
        fun _ => ⟨rfl, rfl, rfl⟩
  | loaded _ chunkfile outputfile items _ _ =>
      exact h.onConfig (.load chunkfile outputfile items _)

/- So does every call of the receiver but DATA. -/
theorem midway_closed :
    Closed e call (Midway requests accepted b) where
  move _ _ h hMove := h.move hMove
  load _ chunkfile outputfile items _ _ h :=
    h.onConfig (.load chunkfile outputfile items _)
  raise _ h := h.onConfig (h.tracing.same rfl rfl rfl)
  halt _ _ h := ⟨h.tracing, h.queue⟩

end

end PeerNet

------------------------------------------------------------
-- DATA of a Fetch
------------------------------------------------------------

namespace PeerNet

open Reassembly

/- The fetch has accepted DATA with all numbers up to `k`. -/
structure AcceptedUpTo
    (accepted : List Accepted)
    (f : Nat)
    (k : Int) : Prop where
  low : 0 ≤ k
  high : k ≤ maxSeqnum
  all : ∀ i, 1 ≤ i → i ≤ k →
    ∃ A ∈ accepted, A.fetch = f ∧ A.seqNum = i

/- Whatever `b` fetches from `src` now has accepted `seqNum`. -/
def Accepts
    (requests : List Request)
    (accepted : List Accepted)
    (b src : Addr)
    (seqNum : Int) : Prop :=
  ∀ f, IsLast requests b src f →
    ∃ A ∈ accepted, A.fetch = f ∧ A.seqNum = seqNum

section

variable {e : Env} {b src : Addr} {f : Nat} {k : Int}
variable {requests : List Request}
variable {accepted more : List Accepted}
variable {n m : Node} {packet : Packet} {p q : PeerRef}
variable {r : ChunkRef} {chunk new : BtChunk}
variable {nodes : List BtPacket} {c : BtConfig}
variable {slots : List (Option Bytes)} {ack : Option Int}
variable {counted : Bool}

theorem AcceptedUpTo.mono
    (h : AcceptedUpTo accepted f k)
    (hMore : accepted ⊆ more) :
    AcceptedUpTo more f k where
  low := h.low
  high := h.high
  all := by
    intro i hLow hHigh
    rcases h.all i hLow hHigh with ⟨A, hA, hRest⟩
    exact ⟨A, hMore hA, hRest⟩

/- Nothing is acknowledged at first. -/
theorem acceptedUpTo_zero :
    AcceptedUpTo accepted f 0 where
  low := Int.le_refl _
  high := by decide
  all := by
    intro i hLow hHigh
    omega

/- `next_expected` is behind the filled prefix. -/
theorem BtChunk.take_nextExpected
    (hNext :
      chunk.nextExpected = (firstGap slots : Nat) + 1)
    (hLow : initSeqnum ≤ packet.seq) :
    (chunk.take (nodesOf slots) packet).nextExpected =
      (firstGap (putPacket slots packet) : Nat) + 1 := by
  have hStore := storePacket_packet slots hLow
  unfold BtChunk.take addPacketList
  by_cases hFilled : (content slots packet.slot).isSome
  · rw [if_pos hFilled] at hStore
    simp only [hStore]
    rw [putPacket_of_content hFilled]
    exact hNext
  · rw [if_neg hFilled] at hStore
    have hPrefix := lastGottenUpto_nodesFrom 0
      (putPacket slots packet)
    rw [Nat.zero_add] at hPrefix
    simp only [hStore]
    simpa using hPrefix

/- A packet that is taken is one more that was accepted. -/
theorem Collected.take
    (h : Collected accepted f chunk slots)
    (hLow : initSeqnum ≤ packet.seq)
    (hHigh : packet.seq ≤ maxSeqnum)
    (hAccepted :
      ∃ A ∈ accepted, A.fetch = f ∧ A.seqNum = packet.seq) :
    Collected accepted f
      (chunk.take (nodesOf slots) packet)
      (putPacket slots packet) where
  packets := by
    rw [BtChunk.take_packets h.packets,
      storedNodes_nodesOf slots hLow]
  nextExpected :=
    BtChunk.take_nextExpected h.nextExpected hLow
  few := by
    have hFew := h.few
    have hSeq := Packet.seq_eq hLow
    unfold putPacket
    rw [length_put]
    omega
  accepted := by
    intro i hFilled
    rcases Option.isSome_iff_exists.mp hFilled with
      ⟨payload, hContent⟩
    rcases content_put_cases hContent with
      hOld | ⟨hSlot, _, _⟩
    · apply h.accepted i
      rw [hOld]
      rfl
    · rw [hSlot, ← Packet.seq_eq hLow]
      exact hAccepted

/- An ACK of the chunk tells of what was accepted. -/
theorem Collected.acked
    (h : Collected accepted f chunk slots) :
    AcceptedUpTo accepted f chunk.ackNum where
  low := by
    unfold BtChunk.ackNum
    rw [h.nextExpected]
    omega
  high := by
    have hFew := h.few
    have hLe := firstGap_le_length slots
    unfold BtChunk.ackNum
    rw [h.nextExpected]
    omega
  all := by
    intro i hLow hHigh
    unfold BtChunk.ackNum at hHigh
    rw [h.nextExpected] at hHigh
    have hFilled :
        (content slots (i - 1).toNat).isSome :=
      isSome_of_lt_firstGap (by omega)
    have hIs : (((i - 1).toNat + 1 : Nat) : Int) = i := by
      omega
    rw [← hIs]
    exact h.accepted _ hFilled

/- What the chunk is after a packet, and what is answered. -/
theorem Tracing.taken
    (h : Tracing requests accepted b c)
    (hAccepts :
      Accepts requests accepted b src packet.seq)
    (hTaking : Taking c src packet p r chunk nodes) :
    ∃ f,
      Current requests accepted b src
          (chunk.take nodes packet) f ∧
        AcceptedUpTo accepted f
          (chunk.take nodes packet).ackNum := by
  rcases h.current src p r chunk hTaking.toFetching
      hTaking.live with ⟨f, hCurrent⟩
  rcases hCurrent.collects with
    hFreed | ⟨slots, hCollected⟩
  · cases hFreed.symm.trans hTaking.packets
  · have hNodes : nodes = nodesOf slots :=
      BtPackets.live.inj
        (hTaking.packets.symm.trans hCollected.packets)
    subst hNodes
    have hTaken :=
      hCollected.take hTaking.low hTaking.high
        (hAccepts f hCurrent.last)
    refine ⟨f, ⟨hCurrent.last, ?_, .inr ⟨_, hTaken⟩⟩,
      hTaken.acked⟩
    rw [BtChunk.take_hash]
    exact hCurrent.asked

/- The chunk of a fetch is another now. -/
theorem Tracing.store
    (h : Tracing requests accepted b c)
    (hFetching : Fetching c src p r)
    (hLive : c.chunk r = some chunk)
    (hPeer : new.peer = chunk.peer)
    (hCurrent : Current requests accepted b src new f) :
    Tracing requests accepted b
      (c.setChunk r fun _ => new) where
  owned := by
    apply h.owned.setChunk r
    intro chunk' hLive'
    have hSame : chunk = chunk' :=
      Option.some.inj (hLive.symm.trans hLive')
    rw [← hSame]
    exact hPeer
  current := by
    rintro a q s chunk' ⟨hFound, hAssigned⟩ hLive'
    by_cases hs : s = r
    · subst hs
      have hq : q = p :=
        h.owned.unique (mem_peers_of_peerWithAddr hFound)
          (mem_peers_of_peerWithAddr hFetching.found) hLive
          hAssigned hFetching.assigned
      subst hq
      have hFrom : peerWithAddr a c = some q := hFound
      have ha : a = src := by
        rw [← addr_of_peerWithAddr hFrom,
          addr_of_peerWithAddr hFetching.found]
      have hNew : new = chunk' := by
        simpa [hLive] using hLive'
      rw [ha, ← hNew]
      exact ⟨f, hCurrent⟩
    · have hOld : c.chunk s = some chunk' := by
        simpa [hs] using hLive'
      exact h.current a q s chunk' ⟨hFound, hAssigned⟩ hOld

theorem Tracing.heard
    (h : Tracing requests accepted b n.config)
    (e : Env)
    (p : PeerRef) :
    Tracing requests accepted b (n.heard e p).config := by
  change
    Tracing requests accepted b
      (n.config.heardData p (e.clock n.reads))
  exact h.setPeer p _ (fun _ => rfl) fun _ => rfl

theorem Tracing.kept
    (h : Tracing requests accepted b n.config)
    (e : Env)
    (hTaking : Taking n.config src packet p r chunk nodes)
    (hCurrent :
      Current requests accepted b src
        (chunk.take nodes packet) f) :
    Tracing requests accepted b
      ((n.heard e p).keep r
        (chunk.take nodes packet)).config := by
  have hFetching : Fetching (n.heard e p).config src p r := by
    refine ⟨?_, ?_⟩
    · rw [heard_peerWithAddr]
      exact hTaking.found
    · rw [heard_peer_chunk]
      exact hTaking.assigned
  exact (h.heard e p).store hFetching hTaking.live
    (BtChunk.take_peer _ _ _) hCurrent

theorem Tracing.filled
    (h : Tracing requests accepted b n.config)
    (e : Env)
    (hFilling :
      Filling n.config src packet p q r chunk nodes)
    (hCurrent :
      Current requests accepted b src
        (chunk.take nodes packet) f) :
    Tracing requests accepted b
      (n.filled e packet p q r chunk nodes).config := by
  have hTaking := hFilling.toTaking
  have hKept := h.kept e hTaking hCurrent
  have hSame : q = p :=
    Option.some.inj
      (hFilling.owner.symm.trans (h.owned.taking hTaking))
  subst hSame
  apply hKept.unlink (h.owned.filled hFilling)
    (p := q) (r := r)
  · have hListed := mem_peers_of_peerWithAddr hTaking.found
    exact hListed
  · change ((n.heard e q).config.peer q).chunk = some r
    rw [heard_peer_chunk]
    exact hTaking.assigned
  · intro a
    unfold Node.filled
    rw [release_peerWithAddr]
  · exact filled_peer_chunk
  · intro s hs
    simp [Node.filled, Node.release, hs]
  · intro s hs
    simp [Node.filled, Node.release, hs]
  · intro hLive
    simpa [Node.filled, Node.release] using hLive

/-
  Every way through `process_data`: the records stay right,
  and an ACK tells of what the current fetch has accepted.
-/
theorem Tracing.data
    (h : Tracing requests accepted b n.config)
    (hAccepts : (∃ p r, Fetching n.config src p r) →
      Accepts requests accepted b src packet.seq)
    (hStep : DataStep e src packet n ack counted m) :
    Tracing requests accepted b m.config ∧
      ∀ k, ack = some k →
        ∃ f, IsLast requests b src f ∧
          AcceptedUpTo accepted f k := by
  have hTaken :
      ∀ {p r chunk nodes},
        Taking n.config src packet p r chunk nodes →
          ∃ f,
            Current requests accepted b src
                (chunk.take nodes packet) f ∧
              AcceptedUpTo accepted f
                (chunk.take nodes packet).ackNum :=
    fun hTaking =>
      h.taken (hAccepts ⟨_, _, hTaking.toFetching⟩) hTaking
  cases hStep with
  | ignored _ => exact ⟨h, fun _ hAck => nomatch hAck⟩
  | refused p r _ _ =>
      exact ⟨h.heard e p, fun _ hAck => nomatch hAck⟩
  | stored p r chunk nodes hTaking _ =>
      rcases hTaken hTaking with ⟨f, hCurrent, hAcked⟩
      refine ⟨h.kept e hTaking hCurrent, ?_⟩
      rintro _ ⟨⟩
      exact ⟨f, hCurrent.last, hAcked⟩
  | stopped p q r chunk nodes g f hFilling _ =>
      rcases hTaken hFilling.toTaking with ⟨f, hCurrent, _⟩
      exact ⟨h.filled e hFilling hCurrent,
        fun _ hAck => nomatch hAck⟩
  | rejected p q r chunk nodes hFilling _ =>
      rcases hTaken hFilling.toTaking with
        ⟨f, hCurrent, hAcked⟩
      refine ⟨h.filled e hFilling hCurrent, ?_⟩
      rintro _ ⟨⟩
      exact ⟨f, hCurrent.last, hAcked⟩
  | unrecorded p q r chunk nodes hFilling _ _ =>
      rcases hTaken hFilling.toTaking with
        ⟨f, hCurrent, hAcked⟩
      refine ⟨h.filled e hFilling hCurrent, ?_⟩
      rintro _ ⟨⟩
      exact ⟨f, hCurrent.last, hAcked⟩
  | recorded p q r chunk nodes id hFilling _ _ _ =>
      rcases hTaken hFilling.toTaking with
        ⟨f, hCurrent, hAcked⟩
      have hFilled := h.filled e hFilling hCurrent
      have hMarked :=
        hFilled.setChunk r
          (fun chunk => { chunk with downloaded := true })
          (fun _ => rfl) fun _ => ⟨rfl, rfl, rfl⟩
      refine ⟨hMarked.same rfl rfl rfl, ?_⟩
      rintro _ ⟨⟩
      exact ⟨f, hCurrent.last, hAcked⟩

end

end PeerNet

------------------------------------------------------------
-- One Event
------------------------------------------------------------

namespace PeerNet

section

variable {env : Env} {b src : Addr}
variable {requests : List Request} {accepted : List Accepted}
variable {n m : Node} {e : NodeEvent} {packet : Packet}
variable {ack : Option Int} {counted : Bool}

/- Neither DATA nor `finish_get` queues anything itself. -/
theorem DataStep.queue
    (hStep : DataStep env src packet n ack counted m) :
    m.queue = n.queue := by
  cases hStep with
  | ignored _ => rfl
  | refused _ _ _ _ => rfl
  | stored _ _ _ _ _ _ => rfl
  | recorded _ _ _ _ _ _ _ _ _ _ =>
      simp [Node.recorded, Node.filled, Node.release,
        Node.keep, Node.heard]
  | _ =>
      simp [Node.filled, Node.release, Node.keep,
        Node.heard]

theorem getMoves_queue
    (hMoves : GetMoves n m) :
    m.queue = n.queue := by
  induction hMoves with
  | refl => rfl
  | tail _ hMove ih =>
      rw [← ih]
      cases hMove with
      | _ => rfl

/- An answer to DATA that the current fetch has accepted. -/
def AnswersFetch
    (requests : List Request)
    (accepted : List Accepted)
    (b src : Addr)
    (d : Datagram) : Prop :=
  ∃ k f, d = ⟨ackPacket k, src⟩ ∧
    IsLast requests b src f ∧ AcceptedUpTo accepted f k

/- DATA comes between two steps. -/
theorem Tracing.step_data
    (h : Tracing requests accepted b n.config)
    (hQueue : n.queue = [])
    (env : Env)
    (hAccepts : (∃ p r, Fetching n.config src p r) →
      Accepts requests accepted b src packet.seq) :
    Tracing requests accepted b
        (n.step env (.data src packet)).config ∧
      ∀ d ∈ (n.step env (.data src packet)).queue,
        AnswersFetch requests accepted b src d := by
  have hNone :
      ∀ d ∈ n.queue, AnswersFetch requests accepted b src d := by
    rw [hQueue]
    exact fun d hd => absurd hd List.not_mem_nil
  cases hRun : n.fault with
  | some f =>
      rw [step_of_fault _ _ hRun]
      exact ⟨h, hNone⟩
  | none =>
  rcases h.owned.step_data env src packet hRun with
    ⟨ack, counted, k, k', hStep, hPart, hEnd⟩ |
    ⟨p, r, f, _, _, hEnd⟩
  · rcases h.data hAccepts hStep with ⟨hTracing, hAck⟩
    have hSame : k'.queue = n.queue := by
      rw [getMoves_queue hPart.1, hStep.queue]
    have hMid : Midway requests accepted b k := by
      have hEmpty : k.queue = [] := by
        rw [hStep.queue, hQueue]
      constructor
      · rw [hEmpty, requestsOf_nil, List.append_nil]
        exact hTracing
      · rw [hEmpty]
        exact fun d hd => absurd hd List.not_mem_nil
    have hClosed :
        Closed env .ihave (Midway requests accepted b) :=
      midway_closed
    have hLast := (hClosed.getMoves hMid hPart.1).tracing
    rw [hSame, hQueue, requestsOf_nil, List.append_nil]
      at hLast
    rcases hEnd with ⟨hEnd, _⟩ | ⟨f, _, _, hEnd⟩
    · rw [hEnd]
      cases ack with
      | none =>
          refine ⟨hLast, ?_⟩
          change ∀ d ∈ k'.queue, _
          rw [hSame]
          exact hNone
      | some ackNum =>
          refine ⟨hLast, fun d hd => ?_⟩
          rcases hAck ackNum rfl with ⟨f, hCurrent, hAcked⟩
          rcases List.mem_append.mp hd with hOld | hNew
          · rw [hSame] at hOld
            exact hNone d hOld
          · exact ⟨ackNum, f, List.mem_singleton.mp hNew,
              hCurrent, hAcked⟩
    · rw [hEnd]
      refine ⟨hLast, ?_⟩
      change ∀ d ∈ k'.queue, _
      rw [hSame]
      exact hNone
  · rw [hEnd]
    exact ⟨h.heard env p, hNone⟩

/- Any other event of the receiving side. -/
theorem Tracing.step_receives
    (h : Tracing requests accepted b n.config)
    (hQueue : n.queue = [])
    (env : Env)
    (hReceives : e.receives)
    (hOther : ∀ src packet, e ≠ .data src packet) :
    Midway requests accepted b (n.step env e) := by
  apply midway_closed.step hReceives
  · intro src packet hIs
    exact absurd hIs (hOther src packet)
  · constructor
    · rw [hQueue, requestsOf_nil, List.append_nil]
      exact h
    · rw [hQueue]
      exact fun d hd => absurd hd List.not_mem_nil

/- The sending side changes no fetch. -/
theorem Tracing.step_serves
    (h : Tracing requests accepted b n.config)
    (env : Env)
    (hServes : ¬ e.receives) :
    Tracing requests accepted b (n.step env e).config := by
  rcases PeerNet.step_serves env n hServes with
    ⟨m, ⟨_, _, _, rfl⟩, hEnd | ⟨f, hEnd⟩⟩
  · rw [hEnd]
    exact h.same rfl rfl rfl
  · rw [hEnd]
    exact h.same rfl rfl rfl

end

end PeerNet
