import PeerNet.Wire.Answers
import PeerNet.Wire.Payload

/-
  Which bytes of a payload the handlers read.

  Two handlers read before they look at a length:
  `process_ihave` the count byte, and `process_whohas` the
  count byte and as many hashes as it says. A read behind
  the payload is the fault `packetRead`, so a call reads
  inside where it cannot stop at that fault.

  Main declarations:
    * `ReadsInside`
    * `reads_inside_iff`
-/

------------------------------------------------------------
-- Reads of the Handlers
------------------------------------------------------------

namespace PeerNet

open Prog

/- The call reads no byte behind the payload. -/
def ReadsInside
    {α : Type}
    (x : Prog α)
    (n : Node) : Prop :=
  wp x (fun _ _ => True) (fun f _ => f ≠ .packetRead) n

section

variable {env : Env} {src dest : Addr} {p : Packet}
variable {n : Node} {α : Type}

theorem Fault.isLocal.notRead
    {f : Fault}
    (h : f.isLocal = true) :
    f ≠ .packetRead := by
  rintro rfl
  cases h

theorem ReadsInside.lift
    {x : Except Fault α}
    (h : Local x)
    (n : Node) :
    ReadsInside (PeerNet.lift x) n := by
  unfold ReadsInside
  rw [wp_lift]
  exact ⟨fun _ _ => trivial, fun f hFault =>
    Fault.isLocal.notRead (h f hFault)⟩

/- A call reads inside where its parts do. -/
theorem ReadsInside.bind
    {β : Type}
    {x : Prog α}
    {f : α → Prog β}
    (hx : ReadsInside x n)
    (hf : ∀ a m, ReadsInside (f a) m) :
    ReadsInside (x >>= f) n := by
  unfold ReadsInside
  rw [wp_bind]
  exact wp_mono hx (fun a m _ => hf a m) fun _ _ h => h

theorem ReadsInside.map
    {β : Type}
    {x : Prog α}
    (g : α → β)
    (hx : ReadsInside x n) :
    ReadsInside (g <$> x) n := by
  unfold ReadsInside
  rw [wp_map]
  exact hx

theorem readsInside_modify
    (f : Node → Node)
    (n : Node) :
    ReadsInside (modify f) n :=
  trivial

/- What is queued with a right length is not read behind. -/
theorem Framed.readsInside
    (h : Framed p)
    (n : Node) :
    ReadsInside (packetNew p dest) n := by
  apply wp_packetNew_copy
  · exact fun _ => trivial
  · exact fun hTorn => absurd h.whole hTorn
  · exact fun hTorn => absurd h.whole hTorn

theorem readsInside_writeToFile
    (packets : BtPackets)
    (n : Node) :
    ReadsInside (writeToFile packets) n := by
  unfold writeToFile
  cases packets with
  | freed => exact (nofun : Fault.freedPackets ≠ .packetRead)
  | live nodes =>
      apply (ReadsInside.lift (local_packetBytes nodes) n).bind
      intro bytes m
      exact readsInside_modify _ m

theorem readsInside_finishGetChunk
    (env : Env)
    (nextChunk : Int)
    (n : Node) :
    ReadsInside (finishGetChunk env nextChunk) n := by
  unfold ReadsInside finishGetChunk
  rw [wp_bind, wp_get]
  cases chunkWithId nextChunk n.config with
  | none => exact (nofun : Fault.finishGetChunk ≠ .packetRead)
  | some next =>
      apply (ReadsInside.lift
        (local_hasChunk env n.files n.config next.hash) n).bind
      intro realId m
      unfold ReadsInside
      rw [wp_ite]
      constructor
      · intro _
        apply (ReadsInside.lift
          (local_masterBytes env n.files n.config next.hash
            realId) m).bind
        intro bytes k
        cases bytes with
        | none => trivial
        | some filechunk => trivial
      · intro _
        apply (readsInside_writeToFile next.packets m).bind
        exact fun _ _ => trivial

theorem readsInside_finishGetLoop
    (env : Env)
    (count : Nat)
    (nextChunk : Int)
    (n : Node) :
    ReadsInside (finishGetLoop env count nextChunk) n := by
  induction count generalizing nextChunk n with
  | zero => trivial
  | succ count ih =>
      unfold finishGetLoop
      apply (readsInside_finishGetChunk env nextChunk n).bind
      intro go m
      unfold ReadsInside
      rw [wp_ite]
      exact ⟨fun _ => ih (nextChunk + 1) m, fun _ => trivial⟩

theorem readsInside_finishGet
    (env : Env)
    (n : Node) :
    ReadsInside (finishGet env) n := by
  unfold ReadsInside finishGet
  rw [wp_bind, wp_get, wp_bind, wp_modify, wp_ite]
  refine ⟨fun _ => ?_, fun _ => trivial⟩
  rw [wp_bind, wp_modify]
  apply (readsInside_finishGetLoop env _ 0 _).bind
  intro go m
  unfold ReadsInside
  rw [wp_ite]
  refine ⟨fun _ => ?_, fun _ => trivial⟩
  unfold delReceiverList
  rw [wp_bind, wp_modify, wp_bind, wp_get, wp_ite]
  exact ⟨fun _ => trivial, fun _ => nofun⟩

theorem readsInside_recordChunk
    (env : Env)
    (r : ChunkRef)
    (hash : Hash)
    (n : Node) :
    ReadsInside (recordChunk env r hash) n := by
  unfold ReadsInside recordChunk
  rw [wp_bind, wp_get, wp_bind, wp_modify, wp_bind, wp_get]
  apply (ReadsInside.lift (local_masterChunk env _ _ hash)
    _).bind
  intro id m
  unfold ReadsInside
  rw [wp_bind, wp_modify, wp_bind, wp_modify, wp_bind, wp_get,
    wp_ite]
  exact ⟨fun _ => readsInside_finishGet env _,
    fun _ => trivial⟩

theorem readsInside_finishChunk
    (env : Env)
    (r : ChunkRef)
    (n : Node) :
    ReadsInside (finishChunk env r) n := by
  unfold ReadsInside finishChunk
  rw [wp_bind, wp_derefChunk]
  refine ⟨fun _ => nofun, fun chunk _ => ?_⟩
  rw [wp_bind, wp_modify]
  cases chunk.peer with
  | none => exact (nofun : Fault.finishPeer ≠ .packetRead)
  | some q =>
      dsimp only
      rw [wp_bind, wp_modify]
      cases chunk.packets with
      | freed =>
          exact (nofun : Fault.freedPackets ≠ .packetRead)
      | live nodes =>
          apply (ReadsInside.lift
            (local_writeToBuffer env nodes) _).bind
          intro buffer m
          unfold ReadsInside
          rw [wp_ite]
          refine ⟨fun _ => ?_, fun _ => trivial⟩
          rw [wp_bind, wp_get, wp_ite]
          exact ⟨fun _ => readsInside_recordChunk env r _ _,
            fun _ => trivial⟩

/- The ACK packet has no payload. -/
theorem framed_ackPacket
    (ackNum : Int) :
    Framed (ackPacket ackNum) := by
  have hNone : ([] : Bytes).length ≤ maxDataSize :=
    Nat.zero_le _
  exact framed_wirePacket typeAck 0 ackNum hNone

/- `add_packet` reads what its data length says. -/
theorem readsInside_addPacket
    (env : Env)
    (r : ChunkRef)
    (hWhole : p.Whole)
    (n : Node) :
    ReadsInside (addPacket env r p) n := by
  unfold ReadsInside
  rw [addPacket_eq]
  dsimp only
  rw [wp_bind, wp_derefChunk]
  refine ⟨fun _ => nofun, fun chunk _ => ?_⟩
  cases chunk.packets with
  | freed => exact (nofun : Fault.freedPackets ≠ .packetRead)
  | live nodes =>
      dsimp only
      rw [wp_ite]
      constructor
      · rintro ⟨-, hShort | hTorn⟩
        · exact absurd hWhole.1 (Nat.not_le.mpr hShort)
        · exact absurd hWhole.2 (Nat.not_le.mpr hTorn)
      · intro _
        rw [wp_bind, wp_modify, wp_ite]
        refine ⟨fun _ => ?_, fun _ => trivial⟩
        apply (readsInside_finishChunk env r _).bind
        exact fun _ _ => trivial

theorem readsInside_processData
    (env : Env)
    (src : Addr)
    (n : Node)
    (hWhole : p.Whole) :
    ReadsInside (processData env src p) n := by
  unfold ReadsInside processData
  rw [wp_bind, wp_get]
  dsimp only
  cases peerWithAddr src n.config with
  | none => trivial
  | some q =>
      dsimp only
      cases (n.config.peer q).chunk with
      | none => trivial
      | some r =>
          dsimp only
          rw [wp_bind, wp_timeMillis, wp_bind, wp_modify,
            wp_ite]
          refine ⟨fun _ => trivial, fun _ => ?_⟩
          apply (readsInside_addPacket env r hWhole _).bind
          intro nextExpected m
          apply ((framed_ackPacket _).readsInside m).bind
          exact fun _ _ => trivial

/- `process_get` reads 20 bytes of 20. -/
theorem readsInside_processGet
    (env : Env)
    (src : Addr)
    (n : Node)
    (hLength : payloadLen p.header = p.buf.length) :
    ReadsInside (processGet env src p) n := by
  unfold ReadsInside processGet
  unfold payloadLen at hLength
  rw [wp_bind, wp_get]
  dsimp only
  cases peerWithAddr src n.config with
  | none => trivial
  | some peer =>
      dsimp only
      rw [wp_ite, wp_ite, wp_ite]
      refine ⟨fun _ => trivial, fun _ => ?_⟩
      refine ⟨fun _ => trivial, fun hTwenty => ?_⟩
      refine ⟨fun hShort => by omega, fun _ => ?_⟩
      unfold sendData
      rw [wp_bind, wp_get]
      apply (ReadsInside.lift
        (local_dataChunk env n.files n.config _) n).bind
      intro chunk m
      cases chunk with
      | none => trivial
      | some chunk =>
          unfold ReadsInside
          dsimp only
          rw [wp_ite]
          refine ⟨fun _ => trivial, fun _ => ?_⟩
          cases peerWithAddr src n.config with
          | none =>
              exact (nofun : Fault.dataPeer ≠ .packetRead)
          | some q => trivial

theorem readsInside_processAck
    (src : Addr)
    (n : Node) :
    ReadsInside (processAck src p) n := by
  unfold ReadsInside processAck
  rw [wp_bind, wp_get]
  dsimp only
  cases peerWithAddr src n.config with
  | none => trivial
  | some peer =>
      dsimp only
      cases findSenderList n.config peer with
      | none => trivial
      | some s => trivial

/- The loop of `process_ihave` counts what is left. -/
theorem readsInside_ihaveLoop
    (q : PeerRef)
    (buf : Bytes)
    (count offset : Nat)
    {datalen : Int}
    (hLeft : datalen ≤ (buf.length : Int) - offset)
    (n : Node) :
    ReadsInside (ihaveLoop q buf count offset datalen) n := by
  induction count generalizing offset datalen n with
  | zero => trivial
  | succ count ih =>
      unfold ReadsInside ihaveLoop
      rw [wp_ite, wp_ite]
      refine ⟨fun _ => trivial, fun hMore => ?_⟩
      refine ⟨fun hShort => by omega, fun _ => ?_⟩
      rw [wp_bind, wp_get]
      dsimp only
      have hNext :
          toShort (datalen - 20) ≤
            (buf.length : Int) - (offset + 20 : Nat) := by
        unfold toShort
        omega
      split
      · exact ih (offset + 20) hNext n
      · rw [wp_bind, wp_modify]
        exact ih (offset + 20) hNext _

/- `process_ihave` reads the count byte of what it has. -/
theorem readsInside_processIhave_iff
    (src : Addr)
    (n : Node)
    (hLength :
      p.header.packetLen.toNat = 16 + p.buf.length) :
    ReadsInside (processIhave src p) n ↔
      (n.config.download ≠ [] →
        (peerWithAddr src n.config).isSome →
          p.buf ≠ []) := by
  unfold ReadsInside processIhave
  rw [wp_bind, wp_get]
  dsimp only
  rw [wp_ite]
  by_cases hIdle : n.config.download = []
  · simp [hIdle]
  cases hPeer : peerWithAddr src n.config with
  | none => simp
  | some q =>
      dsimp only
      rw [wp_bind, wp_modify]
      cases hBuf : p.buf with
      | nil => simp [hIdle]
      | cons numchunks rest =>
          dsimp only
          refine ⟨fun _ _ _ => List.cons_ne_nil _ _,
            fun _ => ⟨fun h => absurd h hIdle, fun _ => ?_⟩⟩
          apply readsInside_ihaveLoop
          rw [hBuf] at hLength
          unfold ihaveDatalen toShort
          rw [hLength]
          simp only [packetHeadSize]
          omega

/- `send_ihave` reads what it has written. -/
theorem readsInside_sendIhaveLoop
    (dest : Addr)
    (fuel : Nat)
    (next : List Hash)
    (n : Node) :
    ReadsInside (sendIhaveLoop dest fuel next) n := by
  induction fuel generalizing next n with
  | zero => exact (nofun : Fault.hang ≠ .packetRead)
  | succ fuel ih =>
      unfold ReadsInside sendIhaveLoop
      dsimp only
      rw [wp_ite, wp_ite]
      refine ⟨fun _ => trivial, fun _ => ?_⟩
      refine ⟨fun _ => trivial, fun _ => ?_⟩
      have hFew :
          (next.take
            (min (toChar next.length)
              maxIhaveChunks).toNat).length ≤
            maxIhaveChunks := by
        rw [List.length_take]
        omega
      apply ((framed_ihavePacket hFew).readsInside n).bind
      intro _ m
      exact ih _ m

/- The hashes that the count byte makes the loop read. -/
def HashesInside
    (lookup : Hash → Except Fault Int)
    (buf : Bytes) : Prop :=
  ∃ numChunks rest, buf = numChunks :: rest ∧
    InsideFrom lookup buf 0 (whohasCount numChunks)

theorem readsInside_processWhohas_iff
    (env : Env)
    (src : Addr)
    (n : Node) :
    ReadsInside (processWhohas env src p) n ↔
      HashesInside (hasChunk env n.files n.config)
        p.buf := by
  have hLookup :
      ∀ hash f,
        hasChunk env n.files n.config hash = .error f →
          f ≠ .packetRead :=
    fun hash f hFault =>
      Fault.isLocal.notRead
        (local_hasChunk env n.files n.config hash f hFault)
  unfold ReadsInside processWhohas
  rw [wp_bind, wp_get]
  cases hBuf : p.buf with
  | nil =>
      constructor
      · intro hRead
        exact absurd rfl hRead
      · rintro ⟨_, _, hNone, _⟩
        cases hNone
  | cons numChunks rest =>
      have hScan :
          HashesInside (hasChunk env n.files n.config)
              (numChunks :: rest) ↔
            wp
              (whohasScan (hasChunk env n.files n.config)
                (numChunks :: rest))
              (fun _ _ => True)
              (fun f _ => f ≠ .packetRead) .init := by
        refine Iff.trans ?_ (whohasLoop_inside hLookup).symm
        constructor
        · rintro ⟨_, _, hIs, hInside⟩
          cases hIs
          exact hInside
        · exact fun hInside => ⟨_, _, rfl, hInside⟩
      rw [hScan]
      unfold wp
      cases whohasScan (hasChunk env n.files n.config)
          (numChunks :: rest) .init with
      | error f s => exact Iff.rfl
      | ok _ s =>
          simp only [iff_true]
          exact readsInside_sendIhaveLoop src _ _ n

/-
  What the payload has to hold: the count byte of an IHAVE
  that is looked at, and the hashes of a WHOHAS.
-/
def PayloadCovers
    (env : Env)
    (src : Addr)
    (n : Node)
    (p : Packet) : Prop :=
  (p.header.type = typeWhohas →
    HashesInside (hasChunk env n.files n.config) p.buf) ∧
  (p.header.type = typeIhave →
    n.config.download ≠ [] →
      (peerWithAddr src n.config).isSome →
        p.buf ≠ [])

theorem readsInside_discard
    {x : Prog α} :
    ReadsInside (discard x) n ↔ ReadsInside x n :=
  wp_map _ x

/- The handler of a framed packet. -/
theorem readsInside_dispatch_iff
    (env : Env)
    (src : Addr)
    (n : Node)
    (h : Framed p) :
    ReadsInside (dispatch env src p) n ↔
      PayloadCovers env src n p := by
  have hTypes : typeIhave ≠ typeWhohas := by decide
  unfold dispatch PayloadCovers
  by_cases hWhohas : p.header.type = typeWhohas
  · rw [if_pos hWhohas, readsInside_discard,
      readsInside_processWhohas_iff]
    simp [hWhohas, hTypes.symm]
  by_cases hIhave : p.header.type = typeIhave
  · rw [if_neg hWhohas, if_pos hIhave, readsInside_discard,
      readsInside_processIhave_iff src n h.packetLen]
    simp [hIhave, hTypes]
  rw [if_neg hWhohas, if_neg hIhave]
  refine iff_of_true ?_
    ⟨fun h => absurd h hWhohas, fun h => absurd h hIhave⟩
  by_cases hGet : p.header.type = typeGet
  · rw [if_pos hGet, readsInside_discard]
    exact readsInside_processGet env src n h.payloadLen
  by_cases hData : p.header.type = typeData
  · rw [if_neg hGet, if_pos hData, readsInside_discard]
    exact readsInside_processData env src n h.whole
  by_cases hAck : p.header.type = typeAck
  · rw [if_neg hGet, if_neg hData, if_pos hAck,
      readsInside_discard]
    exact readsInside_processAck src n
  · rw [if_neg hGet, if_neg hData, if_neg hAck]
    trivial

end

/-
  A datagram whose head is 16 bytes long: its handler reads
  nothing behind the payload exactly where the payload
  covers what the count byte promises.
-/
theorem reads_inside_iff
    {datagram : Bytes}
    {p : Packet}
    (env : Env)
    (src : Addr)
    (n : Node)
    (hRead : readPacket (received datagram) = .ok (some p))
    (hHead : p.header.headerLen = 16) :
    ReadsInside (processInboundUdp env src datagram) n ↔
      PayloadCovers env src n p := by
  have hChecked := readPacket_eq_some.mp hRead
  have hFramed := (hChecked.framed hHead).1
  rw [← readsInside_dispatch_iff env src n hFramed]
  unfold ReadsInside processInboundUdp
  rw [hRead, wp_bind, wp_lift]
  simp

/- A WHOHAS that carries both of its hashes. -/
def fullWhohas : Packet :=
  wirePacket typeWhohas 0 0 (listing 2 ownedFirst)

theorem reads_inside_fullWhohas :
    ReadsInside
      (processInboundUdp stillEnv ⟨1, 1⟩
        (encodePacket fullWhohas)) holderNode := by
  have hFramed : Framed fullWhohas :=
    framed_wirePacket typeWhohas 0 0 (by decide)
  refine (reads_inside_iff stillEnv ⟨1, 1⟩ holderNode
    (hFramed.readPacket (by decide)) rfl).mpr
    ⟨fun _ => ⟨2, _, rfl, ?_⟩, fun hIhave => ?_⟩
  · intro k hK _
    have hCount : whohasCount 2 = 2 := by decide
    have hLength : fullWhohas.buf.length = 44 := by decide
    omega
  · cases hIhave

/- A WHOHAS that ends with its head. -/
def emptyWhohas : Packet :=
  wirePacket typeWhohas 0 0 []

theorem reads_behind_empty :
    ¬ ∀ (env : Env) (src : Addr) (n : Node)
        (datagram : Bytes) (p : Packet),
      readPacket (received datagram) = .ok (some p) →
        p.header.headerLen = 16 →
          ReadsInside (processInboundUdp env src datagram)
            n := by
  intro hClaim
  have hFramed : Framed emptyWhohas :=
    framed_wirePacket typeWhohas 0 0 (Nat.zero_le _)
  have hRead := hFramed.readPacket (Nat.zero_le _)
  have hCovers :=
    (reads_inside_iff stillEnv ⟨1, 1⟩ onePeerNode hRead
      rfl).mp (hClaim _ _ _ _ _ hRead rfl)
  rcases hCovers.1 rfl with ⟨_, _, hNone, _⟩
  cases hNone

end PeerNet
