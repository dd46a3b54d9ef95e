import Mathlib.Data.List.Forall2
import PeerNet.Lib.Greedy
import PeerNet.Model.System
import PeerNet.Receiver.Clock
import PeerNet.Receiver.Links
import PeerNet.Receiver.Pairing

/-
  The scan for chunks to ask for.

  While the clock stands, `get_all_the_thingz` hands out the
  peers that are neither downloading nor bad as
  `Greedy.assign` hands out free workers: the chunks that are
  neither downloaded nor assigned take turns, and each names
  the peers that announced it. It goes wrong in one place. A
  chunk all of whose peers are bad makes it send a WHOHAS,
  whose length may not fit its 16-bit field; then the call
  does not return, and chunks further on stay unassigned.

  Key definitions include:
    * `Pairing`
    * `Scanned`
    * `GreedyScan`

  Key theorems include:
    * `scanChunks_scans`
    * `Scanned.greedyScan`
    * `greedy_scan_iff`
-/

------------------------------------------------------------
-- What the Scan Looks At
------------------------------------------------------------

namespace PeerNet

/- `is_bad` at a time. -/
def BtPeer.bad
    (now : Int)
    (peer : BtPeer) : Bool :=
  peer.badTime ≠ 0 ∧ now - peer.badTime < badResetMillis

namespace BtConfig

/- Is the peer neither downloading nor bad? -/
def free
    (now : Int)
    (c : BtConfig)
    (p : PeerRef) : Bool :=
  !(c.peer p).downloading && !(c.peer p).bad now

/- Is the chunk neither downloaded nor assigned? -/
def waiting
    (c : BtConfig)
    (r : ChunkRef) : Bool :=
  (c.chunk r).any fun chunk =>
    !chunk.downloaded && chunk.peer.isNone

/- Whom the scan may ask for a chunk, in its order. -/
def candidates
    (c : BtConfig)
    (r : ChunkRef) : List PeerRef :=
  if c.waiting r then c.announcers r else []

/- Is there nobody but bad peers to ask for the chunk? -/
def forsaken
    (now : Int)
    (c : BtConfig)
    (r : ChunkRef) : Bool :=
  c.waiting r &&
    (c.announcers r).all fun p => (c.peer p).bad now

section

variable {c : BtConfig} {r : ChunkRef} {chunk : BtChunk}

theorem free_iff
    {now : Int}
    {p : PeerRef} :
    c.free now p = true ↔
      (c.peer p).downloading = false ∧
        (c.peer p).bad now = false := by
  simp [free]

theorem waiting_of_live
    (hLive : c.chunk r = some chunk) :
    c.waiting r =
      (!chunk.downloaded && chunk.peer.isNone) := by
  simp [waiting, hLive]

/- A chunk that waits asks its own peers. -/
theorem candidates_of_waiting
    (hLive : c.chunk r = some chunk)
    (hWaiting : c.waiting r = true) :
    c.candidates r = chunk.peers := by
  rw [candidates, if_pos hWaiting, announcers_of_live hLive]

theorem candidates_of_settled
    (hSettled : ¬ c.waiting r = true) :
    c.candidates r = [] :=
  if_neg hSettled

end

end BtConfig

/- A WHOHAS is sent, and one of the chunks makes it due. -/
def WhohasDue
    (now : Int)
    (c : BtConfig)
    (rs : List ChunkRef) : Prop :=
  whohasMillis ≤ now - c.lastWhohas ∧
    ∃ r ∈ rs, c.forsaken now r = true

/-
  The WHOHAS of the list fits its buffer, and where it goes
  to anybody its length is not taken for less than a head.
-/
def WhohasFits
    (c : BtConfig) : Prop :=
  (downloadChunks c).length ≤ c.numChunks ∧
    ∀ p ∈ c.peers, (c.peer p).id ≠ c.identity →
      (packetHeadSize : Int) ≤ (20 + 20 * c.numChunks) % 65536

/- Peers and chunks are paired. -/
structure Pairing
    (c : BtConfig) : Prop where
  distinct : DistinctAddrs c
  nodup : c.download.Nodup
  live : ∀ r ∈ c.download, (c.chunk r).isSome
  matched : Matching.Matched c.target c.owner
  busy : ∀ p ∈ c.peers,
    (c.peer p).downloading = (c.target p).isSome
  announced : ∀ r ∈ c.download,
    ∀ q ∈ c.announcers r, q ∈ c.peers

/- The invariant of all calls has it. -/
theorem Paired.pairing
    {c : BtConfig}
    (h : Paired c) :
    Pairing c where
  distinct := h.distinct
  nodup := h.nodup
  live := fun r hr => (h.live r).mpr hr
  matched := h.matched
  busy := h.busy
  announced := fun r _ => h.announced r

namespace Node

/- The GETs in the packet queue. -/
def gets
    (n : Node) : List Datagram :=
  n.queue.filter fun d => d.packet.header.type = typeGet

/- Only the clock was read. -/
def Ticked
    (n m : Node) : Prop :=
  m = { n with reads := m.reads }

variable {n m : Node}

theorem Ticked.refl
    (n : Node) :
    n.Ticked n := rfl

theorem Ticked.tick
    (h : n.Ticked m) :
    n.Ticked m.tick := by
  unfold Ticked Node.tick
  rw [h]

theorem Ticked.config
    (h : n.Ticked m) :
    m.config = n.config := by
  rw [h]

theorem Ticked.gets
    (h : n.Ticked m) :
    m.gets = n.gets := by
  rw [h]
  rfl

theorem Ticked.fault
    (h : n.Ticked m) :
    m.fault = n.fault := by
  rw [h]

/- A GET is queued behind the others. -/
theorem gets_push_get
    (d : Datagram)
    (hType : d.packet.header.type = typeGet) :
    (n.push d).gets = n.gets ++ [d] := by
  simp [gets, hType]

theorem gets_push_other
    (d : Datagram)
    (hType : d.packet.header.type ≠ typeGet) :
    (n.push d).gets = n.gets := by
  simp [gets, hType]

end Node

end PeerNet

------------------------------------------------------------
-- Single Calls
------------------------------------------------------------

namespace PeerNet

open Prog

section

variable {env : Env} {now : Int} {n m : Node}

/- `is_bad` tells whether the peer is bad now. -/
theorem isBad_stopped
    {peer : BtPeer}
    {Q : Bool → Node → Prop}
    {E : Fault → Node → Prop}
    (hTicked : n.Ticked m)
    (h : ∀ k, n.Ticked k → Q (peer.bad now) k) :
    wp (isBad (env.stopped now) peer) Q E m := by
  unfold isBad
  rw [wp_ite]
  refine ⟨fun hBad => ?_, fun hGood => ?_⟩
  · rw [wp_bind, wp_timeMillis]
    have hNow :
        decide (now - peer.badTime < badResetMillis) =
          peer.bad now := by
      simp [BtPeer.bad, hBad]
    have hDone := h m.tick hTicked.tick
    rw [← hNow] at hDone
    exact hDone
  · have hNow : false = peer.bad now := by
      rw [not_not] at hGood
      simp [BtPeer.bad, hGood]
    have hDone := h m hTicked
    rw [← hNow] at hDone
    exact hDone

/-
  The loop over a chunk's peers: the first that is free is
  asked, and where none is, it tells whether all are bad.
-/
theorem scanPeers_stopped
    {r : ChunkRef}
    {Q : Bool → Node → Prop}
    {E : Fault → Node → Prop}
    (ps : List PeerRef)
    (allBad : Bool)
    (hTicked : n.Ticked m)
    (hNone : ps.find? (n.config.free now) = none →
      ∀ k, n.Ticked k →
        Q (allBad &&
          ps.all fun p => (n.config.peer p).bad now) k)
    (hSome : ∀ p, ps.find? (n.config.free now) = some p →
      ∀ k, n.Ticked k →
        wp (sendGet (env.stopped now)
          (n.config.peer p).addr r) (fun _ => Q false) E k) :
    wp (scanPeers (env.stopped now) r ps allBad) Q E m := by
  induction ps generalizing allBad m with
  | nil =>
      have hDone := hNone rfl m hTicked
      simpa [scanPeers] using hDone
  | cons p rest ih =>
      have hNext :
          n.config.free now p = false →
          ∀ k, n.Ticked k →
            wp
              (scanPeers (env.stopped now) r rest
                (allBad && (n.config.peer p).bad now))
              Q E k := by
        intro hBusy k hk
        have hFind :
            (p :: rest).find? (n.config.free now) =
              rest.find? (n.config.free now) := by
          rw [List.find?_cons_of_neg (by simp [hBusy])]
        rw [hFind] at hNone hSome
        apply ih _ hk
        · intro hRest l hl
          have hDone := hNone hRest l hl
          rw [List.all_cons, ← Bool.and_assoc] at hDone
          exact hDone
        · exact hSome
      unfold scanPeers
      rw [wp_bind, wp_get, wp_bind, hTicked.config]
      apply isBad_stopped hTicked
      intro k hk
      rw [wp_bind, wp_get, hk.config, wp_ite]
      refine ⟨fun hBusy => ?_, fun hIdle => ?_⟩
      · exact hNext (by simp [BtConfig.free, hBusy]) k hk
      rw [Bool.not_eq_true] at hIdle
      rw [wp_bind]
      apply isBad_stopped hk
      intro l hl
      rw [wp_ite]
      refine ⟨fun hBad => ?_, fun hGood => ?_⟩
      · exact hNext (by simp [BtConfig.free, hBad]) l hl
      · rw [Bool.not_eq_true] at hGood
        have hFree : n.config.free now p = true := by
          simp [BtConfig.free, hIdle, hGood]
        rw [wp_bind, hGood, Bool.and_false]
        exact hSome p (List.find?_cons_of_pos hFree) l hl

/- A WHOHAS whose list fits is copied whole. -/
theorem whole_whohasPacket_iff
    (env : Env)
    {c : BtConfig}
    (hCount : (downloadChunks c).length ≤ c.numChunks) :
    (whohasPacket env c).Whole ↔
      (packetHeadSize : Int) ≤
        (20 + 20 * c.numChunks) % 65536 := by
  have hLen :
      ((whohasPacket env c).header.packetLen.toNat : Int) =
        (20 + 20 * c.numChunks) % 65536 := by
    simp only [whohasPacket, initPacketHead, UInt16.ofInt,
      UInt16.toNat_ofNat']
    omega
  have hBuf :
      4 + 20 * c.numChunks ≤
        ((whohasPacket env c).buf.length : Int) := by
    have hFill : ∀ size bytes,
        size ≤ (env.fill size bytes).length := by
      intro size bytes
      simp only [Env.fill, List.length_append,
        List.length_map, List.length_range']
      omega
    have hLow := hFill (4 + 20 * c.numChunks.toNat)
      (UInt8.ofInt c.numChunks :: 0 :: 0 :: 0 ::
        (downloadChunks c).flatMap
          (fun chunk => chunk.hash.toList))
    unfold whohasPacket
    dsimp only
    omega
  have hSize : packetHeadSize = 16 := rfl
  unfold Packet.Whole
  constructor
  · rintro ⟨hHead, -⟩
    omega
  · intro hHead
    exact ⟨by omega, by omega⟩

/- The loop of `send_whohas`: it asks all, or breaks off. -/
theorem whohasLoop_floods
    (c : BtConfig)
    (ps : List PeerRef) :
    wp
      (ps.forM fun peer =>
        if (c.peer peer).id ≠ c.identity then
          packetNew (whohasPacket env c) (c.peer peer).addr
        else
          pure ())
      (fun _ m => (m.config = n.config ∧ m.gets = n.gets ∧
          m.fault = n.fault) ∧
        ∀ p ∈ ps, (c.peer p).id ≠ c.identity →
          (whohasPacket env c).Whole)
      (fun _ _ => ∃ p ∈ ps, (c.peer p).id ≠ c.identity ∧
        ¬ (whohasPacket env c).Whole) n := by
  apply wp_forM_done
    (I := fun done (m : Node) =>
      (m.config = n.config ∧ m.gets = n.gets ∧
        m.fault = n.fault) ∧
      ∀ p ∈ done, (c.peer p).id ≠ c.identity →
        (whohasPacket env c).Whole)
    ps _ [] ⟨⟨rfl, rfl, rfl⟩, by simp⟩
  rintro done p hp m ⟨⟨hConfig, hGets, hFault⟩, hDone⟩
  rw [wp_ite]
  refine ⟨fun hOther => ?_, fun hSelf => ?_⟩
  · apply wp_packetNew_copy
    · intro hWhole
      refine ⟨⟨hConfig, ?_, hFault⟩, fun _ _ _ => hWhole⟩
      have hType : typeWhohas ≠ typeGet := by decide
      rw [Node.gets_push_other _ hType, hGets]
    · exact fun hTorn => ⟨p, hp, hOther, hTorn⟩
    · exact fun hTorn => ⟨p, hp, hOther, hTorn⟩
  · refine ⟨⟨hConfig, hGets, hFault⟩, ?_⟩
    intro q hq hOther
    rcases List.mem_append.mp hq with hOld | hLast
    · exact hDone q hOld hOther
    · rw [List.mem_singleton.mp hLast] at hOther
      exact absurd hOther hSelf

/-
  `send_whohas`: nothing within 15 seconds of the last, a
  WHOHAS if it fits, and no return if it does not.
-/
theorem sendWhohas_stopped
    {Q : Int → Node → Prop}
    {E : Fault → Node → Prop}
    (hTicked : n.Ticked m)
    (hList : n.config.download ≠ [])
    (hEarly : now - n.config.lastWhohas < whohasMillis →
      ∀ k, n.Ticked k → Q 0 k)
    (hSent : whohasMillis ≤ now - n.config.lastWhohas →
      WhohasFits n.config →
      ∀ k, k.config = { n.config with lastWhohas := now } →
        k.gets = n.gets → k.fault = n.fault → Q 0 k)
    (hTorn : whohasMillis ≤ now - n.config.lastWhohas →
      ¬ WhohasFits n.config → ∀ f k, E f k) :
    wp (sendWhohas (env.stopped now)) Q E m := by
  have hConfig := hTicked.config
  have hTick : n.Ticked m.tick.tick := hTicked.tick.tick
  unfold sendWhohas
  simp only [wp_bind, wp_get, wp_ite, wp_timeMillis,
    wp_modify, wp_pure, wp_throw, Env.stopped_clock, hConfig]
  refine ⟨fun hNone => absurd hNone hList, fun _ => ?_⟩
  refine ⟨fun hLate => hEarly hLate _ hTicked.tick, ?_⟩
  intro hLate
  rw [Int.not_lt] at hLate
  refine ⟨fun hMany => ?_, fun hCount => ?_⟩
  · exact hTorn hLate (fun hFits => by
      have hNodes := hFits.1
      omega) _ _
  rw [Int.not_lt] at hCount
  have hWhole :=
    whole_whohasPacket_iff (env.stopped now) hCount
  apply wp_mono (whohasLoop_floods n.config _)
  · rintro _ k ⟨⟨hSame, hGets, hFault⟩, hAll⟩
    apply hSent hLate
    · exact ⟨hCount, fun p hp hOther =>
        hWhole.mp (hAll p hp hOther)⟩
    · rw [hSame, Node.onConfig_config, hTick.config]
    · exact hGets.trans hTick.gets
    · exact hFault.trans hTick.fault
  · rintro f k ⟨p, hp, hOther, hNot⟩
    apply hTorn hLate
    intro hFits
    exact hNot (hWhole.mpr (hFits.2 p hp hOther))

end

end PeerNet

------------------------------------------------------------
-- Chunks Scanned
------------------------------------------------------------

namespace PeerNet

/- The GET for a chunk, to a peer. -/
def Asks
    (c : BtConfig)
    (pair : ChunkRef × PeerRef)
    (d : Datagram) : Prop :=
  ∃ chunk, c.chunk pair.1 = some chunk ∧
    d = ⟨getPacket chunk.hash, (c.peer pair.2).addr⟩

/- From `n` to `m` just these chunks were asked for. -/
structure Scanned
    (n : Node)
    (pairs : List (ChunkRef × PeerRef))
    (m : Node) : Prop where
  fault : m.fault = n.fault
  peers : m.config.peers = n.config.peers
  download : m.config.download = n.config.download
  identity : m.config.identity = n.config.identity
  numChunks : m.config.numChunks = n.config.numChunks
  room : n.config.curDownload < n.config.maxConn →
    m.config.curDownload < m.config.maxConn
  addr : ∀ p, (m.config.peer p).addr = (n.config.peer p).addr
  id : ∀ p, (m.config.peer p).id = (n.config.peer p).id
  badTime : ∀ p,
    (m.config.peer p).badTime = (n.config.peer p).badTime
  busy : ∀ p, (m.config.peer p).downloading = true ↔
    (n.config.peer p).downloading = true ∨
      p ∈ pairs.map Prod.snd
  assigned : ∀ r p, (r, p) ∈ pairs →
    ∃ chunk, n.config.chunk r = some chunk ∧
      m.config.chunk r = some (chunk.fetched p)
  untouched : ∀ r, r ∉ pairs.map Prod.fst →
    m.config.chunk r = n.config.chunk r
  queued : ∃ new, m.gets = n.gets ++ new ∧
    List.Forall₂ (Asks n.config) pairs new

section

variable {env : Env} {now : Int} {n m k : Node}
variable {ps qs : List (ChunkRef × PeerRef)}
variable {r : ChunkRef} {p : PeerRef}

/- Nothing was asked for. -/
theorem Scanned.quiet
    (last : Int)
    (hConfig : m.config = { n.config with lastWhohas := last })
    (hGets : m.gets = n.gets)
    (hFault : m.fault = n.fault) :
    Scanned n [] m := by
  constructor
  case fault => exact hFault
  case queued => exact ⟨[], by simp [hGets], .nil⟩
  all_goals simp [hConfig]

theorem Node.Ticked.scanned
    (h : n.Ticked m) :
    Scanned n [] m :=
  .quiet n.config.lastWhohas h.config h.gets h.fault

/- One chunk was asked for. -/
theorem Scanned.one
    (env : Env)
    (p : PeerRef)
    (hTicked : n.Ticked m)
    {chunk : BtChunk}
    (hLive : n.config.chunk r = some chunk) :
    Scanned n [(r, p)]
      (m.fetch env p r chunk (n.config.peer p).addr) := by
  have hConfig := hTicked.config
  have hOther :
      ∀ q, ((m.fetch env p r chunk
          (n.config.peer p).addr).config.peer q).addr =
            (n.config.peer q).addr ∧
          ((m.fetch env p r chunk
            (n.config.peer p).addr).config.peer q).id =
              (n.config.peer q).id ∧
          ((m.fetch env p r chunk
            (n.config.peer p).addr).config.peer q).badTime =
              (n.config.peer q).badTime := by
    intro q
    by_cases hq : q = p
    · subst hq
      simp [Node.fetch, BtConfig.fetch, BtConfig.assign,
        hConfig]
    · simp [Node.fetch, BtConfig.fetch, BtConfig.assign,
        hConfig, hq]
  constructor
  case fault => exact hTicked.fault
  case addr => exact fun q => (hOther q).1
  case id => exact fun q => (hOther q).2.1
  case badTime => exact fun q => (hOther q).2.2
  case room =>
    intro hRoom
    simp [Node.fetch, BtConfig.fetch, BtConfig.assign, hConfig]
    omega
  case busy =>
    intro q
    by_cases hq : q = p
    · subst hq
      simp [Node.fetch, BtConfig.fetch, BtConfig.assign]
    · simp [Node.fetch, BtConfig.fetch, BtConfig.assign,
        hConfig, hq]
  case assigned =>
    intro s q hPair
    cases List.mem_singleton.mp hPair
    refine ⟨chunk, hLive, ?_⟩
    simp [Node.fetch, BtConfig.fetch, BtConfig.assign,
      hConfig, hLive, BtChunk.fetched]
  case untouched =>
    intro s hs
    have hNot : s ≠ r := by simpa using hs
    simp [Node.fetch, BtConfig.fetch, BtConfig.assign,
      hConfig, hNot]
  case queued =>
    refine ⟨[⟨getPacket chunk.hash,
      (n.config.peer p).addr⟩], ?_, ?_⟩
    · unfold Node.fetch
      rw [Node.gets_push_get _ rfl]
      exact congrArg (· ++ _) hTicked.gets
    · exact .cons ⟨chunk, hLive, rfl⟩ .nil
  all_goals
    simp [Node.fetch, BtConfig.fetch, BtConfig.assign, hConfig]

/- A chunk keeps its hash and its peers. -/
theorem Scanned.chunk
    (h : Scanned n ps m)
    (r : ChunkRef) :
    (m.config.chunk r).map (fun chunk =>
        (chunk.hash, chunk.peers)) =
      (n.config.chunk r).map fun chunk =>
        (chunk.hash, chunk.peers) := by
  by_cases hMem : r ∈ ps.map Prod.fst
  · rcases List.mem_map.mp hMem with ⟨⟨s, p⟩, hPair, rfl⟩
    rcases h.assigned s p hPair with ⟨chunk, hOld, hNew⟩
    rw [hOld, hNew]
    rfl
  · rw [h.untouched r hMem]

theorem Scanned.isSome
    (h : Scanned n ps m)
    (r : ChunkRef) :
    (m.config.chunk r).isSome = (n.config.chunk r).isSome := by
  have hSame := congrArg Option.isSome (h.chunk r)
  simpa using hSame

theorem Scanned.announcers
    (h : Scanned n ps m)
    (r : ChunkRef) :
    m.config.announcers r = n.config.announcers r := by
  have hSame := congrArg (Option.map Prod.snd) (h.chunk r)
  rw [Option.map_map, Option.map_map] at hSame
  unfold BtConfig.announcers
  exact congrArg (·.getD []) hSame

theorem Scanned.asks
    (h : Scanned n ps m)
    {pair : ChunkRef × PeerRef}
    {d : Datagram}
    (hAsks : Asks m.config pair d) :
    Asks n.config pair d := by
  rcases hAsks with ⟨chunk, hNew, rfl⟩
  have hSame := h.chunk pair.1
  rw [hNew] at hSame
  cases hOld : n.config.chunk pair.1 with
  | none =>
      rw [hOld] at hSame
      cases hSame
  | some chunk' =>
      rw [hOld] at hSame
      have hHash : chunk.hash = chunk'.hash :=
        congrArg Prod.fst (Option.some.inj hSame)
      refine ⟨chunk', hOld, ?_⟩
      rw [hHash, h.addr]

/- Chunks are asked for one batch after another. -/
theorem Scanned.append
    (h : Scanned n ps m)
    (h' : Scanned m qs k)
    (hApart : ∀ r ∈ ps.map Prod.fst, r ∉ qs.map Prod.fst) :
    Scanned n (ps ++ qs) k where
  fault := h'.fault.trans h.fault
  peers := h'.peers.trans h.peers
  download := h'.download.trans h.download
  identity := h'.identity.trans h.identity
  numChunks := h'.numChunks.trans h.numChunks
  room := fun hRoom => h'.room (h.room hRoom)
  addr := fun p => (h'.addr p).trans (h.addr p)
  id := fun p => (h'.id p).trans (h.id p)
  badTime := fun p => (h'.badTime p).trans (h.badTime p)
  busy := by
    intro p
    rw [h'.busy, h.busy, List.map_append, List.mem_append,
      or_assoc]
  assigned := by
    intro r p hPair
    rcases List.mem_append.mp hPair with hFirst | hLast
    · rcases h.assigned r p hFirst with ⟨chunk, hOld, hNew⟩
      refine ⟨chunk, hOld, ?_⟩
      rw [h'.untouched r
        (hApart r (List.mem_map_of_mem hFirst))]
      exact hNew
    · rcases h'.assigned r p hLast with ⟨chunk, hOld, hNew⟩
      have hNot : r ∉ ps.map Prod.fst := fun hMem =>
        hApart r hMem (List.mem_map_of_mem hLast)
      rw [h.untouched r hNot] at hOld
      exact ⟨chunk, hOld, hNew⟩
  untouched := by
    intro r hNot
    rw [List.map_append, List.mem_append, not_or] at hNot
    rw [h'.untouched r hNot.2, h.untouched r hNot.1]
  queued := by
    rcases h.queued with ⟨new, hGets, hAsks⟩
    rcases h'.queued with ⟨new', hGets', hAsks'⟩
    refine ⟨new ++ new', ?_, ?_⟩
    · rw [hGets', hGets, List.append_assoc]
    · exact List.rel_append hAsks
        (hAsks'.imp fun _ _ => h.asks)

/- What the scan sees of a chunk not asked for. -/
theorem Scanned.waiting
    (h : Scanned n ps m)
    (hNot : r ∉ ps.map Prod.fst) :
    m.config.waiting r = n.config.waiting r := by
  unfold BtConfig.waiting
  rw [h.untouched r hNot]

theorem Scanned.candidates
    (h : Scanned n ps m)
    (hNot : r ∉ ps.map Prod.fst) :
    m.config.candidates r = n.config.candidates r := by
  unfold BtConfig.candidates
  rw [h.waiting hNot, h.announcers]

theorem Scanned.bad
    (h : Scanned n ps m)
    (p : PeerRef) :
    (m.config.peer p).bad now =
      (n.config.peer p).bad now := by
  unfold BtPeer.bad
  rw [h.badTime]

theorem Scanned.forsaken
    (h : Scanned n ps m)
    (hNot : r ∉ ps.map Prod.fst) :
    m.config.forsaken now r = n.config.forsaken now r := by
  unfold BtConfig.forsaken
  rw [h.waiting hNot, h.announcers]
  simp only [h.bad]

theorem Scanned.free_none
    (h : Scanned n [] m) :
    m.config.free now = n.config.free now := by
  funext q
  have hBusy := h.busy q
  rw [List.map_nil] at hBusy
  have hSame :
      (m.config.peer q).downloading =
        (n.config.peer q).downloading := by
    rw [Bool.eq_iff_iff, hBusy]
    simp
  unfold BtConfig.free
  rw [hSame, h.bad]

theorem Scanned.free_one
    (h : Scanned n [(r, p)] m) :
    m.config.free now =
      Function.update (n.config.free now) p false := by
  funext q
  have hBusy := h.busy q
  by_cases hq : q = p
  · subst hq
    have hDown : (m.config.peer q).downloading = true :=
      hBusy.mpr (.inr (by simp))
    simp [BtConfig.free, hDown]
  · have hSame :
        (m.config.peer q).downloading =
          (n.config.peer q).downloading := by
      rw [Bool.eq_iff_iff, hBusy]
      simp [hq]
    rw [Function.update_of_ne hq]
    unfold BtConfig.free
    rw [hSame, h.bad]

/- The WHOHAS packet stays as long. -/
theorem Scanned.fits
    (h : Scanned n ps m) :
    WhohasFits m.config ↔ WhohasFits n.config := by
  have hNodes :
      (downloadChunks m.config).length =
        (downloadChunks n.config).length := by
    unfold downloadChunks
    rw [List.length_filterMap_eq_countP,
      List.length_filterMap_eq_countP, h.download]
    simp only [h.isSome]
  unfold WhohasFits
  rw [hNodes, h.numChunks, h.peers, h.identity]
  simp only [h.id]

end

end PeerNet

------------------------------------------------------------
-- The Whole Scan
------------------------------------------------------------

namespace PeerNet

open Prog

/-
  No scan reaches the limit: there is room, and `max_conn` is
  still an `int` when it was raised for every chunk.
-/
structure Unlimited
    (c : BtConfig) : Prop where
  room : c.curDownload < c.maxConn
  counts : c.maxConn + c.download.length < 2 ^ 31

/- The rest of a download list, where a scan can go on. -/
structure Scannable
    (c : BtConfig)
    (rs : List ChunkRef) : Prop where
  room : c.curDownload < c.maxConn
  distinct : DistinctAddrs c
  nodup : rs.Nodup
  listed : ∀ r ∈ rs, r ∈ c.download
  live : ∀ r ∈ rs, (c.chunk r).isSome
  announced : ∀ r ∈ rs, ∀ q ∈ c.announcers r, q ∈ c.peers

section

variable {env : Env} {now : Int} {n m : Node}
variable {ps : List (ChunkRef × PeerRef)}
variable {r : ChunkRef} {rs : List ChunkRef}

theorem Scannable.next
    (h : Scannable n.config (r :: rs))
    (hScanned : Scanned n ps m) :
    Scannable m.config rs where
  room := hScanned.room h.room
  distinct := by
    intro p hp q hq hAddr
    rw [hScanned.peers] at hp hq
    rw [hScanned.addr, hScanned.addr] at hAddr
    exact h.distinct p hp q hq hAddr
  nodup := (List.nodup_cons.mp h.nodup).2
  listed := by
    intro s hs
    rw [hScanned.download]
    exact h.listed s (List.mem_cons_of_mem _ hs)
  live := by
    intro s hs
    rw [hScanned.isSome]
    exact h.live s (List.mem_cons_of_mem _ hs)
  announced := by
    intro s hs
    rw [hScanned.announcers, hScanned.peers]
    exact h.announced s (List.mem_cons_of_mem _ hs)

/- The pairs that a scan of these chunks makes. -/
def BtConfig.pairs
    (now : Int)
    (c : BtConfig)
    (rs : List ChunkRef) : List (ChunkRef × PeerRef) :=
  Greedy.assign c.candidates (c.free now) rs

/-
  The scan of these chunks hands out the free peers, unless
  a WHOHAS that is due does not fit.
-/
def Scans
    (now : Int)
    (n : Node)
    (rs : List ChunkRef)
    (x : Prog Unit)
    (m : Node) : Prop :=
  wp x
    (fun _ k => Scanned n (n.config.pairs now rs) k ∧
      (WhohasDue now n.config rs → WhohasFits n.config))
    (fun _ _ => WhohasDue now n.config rs ∧
      ¬ WhohasFits n.config) m

/- A pair is made of a listed chunk. -/
theorem BtConfig.mem_of_pairs
    {c : BtConfig}
    (h : r ∈ (c.pairs now rs).map Prod.fst) :
    r ∈ rs := by
  rcases List.mem_map.mp h with ⟨⟨s, p⟩, hPair, rfl⟩
  exact (Greedy.of_mem_assign hPair).1

theorem Scanned.pairs_none
    (h : Scanned n [] m) :
    m.config.pairs now rs = n.config.pairs now rs := by
  unfold BtConfig.pairs
  rw [h.free_none]
  apply Greedy.assign_congr
  intro s _
  exact h.candidates (by simp)

theorem Scanned.pairs_one
    {p : PeerRef}
    (h : Scanned n [(r, p)] m)
    (hNew : r ∉ rs) :
    m.config.pairs now rs =
      Greedy.assign n.config.candidates
        (Function.update (n.config.free now) p false) rs := by
  unfold BtConfig.pairs
  rw [h.free_one]
  apply Greedy.assign_congr
  intro s hs
  apply h.candidates
  intro hMem
  have hFirst : s = r := by simpa using hMem
  exact hNew (hFirst ▸ hs)

/- Past a chunk with a good peer the same WHOHAS is due. -/
theorem Scanned.due
    (h : Scanned n ps m)
    (hLast : m.config.lastWhohas = n.config.lastWhohas)
    (hJobs : ∀ s ∈ ps.map Prod.fst, s = r)
    (hNew : r ∉ rs)
    (hGood : n.config.forsaken now r = false) :
    WhohasDue now m.config rs ↔
      WhohasDue now n.config (r :: rs) := by
  have hSame :
      ∀ s ∈ rs, m.config.forsaken now s =
        n.config.forsaken now s := by
    intro s hs
    apply h.forsaken
    intro hMem
    exact hNew (hJobs s hMem ▸ hs)
  unfold WhohasDue
  rw [hLast]
  constructor
  · rintro ⟨hLate, s, hs, hAll⟩
    rw [hSame s hs] at hAll
    exact ⟨hLate, s, List.mem_cons_of_mem _ hs, hAll⟩
  · rintro ⟨hLate, s, hs, hAll⟩
    rcases List.mem_cons.mp hs with rfl | hRest
    · rw [hGood] at hAll
      cases hAll
    · refine ⟨hLate, s, hRest, ?_⟩
      rw [hSame s hRest]
      exact hAll

/- The first chunk is done with, and the others follow. -/
theorem Scans.cons
    {x : Prog Unit}
    (h : Scans now m rs x m)
    (hScanned : Scanned n ps m)
    (hJobs : ∀ s ∈ ps.map Prod.fst, s = r)
    (hNew : r ∉ rs)
    (hPairs : n.config.pairs now (r :: rs) =
      ps ++ m.config.pairs now rs)
    (hDue : WhohasDue now n.config (r :: rs) →
      WhohasDue now m.config rs ∨ WhohasFits n.config)
    (hDue' : WhohasDue now m.config rs →
      WhohasDue now n.config (r :: rs)) :
    Scans now n (r :: rs) x m := by
  unfold Scans
  apply wp_mono h
  · rintro _ k ⟨hRest, hFits⟩
    rw [hPairs]
    refine ⟨hScanned.append hRest ?_, fun hNow => ?_⟩
    · intro s hs hMem
      have hFirst := hJobs s hs
      exact hNew (hFirst ▸ BtConfig.mem_of_pairs hMem)
    · rcases hDue hNow with hLater | hDone
      · exact hScanned.fits.mp (hFits hLater)
      · exact hDone
  · rintro _ _ ⟨hLater, hNot⟩
    exact ⟨hDue' hLater,
      fun hFits => hNot (hScanned.fits.mpr hFits)⟩

/- Nobody was free, and at most a WHOHAS was sent. -/
theorem Scans.skipped
    {x : Prog Unit}
    (h : Scans now m rs x m)
    (hScanned : Scanned n [] m)
    (hNew : r ∉ rs)
    (hNone : (n.config.candidates r).find?
      (n.config.free now) = none)
    (hDue : WhohasDue now n.config (r :: rs) →
      WhohasDue now m.config rs ∨ WhohasFits n.config)
    (hDue' : WhohasDue now m.config rs →
      WhohasDue now n.config (r :: rs)) :
    Scans now n (r :: rs) x m := by
  apply h.cons hScanned (by simp) hNew _ hDue hDue'
  rw [hScanned.pairs_none]
  exact Greedy.assign_none hNone

/- Nobody was free, and somebody was good. -/
theorem Scans.passed
    {x : Prog Unit}
    (h : Scans now m rs x m)
    (hTicked : n.Ticked m)
    (hNew : r ∉ rs)
    (hNone : (n.config.candidates r).find?
      (n.config.free now) = none)
    (hGood : n.config.forsaken now r = false) :
    Scans now n (r :: rs) x m := by
  have hScanned : Scanned n [] m := hTicked.scanned
  have hDue := hScanned.due
    (congrArg BtConfig.lastWhohas hTicked.config)
    (by simp) hNew hGood
  exact h.skipped hScanned hNew hNone
    (fun hNow => .inl (hDue.mpr hNow)) hDue.mp

/- The first free peer was asked. -/
theorem Scans.asked
    {x : Prog Unit}
    {p : PeerRef}
    (h : Scans now m rs x m)
    (hScanned : Scanned n [(r, p)] m)
    (hLast : m.config.lastWhohas = n.config.lastWhohas)
    (hNew : r ∉ rs)
    (hFirst : (n.config.candidates r).find?
      (n.config.free now) = some p)
    (hGood : n.config.forsaken now r = false) :
    Scans now n (r :: rs) x m := by
  have hJobs : ∀ s ∈ [(r, p)].map Prod.fst, s = r := by
    simp
  have hDue := hScanned.due hLast hJobs hNew hGood
  apply h.cons hScanned hJobs hNew _
    (fun hNow => .inl (hDue.mpr hNow)) hDue.mp
  rw [hScanned.pairs_one hNew]
  exact Greedy.assign_some hFirst

/- A WHOHAS within 15 seconds of the last is not due. -/
theorem not_whohasDue
    {c : BtConfig}
    (hEarly : now - c.lastWhohas < whohasMillis) :
    ¬ WhohasDue now c rs :=
  fun hDue => absurd hEarly (Int.not_lt.mpr hDue.1)

/- Nobody is left to ask, and so a WHOHAS is. -/
theorem sendWhohas_scans
    {x : Prog Unit}
    (h : Scannable n.config (r :: rs))
    (hRest : ∀ m, Scanned n [] m → Scans now m rs x m)
    (hTicked : n.Ticked m)
    (hNone : (n.config.candidates r).find?
      (n.config.free now) = none)
    (hAll : n.config.forsaken now r = true) :
    Scans now n (r :: rs)
      (do
        let _ ← sendWhohas (env.stopped now)
        x) m := by
  have hNew : r ∉ rs := (List.nodup_cons.mp h.nodup).1
  have hList : n.config.download ≠ [] :=
    List.ne_nil_of_mem (h.listed r (by simp))
  unfold Scans
  rw [wp_bind]
  apply sendWhohas_stopped hTicked hList
  · intro hEarly k hk
    have hLater :
        now - k.config.lastWhohas < whohasMillis := by
      rw [hk.config]
      exact hEarly
    exact (hRest k hk.scanned).skipped hk.scanned hNew hNone
      (fun hDue => absurd hDue (not_whohasDue hEarly))
      (fun hDue => absurd hDue (not_whohasDue hLater))
  · intro _ hFits k hConfig hGets hFault
    have hScanned : Scanned n [] k :=
      .quiet now hConfig hGets hFault
    have hLater :
        now - k.config.lastWhohas < whohasMillis := by
      rw [hConfig]
      dsimp only
      rw [Int.sub_self]
      decide
    exact (hRest k hScanned).skipped hScanned hNew hNone
      (fun _ => .inr hFits)
      (fun hDue => absurd hDue (not_whohasDue hLater))
  · intro hLate hNot f k
    exact ⟨⟨hLate, r, by simp, hAll⟩, hNot⟩

/- `get_all_the_thingz`'s loop over the download list. -/
theorem scanChunks_scans
    (env : Env)
    (h : Scannable n.config rs) :
    Scans now n rs (scanChunks (env.stopped now) rs) n := by
  induction rs generalizing n with
  | nil =>
      refine ⟨.quiet n.config.lastWhohas rfl rfl rfl, ?_⟩
      rintro ⟨_, r, hMem, _⟩
      cases hMem
  | cons r rs ih =>
      have hNew : r ∉ rs := (List.nodup_cons.mp h.nodup).1
      have hRest :
          ∀ ps m, Scanned n ps m →
            Scans now m rs
              (scanChunks (env.stopped now) rs) m :=
        fun _ _ hScanned => ih (h.next hScanned)
      rcases Option.isSome_iff_exists.mp
        (h.live r (by simp)) with ⟨chunk, hLive⟩
      have hWaits := BtConfig.waiting_of_live hLive
      unfold Scans scanChunks
      rw [wp_bind, wp_get, wp_ite]
      refine ⟨fun _ => ?_, fun hFull => absurd h.room hFull⟩
      rw [wp_bind, wp_derefChunk]
      refine ⟨by simp [hLive], fun chunk' hLive' => ?_⟩
      cases hLive.symm.trans hLive'
      rw [wp_ite]
      refine ⟨fun hOpen => ?_, fun hSettled => ?_⟩
      · have hWaiting : n.config.waiting r = true := by
          simp [hWaits, hOpen]
        have hPeers :=
          BtConfig.candidates_of_waiting hLive hWaiting
        have hAll :
            n.config.forsaken now r =
              chunk.peers.all fun p =>
                (n.config.peer p).bad now := by
          rw [BtConfig.forsaken, hWaiting, Bool.true_and,
            BtConfig.announcers_of_live hLive]
        rw [wp_bind]
        apply scanPeers_stopped chunk.peers true (.refl n)
        · intro hNone k hk
          rw [Bool.true_and, ← hAll, wp_ite]
          rw [← hPeers] at hNone
          refine ⟨fun hBad => ?_, fun hGood => ?_⟩
          · exact sendWhohas_scans h (hRest []) hk hNone hBad
          · rw [Bool.not_eq_true] at hGood
            exact (hRest [] k hk.scanned).passed hk hNew
              hNone hGood
        · intro p hFirst k hk
          have hMem := List.mem_of_find?_eq_some hFirst
          have hFree := List.find?_some hFirst
          have hKnown : p ∈ n.config.peers := by
            apply h.announced r (by simp)
            rw [BtConfig.announcers_of_live hLive]
            exact hMem
          have hGood : n.config.forsaken now r = false := by
            rw [hAll, List.all_eq_false]
            refine ⟨p, hMem, ?_⟩
            simpa using (BtConfig.free_iff.mp hFree).2
          have hScanned :=
            Scanned.one (env.stopped now) p hk hLive
          have hLast :
              k.config.lastWhohas = n.config.lastWhohas := by
            rw [hk.config]
          rw [← hPeers] at hFirst
          rw [← hk.config] at hLive
          apply sendGet_spec _ _ _ hLive
          · exact (hRest _ _ hScanned).asked hScanned hLast hNew
              hFirst hGood
          · rw [hk.config]
            exact h.room
          · rw [hk.config]
            exact h.distinct.peerWithAddr_addr hKnown
      · have hNot : ¬ n.config.waiting r = true := by
          rw [hWaits]
          intro hWaiting
          apply hSettled
          simpa using hWaiting
        have hNone :
            (n.config.candidates r).find?
              (n.config.free now) = none := by
          rw [BtConfig.candidates_of_settled hNot]
          rfl
        have hGood : n.config.forsaken now r = false := by
          rw [BtConfig.forsaken, Bool.not_eq_true _ |>.mp hNot]
          rfl
        exact (hRest [] n (Node.Ticked.refl n).scanned).passed
          (.refl n) hNew hNone hGood

end

end PeerNet

------------------------------------------------------------
-- Greedy and Maximal
------------------------------------------------------------

namespace PeerNet

open Prog

/- From `n` to `m` the chunk was assigned to the peer. -/
def AssignedBy
    (n m : Node)
    (r : ChunkRef)
    (p : PeerRef) : Prop :=
  r ∈ n.config.download ∧ n.config.owner r = none ∧
    m.config.owner r = some p

/-
  The call from `n` to `m` returned. It left downloaded and
  assigned chunks alone, sent one GET for each chunk it
  assigned, to a peer that had announced it and was free,
  gave no peer two chunks, and left no chunk unassigned that
  a free peer has announced.
-/
structure GreedyScan
    (now : Int)
    (n m : Node) : Prop where
  running : m.fault = none
  download : m.config.download = n.config.download
  untouched : ∀ r ∈ n.config.download,
    n.config.done r = true ∨ (n.config.owner r).isSome →
      m.config.chunk r = n.config.chunk r
  asked : ∃ pairs new,
    (pairs.map Prod.fst).Nodup ∧
      (∀ r p, (r, p) ∈ pairs ↔ AssignedBy n m r p) ∧
      m.gets = n.gets ++ new ∧
      List.Forall₂ (Asks n.config) pairs new
  chosen : ∀ r p, AssignedBy n m r p →
    p ∈ n.config.announcers r ∧
      n.config.free now p = true
  exclusive : ∀ r s p,
    m.config.owner r = some p →
    m.config.owner s = some p → r = s
  maximal : ∀ r ∈ m.config.download,
    m.config.done r = false → m.config.owner r = none →
      ∀ p ∈ m.config.announcers r,
        m.config.free now p = false

section

variable {env : Env} {now : Int} {n m : Node}
variable {r : ChunkRef} {p : PeerRef}

namespace BtConfig

variable {c : BtConfig}

theorem waiting_iff
    (hLive : (c.chunk r).isSome) :
    c.waiting r = true ↔
      c.done r = false ∧ c.owner r = none := by
  rcases Option.isSome_iff_exists.mp hLive with
    ⟨chunk, hChunk⟩
  rw [waiting_of_live hChunk, done_of_live hChunk,
    owner_of_live hChunk]
  simp

/- A pair is a chunk that waits and a free announcer. -/
theorem of_mem_pairs
    {rs : List ChunkRef}
    (h : (r, p) ∈ c.pairs now rs) :
    r ∈ rs ∧ c.waiting r = true ∧ p ∈ c.announcers r ∧
      c.free now p = true := by
  rcases Greedy.of_mem_assign h with ⟨hMem, hWants, hFree⟩
  by_cases hWaiting : c.waiting r = true
  · rw [candidates, if_pos hWaiting] at hWants
    exact ⟨hMem, hWaiting, hWants, hFree⟩
  · rw [candidates_of_settled hWaiting] at hWants
    cases hWants

end BtConfig

/- A chunk of a pair was waiting. -/
theorem Pairing.waited
    (h : Pairing n.config)
    (hPair :
      (r, p) ∈ n.config.pairs now n.config.download) :
    n.config.done r = false ∧ n.config.owner r = none := by
  rcases BtConfig.of_mem_pairs hPair with
    ⟨hMem, hWaiting, _⟩
  exact (BtConfig.waiting_iff (h.live r hMem)).mp hWaiting

/- A peer that a chunk is fetched from is not free. -/
theorem Pairing.not_free
    (h : Pairing n.config)
    (hOwner : n.config.owner r = some p) :
    n.config.free now p = false := by
  have hTarget := (h.matched p r).mpr hOwner
  have hKnown : p ∈ n.config.peers := by
    by_contra hNot
    rw [BtConfig.target, if_neg hNot] at hTarget
    cases hTarget
  have hBusy := h.busy p hKnown
  rw [hTarget] at hBusy
  simp [BtConfig.free, hBusy]

section

variable {pairs : List (ChunkRef × PeerRef)}

/- The peer of a chunk is a new one or the old one. -/
theorem Scanned.owner
    (h : Scanned n pairs m)
    (hOwner : m.config.owner r = some p) :
    (r, p) ∈ pairs ∨ n.config.owner r = some p := by
  by_cases hMem : r ∈ pairs.map Prod.fst
  · rcases List.mem_map.mp hMem with ⟨⟨s, q⟩, hPair, rfl⟩
    rcases h.assigned s q hPair with ⟨chunk, _, hNew⟩
    rw [BtConfig.owner_of_live hNew] at hOwner
    cases hOwner
    exact .inl hPair
  · unfold BtConfig.owner at hOwner ⊢
    rw [h.untouched r hMem] at hOwner
    exact .inr hOwner

theorem Scanned.owner_of_pair
    (h : Scanned n pairs m)
    (hPair : (r, p) ∈ pairs) :
    m.config.owner r = some p := by
  rcases h.assigned r p hPair with ⟨chunk, _, hNew⟩
  rw [BtConfig.owner_of_live hNew]
  rfl

/- Who is free in the end was free, and was not taken. -/
theorem Scanned.free
    (h : Scanned n pairs m)
    (hFree : m.config.free now p = true) :
    n.config.free now p = true ∧
      p ∉ pairs.map Prod.snd := by
  rcases BtConfig.free_iff.mp hFree with ⟨hIdle, hGood⟩
  have hNot : ¬ (m.config.peer p).downloading = true := by
    simp [hIdle]
  rw [h.busy p, not_or, Bool.not_eq_true] at hNot
  rw [h.bad] at hGood
  exact ⟨BtConfig.free_iff.mpr ⟨hNot.1, hGood⟩, hNot.2⟩

end

variable
  (h : Scanned n (n.config.pairs now n.config.download) m)
include h

theorem Scanned.assignedBy_iff
    (hPairing : Pairing n.config) :
    (r, p) ∈ n.config.pairs now n.config.download ↔
      AssignedBy n m r p := by
  constructor
  · intro hPair
    exact ⟨(BtConfig.of_mem_pairs hPair).1,
      (hPairing.waited hPair).2, h.owner_of_pair hPair⟩
  · rintro ⟨_, hNone, hOwner⟩
    rcases h.owner hOwner with hPair | hOld
    · exact hPair
    · rw [hNone] at hOld
      cases hOld

/- No peer has two chunks, new or old. -/
theorem Scanned.exclusive
    (hPairing : Pairing n.config)
    {s : ChunkRef}
    (hR : m.config.owner r = some p)
    (hS : m.config.owner s = some p) :
    r = s := by
  have hApart :
      ∀ {i j}, (i, p) ∈
          n.config.pairs now n.config.download →
        n.config.owner j = some p → i = j := by
    intro i j hPair hOld
    have hFree := (BtConfig.of_mem_pairs hPair).2.2.2
    rw [hPairing.not_free hOld] at hFree
    cases hFree
  rcases h.owner hR with hNewR | hOldR
  · rcases h.owner hS with hNewS | hOldS
    · exact Greedy.unique_of_assign hNewR hNewS
    · exact hApart hNewR hOldS
  · rcases h.owner hS with hNewS | hOldS
    · exact (hApart hNewS hOldR).symm
    · have hTargetR := (hPairing.matched p r).mpr hOldR
      have hTargetS := (hPairing.matched p s).mpr hOldS
      exact Option.some.inj (hTargetR.symm.trans hTargetS)

/- No free peer has announced a chunk that still waits. -/
theorem Scanned.maximal
    (hPairing : Pairing n.config)
    (hMem : r ∈ n.config.download)
    (hNeeded : m.config.done r = false)
    (hNone : m.config.owner r = none)
    (hHas : p ∈ m.config.announcers r) :
    m.config.free now p = false := by
  have hNot :
      ∀ q, (r, q) ∉
        n.config.pairs now n.config.download := by
    intro q hPair
    rw [h.owner_of_pair hPair] at hNone
    cases hNone
  have hLeft :
      r ∉ (n.config.pairs now n.config.download).map
        Prod.fst := by
    intro hFst
    rcases List.mem_map.mp hFst with ⟨⟨s, q⟩, hPair, rfl⟩
    exact hNot q hPair
  have hLive : (m.config.chunk r).isSome := by
    rw [h.isSome]
    exact hPairing.live r hMem
  have hWaiting : n.config.waiting r = true := by
    rw [← h.waiting hLeft]
    exact (BtConfig.waiting_iff hLive).mpr ⟨hNeeded, hNone⟩
  have hWants : p ∈ n.config.candidates r := by
    rw [BtConfig.candidates, if_pos hWaiting,
      ← h.announcers]
    exact hHas
  by_contra hFree
  rw [Bool.not_eq_false] at hFree
  rcases h.free hFree with ⟨hWas, hTaken⟩
  rcases Greedy.taken_of_unassigned hMem hNot hWants hWas
    with ⟨s, hPair⟩
  exact hTaken (List.mem_map.mpr ⟨(s, p), hPair, rfl⟩)

/- To hand the free peers out is to be greedy. -/
theorem Scanned.greedyScan
    (hPairing : Pairing n.config)
    (hRunning : n.fault = none) :
    GreedyScan now n m where
  running := h.fault.trans hRunning
  download := h.download
  untouched := by
    intro r _ hSettled
    apply h.untouched
    intro hFst
    rcases List.mem_map.mp hFst with ⟨⟨s, q⟩, hPair, rfl⟩
    rcases hPairing.waited hPair with ⟨hNeeded, hNone⟩
    rcases hSettled with hDone | hOwned
    · rw [hNeeded] at hDone
      cases hDone
    · rw [hNone] at hOwned
      cases hOwned
  asked := by
    rcases h.queued with ⟨new, hGets, hAsks⟩
    exact ⟨_, new, Greedy.nodup_jobs hPairing.nodup,
      fun r p => h.assignedBy_iff hPairing, hGets, hAsks⟩
  chosen := by
    intro r p hAssigned
    have hPair := (h.assignedBy_iff hPairing).mpr hAssigned
    exact (BtConfig.of_mem_pairs hPair).2.2
  exclusive := fun r s p => h.exclusive hPairing
  maximal := by
    intro r hMem hNeeded hNone p hHas
    rw [h.download] at hMem
    exact h.maximal hPairing hMem hNeeded hNone hHas

omit h

/- A state that is paired and below the limit is scanned. -/
theorem Pairing.scannable
    (hPairing : Pairing n.config)
    (hLimit : Unlimited n.config) :
    Scannable n.config n.config.download where
  room := hLimit.room
  distinct := hPairing.distinct
  nodup := hPairing.nodup
  listed := fun _ hr => hr
  live := hPairing.live
  announced := hPairing.announced

/-
  The scan is greedy and maximal if and only if no WHOHAS is
  due in it, or the WHOHAS fits.
-/
theorem greedy_scan_iff
    (env : Env)
    (now : Int)
    (n : Node)
    (hRunning : n.fault = none)
    (hPairing : Pairing n.config)
    (hLimit : Unlimited n.config)
    (hStands :
      env.Stands now n.reads
        (n.step env .getAllTheThingz).reads) :
    GreedyScan now n (n.step env .getAllTheThingz) ↔
      (WhohasDue now n.config n.config.download →
        WhohasFits n.config) := by
  have hSame :
      n.step env .getAllTheThingz =
        n.exec (getAllTheThingz (env.stopped now)) :=
    (agrees_getAllTheThingz env now).exec hStands
  have hScan : Scans now n n.config.download
      (getAllTheThingz (env.stopped now)) n :=
    scanChunks_scans env (hPairing.scannable hLimit)
  rw [hSame]
  unfold Node.exec
  rw [hRunning]
  unfold Scans wp at hScan
  cases hRun : getAllTheThingz (env.stopped now) n with
  | ok a m =>
      rw [hRun] at hScan
      exact ⟨fun _ => hScan.2,
        fun _ => hScan.1.greedyScan hPairing hRunning⟩
  | error f m =>
      rw [hRun] at hScan
      constructor
      · intro hGreedy
        exact absurd hGreedy.running (Option.some_ne_none f)
      · exact fun hFits => absurd (hFits hScan.1) hScan.2

end

/- A chunk that waits, announced by these peers. -/
def waitingChunk
    (peers : List PeerRef) : BtChunk where
  id := 0
  hash := Vector.replicate 20 0
  nextExpected := initSeqnum
  downloaded := false
  totalData := 0
  peer := none
  peers := peers
  packets := .live []

/- `count` chunks are wanted, and one peer has the last. -/
def lastAnnouncedNode
    (count : Nat) : Node :=
  { onePeerNode with
    config :=
      { onePeerNode.config with
        numChunks := count
        download := List.range count
        chunk := fun r =>
          if r + 1 = count then some (waitingChunk [0])
          else if r < count then some (waitingChunk [])
          else none
        nextChunk := count } }

section

variable (count : Nat)

theorem lastAnnouncedNode_peer
    (p : PeerRef) :
    (lastAnnouncedNode count).config.peer p = idlePeer :=
  rfl

/- Its chunks wait, and the peer has the last. -/
theorem lastAnnouncedNode_chunk
    {r : ChunkRef}
    (hr : r < count) :
    (lastAnnouncedNode count).config.chunk r =
      some (waitingChunk
        (if r + 1 = count then [0] else [])) := by
  by_cases hLast : r + 1 = count
  · simp [lastAnnouncedNode, hLast]
  · simp [lastAnnouncedNode, hLast, hr]

theorem lastAnnouncedNode_owner
    (r : ChunkRef) :
    (lastAnnouncedNode count).config.owner r = none := by
  unfold BtConfig.owner lastAnnouncedNode
  dsimp only
  split
  · rfl
  · split <;> rfl

theorem lastAnnouncedNode_pairing :
    Pairing (lastAnnouncedNode count).config where
  distinct := onePeerNode_configured.distinct
  nodup := List.nodup_range
  live := by
    intro r hr
    rw [lastAnnouncedNode_chunk count (List.mem_range.mp hr)]
    rfl
  matched := by
    intro p r
    rw [lastAnnouncedNode_owner, BtConfig.target,
      lastAnnouncedNode_peer]
    simp [idlePeer]
  busy := by
    intro p _
    rw [BtConfig.target, lastAnnouncedNode_peer]
    simp [idlePeer]
  announced := by
    intro r hr q hq
    have hChunk :=
      lastAnnouncedNode_chunk count (List.mem_range.mp hr)
    rw [BtConfig.announcers_of_live hChunk] at hq
    have hOnly : q ∈ [0] := by
      by_cases hLast : r + 1 = count
      · simpa [waitingChunk, hLast] using hq
      · simp [waitingChunk, hLast] at hq
    exact hOnly

end

/- Two chunks, and 15 seconds are not over. -/
theorem greedy_scan_two :
    GreedyScan 1 (lastAnnouncedNode 2)
      ((lastAnnouncedNode 2).step stillEnv
        .getAllTheThingz) :=
  (greedy_scan_iff stillEnv 1 (lastAnnouncedNode 2) rfl
    (lastAnnouncedNode_pairing 2) ⟨by decide, by decide⟩
    (fun _ _ _ => rfl)).mpr
    (fun hDue => absurd hDue.1 (by decide))

/-
  3276 chunks, the first of which nobody has announced. The
  WHOHAS has a length of 65540 bytes, which is stored as 4,
  and the last chunk is not asked for.
-/
def longScanned : Node :=
  (lastAnnouncedNode 3276).step (stillEnv.stopped 15000)
    .getAllTheThingz

theorem long_list_not_scanned :
    Pairing (lastAnnouncedNode 3276).config ∧
      Unlimited (lastAnnouncedNode 3276).config ∧
      (∀ first last,
        (stillEnv.stopped 15000).Stands 15000 first last) ∧
      (longScanned.config.waiting 3275 = true ∧
        longScanned.config.announcers 3275 = [0] ∧
        longScanned.config.free 15000 0 = true) ∧
      ¬ GreedyScan 15000 (lastAnnouncedNode 3276)
        longScanned := by
  have hStops : longScanned.fault = some .bufferOverflow := by
    decide +kernel
  have hLeft :
      longScanned.config.waiting 3275 = true ∧
        longScanned.config.announcers 3275 = [0] ∧
        longScanned.config.free 15000 0 = true := by
    decide +kernel
  have hLimit : Unlimited (lastAnnouncedNode 3276).config :=
    ⟨by decide, by decide +kernel⟩
  refine ⟨lastAnnouncedNode_pairing 3276, hLimit,
    fun _ _ _ _ _ => rfl, hLeft, fun hGreedy => ?_⟩
  rw [hGreedy.running] at hStops
  cases hStops

end PeerNet
