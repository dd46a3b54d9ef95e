import Mathlib.Data.List.Basic
import PeerNet.Lib.Matching
import PeerNet.Receiver.Moves

/-
  The pairing of peers and chunks.

  A peer that a chunk is fetched from points to the chunk,
  and the chunk points back. `Paired` says that the two
  sides agree, that they agree with the flags of the peer,
  that the chunk heap holds just the download list, and that
  the counters count it. Every move and every way through
  `process_data` keeps it, and where it holds no dangling
  pointer is followed.

  Key definitions include:
    * `BtConfig.target`, `BtConfig.owner`
    * `Paired`

  Key theorems include:
    * `Paired.frame`
    * `Paired.unlink`
    * `Paired.move`
    * `Paired.data`
    * `Paired.not_dangling`
-/

------------------------------------------------------------
-- Views of a Configuration
------------------------------------------------------------

namespace PeerNet

namespace BtConfig

/- The chunk a listed peer points to. -/
def target
    (c : BtConfig)
    (p : PeerRef) : Option ChunkRef :=
  if p ∈ c.peers then (c.peer p).chunk else none

/- The peer a live chunk points to. -/
def owner
    (c : BtConfig)
    (r : ChunkRef) : Option PeerRef :=
  (c.chunk r).bind (·.peer)

/- Is the chunk downloaded? -/
def done
    (c : BtConfig)
    (r : ChunkRef) : Bool :=
  (c.chunk r).any (·.downloaded)

/- The peers that have announced the chunk. -/
def announcers
    (c : BtConfig)
    (r : ChunkRef) : List PeerRef :=
  ((c.chunk r).map (·.peers)).getD []

section

variable {c : BtConfig} {p : PeerRef} {r : ChunkRef}
variable {fp : BtPeer → BtPeer} {fc : BtChunk → BtChunk}

theorem target_of_mem
    (hp : p ∈ c.peers) :
    c.target p = (c.peer p).chunk :=
  if_pos hp

theorem owner_of_live
    {chunk : BtChunk}
    (hLive : c.chunk r = some chunk) :
    c.owner r = chunk.peer := by
  simp [owner, hLive]

theorem done_of_live
    {chunk : BtChunk}
    (hLive : c.chunk r = some chunk) :
    c.done r = chunk.downloaded := by
  simp [done, hLive]

theorem announcers_of_live
    {chunk : BtChunk}
    (hLive : c.chunk r = some chunk) :
    c.announcers r = chunk.peers := by
  simp [announcers, hLive]

theorem target_setPeer
    (hp : p ∈ c.peers) :
    (c.setPeer p fp).target =
      Function.update c.target p (fp (c.peer p)).chunk := by
  funext q
  by_cases hq : q = p
  · subst hq
    simp [target, hp]
  · simp [target, hq]

theorem target_setPeer_same
    (hSame : (fp (c.peer p)).chunk = (c.peer p).chunk) :
    (c.setPeer p fp).target = c.target := by
  funext q
  by_cases hq : q = p
  · subst hq
    simp [target, hSame]
  · simp [target, hq]

@[simp] theorem target_setChunk :
    (c.setChunk r fc).target = c.target := rfl

@[simp] theorem owner_setPeer :
    (c.setPeer p fp).owner = c.owner := rfl

@[simp] theorem done_setPeer :
    (c.setPeer p fp).done = c.done := rfl

@[simp] theorem announcers_setPeer :
    (c.setPeer p fp).announcers = c.announcers := rfl

theorem owner_setChunk
    {chunk : BtChunk}
    (hLive : c.chunk r = some chunk) :
    (c.setChunk r fc).owner =
      Function.update c.owner r (fc chunk).peer := by
  funext s
  by_cases hs : s = r
  · subst hs
    simp [owner, hLive]
  · simp [owner, hs]

theorem owner_setChunk_same
    (hSame : ∀ chunk, c.chunk r = some chunk →
      (fc chunk).peer = chunk.peer) :
    (c.setChunk r fc).owner = c.owner := by
  funext s
  by_cases hs : s = r
  · subst hs
    cases hLive : c.chunk s with
    | none => simp [owner, hLive]
    | some chunk => simp [owner, hLive, hSame chunk hLive]
  · simp [owner, hs]

theorem done_setChunk_same
    (hSame : ∀ chunk, c.chunk r = some chunk →
      (fc chunk).downloaded = chunk.downloaded) :
    (c.setChunk r fc).done = c.done := by
  funext s
  by_cases hs : s = r
  · subst hs
    cases hLive : c.chunk s with
    | none => simp [done, hLive]
    | some chunk => simp [done, hLive, hSame chunk hLive]
  · simp [done, hs]

theorem announcers_setChunk_same
    (hSame : ∀ chunk, c.chunk r = some chunk →
      (fc chunk).peers = chunk.peers) :
    (c.setChunk r fc).announcers = c.announcers := by
  funext s
  by_cases hs : s = r
  · subst hs
    cases hLive : c.chunk s with
    | none => simp [announcers, hLive]
    | some chunk =>
        simp [announcers, hLive, hSame chunk hLive]
  · simp [announcers, hs]

/- No update of a chunk frees or allocates one. -/
@[simp] theorem isSome_setChunk
    (s : ChunkRef) :
    ((c.setChunk r fc).chunk s).isSome =
      (c.chunk s).isSome := by
  by_cases hs : s = r
  · subst hs
    simp
  · simp [hs]

end

end BtConfig

end PeerNet

------------------------------------------------------------
-- The Invariant
------------------------------------------------------------

namespace PeerNet

/- The addresses of the peer list are pairwise distinct. -/
def DistinctAddrs
    (c : BtConfig) : Prop :=
  ∀ p ∈ c.peers, ∀ q ∈ c.peers,
    (c.peer p).addr = (c.peer q).addr → p = q

/- The peer that an address finds is the one that has it. -/
theorem DistinctAddrs.peerWithAddr_addr
    {c : BtConfig}
    (h : DistinctAddrs c)
    {p : PeerRef}
    (hp : p ∈ c.peers) :
    peerWithAddr (c.peer p).addr c = some p := by
  cases hFind : peerWithAddr (c.peer p).addr c with
  | none =>
      have hNot := List.find?_eq_none.mp hFind p hp
      simp at hNot
  | some q =>
      have hq := mem_peers_of_peerWithAddr hFind
      have hSame := addr_of_peerWithAddr hFind
      rw [h q hq p hp hSame]

/- Peers and chunks are paired, and the counters count. -/
structure Paired
    (c : BtConfig) : Prop where
  distinct : DistinctAddrs c
  nodup : c.download.Nodup
  live : ∀ r, (c.chunk r).isSome ↔ r ∈ c.download
  fresh : ∀ r ∈ c.download, r < c.nextChunk
  matched : Matching.Matched c.target c.owner
  busy : ∀ p ∈ c.peers,
    (c.peer p).downloading = (c.target p).isSome
  awaited : ∀ p ∈ c.peers, (c.target p).isSome →
    (c.peer p).lastResponse ≠ -1
  timed : ∀ p ∈ c.peers,
    (c.peer p).lastResponse ≠ -1 → (c.target p).isSome
  needed : ∀ r, (c.owner r).isSome → c.done r = false
  announced : ∀ r, ∀ q ∈ c.announcers r, q ∈ c.peers
  counted : c.download ≠ [] →
    c.numChunks = c.download.length ∧
      c.numDownloaded = c.download.countP c.done

/- The two configurations look the same to the pairing. -/
structure SamePairing
    (c c' : BtConfig) : Prop where
  peers : c'.peers = c.peers
  addr : ∀ p, (c'.peer p).addr = (c.peer p).addr
  downloading : ∀ p ∈ c.peers,
    (c'.peer p).downloading = (c.peer p).downloading
  response : ∀ p ∈ c.peers,
    (c'.peer p).lastResponse = -1 ↔
      (c.peer p).lastResponse = -1
  target : c'.target = c.target
  live : ∀ r, (c'.chunk r).isSome = (c.chunk r).isSome
  owner : c'.owner = c.owner
  done : c'.done = c.done
  announced : ∀ r, ∀ q ∈ c'.announcers r,
    q ∈ c.announcers r ∨ q ∈ c.peers
  download : c'.download = c.download
  nextChunk : c'.nextChunk = c.nextChunk
  numChunks : c'.numChunks = c.numChunks
  numDownloaded : c'.numDownloaded = c.numDownloaded


/- What the pairing does not see keeps it. -/
theorem Paired.frame
    {c c' : BtConfig}
    (h : Paired c)
    (hSame : SamePairing c c') :
    Paired c' where
  distinct := by
    intro p hp q hq hAddr
    rw [hSame.peers] at hp hq
    rw [hSame.addr, hSame.addr] at hAddr
    exact h.distinct p hp q hq hAddr
  nodup := by
    rw [hSame.download]
    exact h.nodup
  live := by
    intro r
    rw [hSame.live, hSame.download]
    exact h.live r
  fresh := by
    rw [hSame.download, hSame.nextChunk]
    exact h.fresh
  matched := by
    rw [hSame.target, hSame.owner]
    exact h.matched
  busy := by
    intro p hp
    rw [hSame.peers] at hp
    rw [hSame.downloading p hp, hSame.target]
    exact h.busy p hp
  awaited := by
    intro p hp hTarget
    rw [hSame.peers] at hp
    rw [hSame.target] at hTarget
    rw [Ne, hSame.response p hp]
    exact h.awaited p hp hTarget
  timed := by
    intro p hp hResponse
    rw [hSame.peers] at hp
    rw [Ne, hSame.response p hp] at hResponse
    rw [hSame.target]
    exact h.timed p hp hResponse
  needed := by
    rw [hSame.owner, hSame.done]
    exact h.needed
  announced := by
    intro r q hq
    rw [hSame.peers]
    rcases hSame.announced r q hq with hOld | hNew
    · exact h.announced r q hOld
    · exact hNew
  counted := by
    rw [hSame.download, hSame.numChunks,
      hSame.numDownloaded, hSame.done]
    exact h.counted

theorem Paired.peerWithAddr_addr
    {c : BtConfig}
    (h : Paired c)
    {p : PeerRef}
    (hp : p ∈ c.peers) :
    peerWithAddr (c.peer p).addr c = some p :=
  h.distinct.peerWithAddr_addr hp

/- A peer's chunk is live and points back. -/
theorem Paired.chunk_of_target
    {c : BtConfig}
    (h : Paired c)
    {p : PeerRef}
    {r : ChunkRef}
    (hTarget : c.target p = some r) :
    ∃ chunk, c.chunk r = some chunk ∧
      chunk.peer = some p ∧ chunk.downloaded = false := by
  have hOwner := (h.matched p r).mp hTarget
  cases hLive : c.chunk r with
  | none => simp [BtConfig.owner, hLive] at hOwner
  | some chunk =>
      have hDone := h.needed r (by simp [hOwner])
      rw [BtConfig.owner_of_live hLive] at hOwner
      rw [BtConfig.done_of_live hLive] at hDone
      exact ⟨chunk, rfl, hOwner, hDone⟩

/- Where peers and chunks are paired, no pointer dangles. -/
theorem Paired.not_dangling
    {c : BtConfig}
    (h : Paired c)
    (f : Fault) :
    ¬ Dangling c f := by
  intro hDangling
  cases f with
  | timeoutChunk =>
      rcases hDangling with ⟨_, p, hp, hResponse, hNone⟩
      have hSome := h.timed p hp hResponse
      rw [BtConfig.target_of_mem hp, hNone] at hSome
      simp at hSome
  | freedChunk =>
      rcases hDangling with ⟨r, hNone, hListed | hPeer⟩
      · have hSome := (h.live r).mpr hListed
        simp [hNone] at hSome
      · rcases hPeer with ⟨p, hp, hTarget⟩
        rw [← BtConfig.target_of_mem hp] at hTarget
        rcases h.chunk_of_target hTarget with
          ⟨chunk, hLive, _⟩
        simp [hNone] at hLive
  | getPeer =>
      rcases hDangling with ⟨r, chunk, hLive, q, hq, hNone⟩
      rw [← BtConfig.announcers_of_live hLive] at hq
      rw [h.peerWithAddr_addr (h.announced r q hq)] at hNone
      simp at hNone
  | _ => exact hDangling

end PeerNet

------------------------------------------------------------
-- Updates the Pairing Does Not See
------------------------------------------------------------

namespace PeerNet

variable {c : BtConfig}

theorem SamePairing.setPeer
    {p : PeerRef}
    {f : BtPeer → BtPeer}
    (hAddr : (f (c.peer p)).addr = (c.peer p).addr)
    (hChunk : (f (c.peer p)).chunk = (c.peer p).chunk)
    (hDownloading :
      (f (c.peer p)).downloading = (c.peer p).downloading)
    (hResponse :
      (f (c.peer p)).lastResponse = -1 ↔
        (c.peer p).lastResponse = -1) :
    SamePairing c (c.setPeer p f) where
  peers := rfl
  addr := by
    intro q
    by_cases hq : q = p
    · subst hq
      simpa using hAddr
    · simp [hq]
  downloading := by
    intro q _
    by_cases hq : q = p
    · subst hq
      simpa using hDownloading
    · simp [hq]
  response := by
    intro q _
    by_cases hq : q = p
    · subst hq
      simpa using hResponse
    · simp [hq]
  target := BtConfig.target_setPeer_same hChunk
  live := fun _ => rfl
  owner := rfl
  done := rfl
  announced := fun _ _ hq => .inl hq
  download := rfl
  nextChunk := rfl
  numChunks := rfl
  numDownloaded := rfl

theorem SamePairing.setChunk
    {r : ChunkRef}
    {f : BtChunk → BtChunk}
    (hPeer : ∀ chunk, c.chunk r = some chunk →
      (f chunk).peer = chunk.peer)
    (hDone : ∀ chunk, c.chunk r = some chunk →
      (f chunk).downloaded = chunk.downloaded)
    (hPeers : ∀ chunk, c.chunk r = some chunk →
      ∀ q ∈ (f chunk).peers,
        q ∈ chunk.peers ∨ q ∈ c.peers) :
    SamePairing c (c.setChunk r f) where
  peers := rfl
  addr := fun _ => rfl
  downloading := fun _ _ => rfl
  response := fun _ _ => Iff.rfl
  target := rfl
  live := BtConfig.isSome_setChunk
  owner := BtConfig.owner_setChunk_same hPeer
  done := BtConfig.done_setChunk_same hDone
  announced := by
    intro s q hq
    by_cases hs : s = r
    · subst hs
      cases hLive : c.chunk s with
      | none => simp [BtConfig.announcers, hLive] at hq
      | some chunk =>
          simp only [BtConfig.announcers,
            BtConfig.setChunk_chunk, Function.update_self,
            hLive, Option.map_some, Option.getD_some]
            at hq ⊢
          exact hPeers chunk hLive q hq
    · left
      simpa [BtConfig.announcers, hs] using hq
  download := rfl
  nextChunk := rfl
  numChunks := rfl
  numDownloaded := rfl

theorem Paired.countTimeout
    (h : Paired c)
    (p : PeerRef) :
    Paired (c.countTimeout p) :=
  h.frame (.setPeer rfl rfl rfl Iff.rfl)

theorem Paired.clearBad
    (h : Paired c)
    (p : PeerRef) :
    Paired (c.clearBad p) :=
  h.frame (.setPeer rfl rfl rfl Iff.rfl)

theorem Paired.addPeerList
    (h : Paired c)
    (r : ChunkRef)
    {p : PeerRef}
    (hp : p ∈ c.peers) :
    Paired (c.addPeerList r p) := by
  apply h.frame
  apply SamePairing.setChunk
  · exact fun _ _ => rfl
  · exact fun _ _ => rfl
  · intro chunk _ q hq
    rcases List.mem_cons.mp hq with rfl | hOld
    · exact .inr hp
    · exact .inl hOld

/- A peer that is waited for answers at a real time. -/
theorem Paired.heardData
    (h : Paired c)
    {p : PeerRef}
    (hp : p ∈ c.peers)
    {r : ChunkRef}
    (hTarget : c.target p = some r)
    {now : Int}
    (hNow : 0 < now) :
    Paired (c.heardData p now) := by
  have hAwaited := h.awaited p hp (by simp [hTarget])
  apply h.frame
  apply SamePairing.setPeer rfl rfl rfl
  constructor
  · intro hResponse
    have hMinus : now = -1 := hResponse
    omega
  · intro hResponse
    exact absurd hResponse hAwaited

/- Storing a packet changes neither side. -/
theorem Paired.keep
    (h : Paired c)
    {r : ChunkRef}
    {chunk : BtChunk}
    (hLive : c.chunk r = some chunk)
    (nodes : List BtPacket)
    (packet : Packet) :
    Paired
      (c.setChunk r fun _ => chunk.take nodes packet) := by
  have hSame :
      ∀ chunk', c.chunk r = some chunk' →
        chunk' = chunk := by
    intro chunk' hLive'
    exact Option.some.inj (hLive'.symm.trans hLive)
  apply h.frame
  apply SamePairing.setChunk
  · intro chunk' hLive'
    rw [hSame chunk' hLive', BtChunk.take_peer]
  · intro chunk' hLive'
    rw [hSame chunk' hLive', BtChunk.take_downloaded]
  · intro chunk' hLive' q hq
    rw [hSame chunk' hLive']
    rw [BtChunk.take_peers] at hq
    exact .inl hq

end PeerNet

------------------------------------------------------------
-- Linking and Unlinking
------------------------------------------------------------

namespace PeerNet

variable {c : BtConfig}

/- A peer and its chunk are taken apart. -/
theorem Paired.unlink
    (h : Paired c)
    {p : PeerRef}
    {r : ChunkRef}
    (hp : p ∈ c.peers)
    (hTarget : c.target p = some r)
    {f : BtPeer → BtPeer}
    {g : BtChunk → BtChunk}
    (hAddr : (f (c.peer p)).addr = (c.peer p).addr)
    (hChunk : (f (c.peer p)).chunk = none)
    (hDownloading : (f (c.peer p)).downloading = false)
    (hResponse : (f (c.peer p)).lastResponse = -1)
    (hPeer : ∀ chunk, (g chunk).peer = none)
    (hDone : ∀ chunk, chunk.downloaded = false →
      (g chunk).downloaded = false)
    (hPeers : ∀ chunk, (g chunk).peers = chunk.peers) :
    Paired ((c.setChunk r g).setPeer p f) := by
  rcases h.chunk_of_target hTarget with
    ⟨chunk, hLive, hBack, hNeeded⟩
  have hNewTarget :
      ((c.setChunk r g).setPeer p f).target =
        Function.update c.target p none := by
    have hMem : p ∈ (c.setChunk r g).peers := hp
    rw [BtConfig.target_setPeer hMem]
    simp [hChunk]
  have hNewOwner :
      ((c.setChunk r g).setPeer p f).owner =
        Function.update c.owner r none := by
    rw [BtConfig.owner_setPeer,
      BtConfig.owner_setChunk hLive, hPeer]
  have hNewDone :
      ((c.setChunk r g).setPeer p f).done = c.done := by
    rw [BtConfig.done_setPeer]
    apply BtConfig.done_setChunk_same
    intro chunk' hLive'
    have hEq := Option.some.inj (hLive'.symm.trans hLive)
    rw [hEq, hNeeded]
    exact hDone chunk hNeeded
  have hNewAnnouncers :
      ((c.setChunk r g).setPeer p f).announcers =
        c.announcers := by
    rw [BtConfig.announcers_setPeer]
    apply BtConfig.announcers_setChunk_same
    exact fun chunk' _ => hPeers chunk'
  exact
    { distinct := by
        have hSameAddr :
            ∀ q, (((c.setChunk r g).setPeer p f).peer
              q).addr = (c.peer q).addr := by
          intro q
          by_cases hq : q = p
          · subst hq
            simpa using hAddr
          · simp [hq]
        intro q hq q' hq' hEq
        rw [hSameAddr, hSameAddr] at hEq
        exact h.distinct q hq q' hq' hEq
      nodup := h.nodup
      live := by
        intro s
        rw [BtConfig.setPeer_chunk,
          BtConfig.isSome_setChunk]
        exact h.live s
      fresh := h.fresh
      matched := by
        rw [hNewTarget, hNewOwner]
        exact h.matched.release hTarget
      busy := by
        intro q hq
        rw [hNewTarget]
        by_cases hqp : q = p
        · subst hqp
          simp [hDownloading]
        · simpa [hqp] using h.busy q hq
      awaited := by
        intro q hq hSome
        rw [hNewTarget] at hSome
        by_cases hqp : q = p
        · subst hqp
          simp at hSome
        · rw [Function.update_of_ne hqp] at hSome
          simpa [hqp] using h.awaited q hq hSome
      timed := by
        intro q hq hNot
        rw [hNewTarget]
        by_cases hqp : q = p
        · subst hqp
          simp [hResponse] at hNot
        · rw [Function.update_of_ne hqp]
          apply h.timed q hq
          simpa [hqp] using hNot
      needed := by
        intro s hSome
        rw [hNewOwner] at hSome
        rw [hNewDone]
        by_cases hs : s = r
        · subst hs
          simp at hSome
        · rw [Function.update_of_ne hs] at hSome
          exact h.needed s hSome
      announced := by
        rw [hNewAnnouncers]
        exact h.announced
      counted := by
        rw [hNewDone]
        exact h.counted }

/- A free peer and a free chunk are paired. -/
theorem Paired.fetch
    (h : Paired c)
    {p : PeerRef}
    {r : ChunkRef}
    {chunk : BtChunk}
    (hp : p ∈ c.peers)
    (hLive : c.chunk r = some chunk)
    (hNeeded : chunk.downloaded = false)
    (hUnassigned : chunk.peer = none)
    (hIdle : (c.peer p).downloading = false)
    {now : Int}
    (hNow : 0 < now) :
    Paired (c.fetch p r now) := by
  have hFree : c.target p = none := by
    have hBusy := h.busy p hp
    rw [hIdle] at hBusy
    simpa using hBusy.symm
  have hNoOwner : c.owner r = none := by
    rw [BtConfig.owner_of_live hLive, hUnassigned]
  have hNewTarget :
      (c.fetch p r now).target =
        Function.update c.target p (some r) := by
    have hMem : p ∈ c.raiseMaxConn.peers := hp
    unfold BtConfig.fetch BtConfig.assign
    rw [BtConfig.target_setChunk,
      BtConfig.target_setPeer hMem]
    rfl
  have hNewOwner :
      (c.fetch p r now).owner =
        Function.update c.owner r (some p) := by
    exact BtConfig.owner_setChunk hLive
  have hNewDone : (c.fetch p r now).done = c.done := by
    exact BtConfig.done_setChunk_same fun _ _ => rfl
  have hNewAnnouncers :
      (c.fetch p r now).announcers = c.announcers := by
    exact BtConfig.announcers_setChunk_same
      fun _ _ => rfl
  exact
    { distinct := by
        have hSameAddr :
            ∀ q, ((c.fetch p r now).peer q).addr =
              (c.peer q).addr := by
          intro q
          by_cases hq : q = p
          · subst hq
            simp [BtConfig.fetch, BtConfig.assign]
          · simp [BtConfig.fetch, BtConfig.assign, hq]
        intro q hq q' hq' hEq
        rw [hSameAddr, hSameAddr] at hEq
        exact h.distinct q hq q' hq' hEq
      nodup := h.nodup
      live := by
        intro s
        unfold BtConfig.fetch BtConfig.assign
        rw [BtConfig.isSome_setChunk]
        exact h.live s
      fresh := h.fresh
      matched := by
        rw [hNewTarget, hNewOwner]
        exact h.matched.assign hFree hNoOwner
      busy := by
        intro q hq
        rw [hNewTarget]
        by_cases hqp : q = p
        · subst hqp
          simp [BtConfig.fetch, BtConfig.assign]
        · simpa [BtConfig.fetch, BtConfig.assign, hqp]
            using h.busy q hq
      awaited := by
        intro q hq hSome
        rw [hNewTarget] at hSome
        by_cases hqp : q = p
        · subst hqp
          simp [BtConfig.fetch, BtConfig.assign]
          omega
        · rw [Function.update_of_ne hqp] at hSome
          simpa [BtConfig.fetch, BtConfig.assign, hqp]
            using h.awaited q hq hSome
      timed := by
        intro q hq hNot
        rw [hNewTarget]
        by_cases hqp : q = p
        · subst hqp
          simp
        · rw [Function.update_of_ne hqp]
          apply h.timed q hq
          simpa [BtConfig.fetch, BtConfig.assign, hqp]
            using hNot
      needed := by
        intro s hSome
        rw [hNewDone]
        by_cases hs : s = r
        · subst hs
          rw [BtConfig.done_of_live hLive, hNeeded]
        · rw [hNewOwner, Function.update_of_ne hs] at hSome
          exact h.needed s hSome
      announced := by
        rw [hNewAnnouncers]
        exact h.announced
      counted := by
        rw [hNewDone]
        exact h.counted }

end PeerNet

------------------------------------------------------------
-- Giving Up and Finishing
------------------------------------------------------------

namespace PeerNet

variable {c : BtConfig}

/- A change of none of the fields that the pairing reads. -/
theorem SamePairing.ofFields
    {c' : BtConfig}
    (hPeers : c'.peers = c.peers)
    (hPeer : c'.peer = c.peer)
    (hChunk : c'.chunk = c.chunk)
    (hDownload : c'.download = c.download)
    (hNext : c'.nextChunk = c.nextChunk)
    (hNum : c'.numChunks = c.numChunks)
    (hDone : c'.numDownloaded = c.numDownloaded) :
    SamePairing c c' where
  peers := hPeers
  addr := by simp [hPeer]
  downloading := by simp [hPeer]
  response := by simp [hPeer]
  target := by
    funext p
    simp [BtConfig.target, hPeers, hPeer]
  live := by simp [hChunk]
  owner := by
    funext r
    simp [BtConfig.owner, hChunk]
  done := by
    funext r
    simp [BtConfig.done, hChunk]
  announced := by
    intro r q hq
    left
    simpa [BtConfig.announcers, hChunk] using hq
  download := hDownload
  nextChunk := hNext
  numChunks := hNum
  numDownloaded := hDone

theorem Paired.giveUp
    (h : Paired c)
    {p : PeerRef}
    {r : ChunkRef}
    (hp : p ∈ c.peers)
    (hTarget : c.target p = some r)
    (packets : BtPackets)
    (now : Int) :
    Paired (c.giveUp p r packets now) :=
  h.unlink hp hTarget rfl rfl rfl rfl (fun _ => rfl)
    (fun _ _ => rfl) (fun _ => rfl)

theorem Paired.release
    (h : Paired c)
    {p : PeerRef}
    {r : ChunkRef}
    (hp : p ∈ c.peers)
    (hTarget : c.target p = some r) :
    Paired (c.release p r) := by
  have hUnlinked :=
    h.unlink hp hTarget
      (f := fun peer =>
        { peer with
          downloading := false
          lastResponse := -1
          chunk := none })
      (g := fun chunk => { chunk with peer := none })
      rfl rfl rfl rfl (fun _ => rfl)
      (fun _ hDone => hDone) (fun _ => rfl)
  exact hUnlinked.frame
    (.ofFields rfl rfl rfl rfl rfl rfl rfl)

/- One more element of a list meets the test. -/
theorem countP_update
    {l : List ChunkRef}
    {f : ChunkRef → Bool}
    {r : ChunkRef}
    (hNodup : l.Nodup)
    (hMem : r ∈ l)
    (hFalse : f r = false) :
    l.countP (Function.update f r true) =
      l.countP f + 1 := by
  induction l with
  | nil => simp at hMem
  | cons s l ih =>
      rcases List.nodup_cons.mp hNodup with ⟨hNot, hTail⟩
      by_cases hs : s = r
      · subst hs
        have hSame :
            l.countP (Function.update f s true) =
              l.countP f := by
          apply List.countP_congr
          intro t ht
          have hts : t ≠ s := fun hEq => hNot (hEq ▸ ht)
          simp [hts]
        simp [hSame, hFalse]
      · have hRest :=
          ih hTail (by simpa [Ne.symm hs] using hMem)
        rw [List.countP_cons, List.countP_cons, hRest,
          Function.update_of_ne hs]
        omega

/- A released chunk is counted as downloaded. -/
theorem Paired.markDownloaded
    (h : Paired c)
    {r : ChunkRef}
    (hListed : r ∈ c.download)
    (hOwner : c.owner r = none)
    (hDone : c.done r = false) :
    Paired (c.markDownloaded r) := by
  have hSome := (h.live r).mpr hListed
  rcases Option.isSome_iff_exists.mp hSome with
    ⟨chunk, hLive⟩
  have hNewOwner :
      (c.markDownloaded r).owner = c.owner :=
    BtConfig.owner_setChunk_same fun _ _ => rfl
  have hNewAnnouncers :
      (c.markDownloaded r).announcers = c.announcers :=
    BtConfig.announcers_setChunk_same fun _ _ => rfl
  have hNewDone :
      (c.markDownloaded r).done =
        Function.update c.done r true := by
    funext s
    by_cases hs : s = r
    · subst hs
      simp [BtConfig.done, hLive]
    · simp [BtConfig.done, hs]
  exact
    { distinct := h.distinct
      nodup := h.nodup
      live := by
        intro s
        have hSame :
            ((c.markDownloaded r).chunk s).isSome =
              (c.chunk s).isSome :=
          BtConfig.isSome_setChunk s
        rw [hSame]
        exact h.live s
      fresh := h.fresh
      matched := by
        rw [hNewOwner]
        exact h.matched
      busy := h.busy
      awaited := h.awaited
      timed := h.timed
      needed := by
        intro s hOwned
        rw [hNewOwner] at hOwned
        rw [hNewDone]
        by_cases hs : s = r
        · subst hs
          simp [hOwner] at hOwned
        · rw [Function.update_of_ne hs]
          exact h.needed s hOwned
      announced := by
        rw [hNewAnnouncers]
        exact h.announced
      counted := by
        intro hList
        rcases h.counted hList with ⟨hNum, hCount⟩
        have hOneMore :=
          countP_update h.nodup hListed hDone
        rw [hNewDone]
        refine ⟨hNum, ?_⟩
        change c.numDownloaded + 1 =
          ((c.download.countP
            (Function.update c.done r true) : Nat) : Int)
        omega }

/- A counted list is downloaded as a whole. -/
theorem Paired.all_done
    (h : Paired c)
    (hAll : c.numDownloaded = c.numChunks) :
    ∀ r ∈ c.download, c.done r = true := by
  by_cases hList : c.download = []
  · simp [hList]
  · rcases h.counted hList with ⟨hNum, hCount⟩
    have hEq :
        c.download.countP c.done = c.download.length := by
      omega
    exact List.countP_eq_length.mp hEq

/- Once all chunks are downloaded no peer is busy. -/
theorem Paired.no_target
    (h : Paired c)
    (hAll : c.numDownloaded = c.numChunks)
    (p : PeerRef) :
    c.target p = none := by
  cases hTarget : c.target p with
  | none => rfl
  | some r =>
      rcases h.chunk_of_target hTarget with
        ⟨chunk, hLive, _, hNeeded⟩
      have hListed := (h.live r).mp (by simp [hLive])
      have hDone := h.all_done hAll r hListed
      rw [BtConfig.done_of_live hLive, hNeeded] at hDone
      simp at hDone

/- The list is freed when no peer points into it. -/
theorem Paired.dropDownload
    (h : Paired c)
    (hAll : c.numDownloaded = c.numChunks) :
    Paired c.dropDownload := by
  have hDead : ∀ r, c.dropDownload.chunk r = none := by
    intro r
    rw [BtConfig.dropDownload_chunk]
    by_cases hListed : r ∈ c.download
    · simp [hListed]
    · have hNot : ¬ (c.chunk r).isSome :=
        fun hSome => hListed ((h.live r).mp hSome)
      simpa [hListed] using hNot
  have hTarget : c.dropDownload.target = fun _ => none := by
    funext p
    exact h.no_target hAll p
  have hOwner : c.dropDownload.owner = fun _ => none := by
    funext r
    unfold BtConfig.owner
    rw [hDead r]
    rfl
  exact
    { distinct := h.distinct
      nodup := List.nodup_nil
      live := by
        intro r
        rw [hDead r]
        simp
      fresh := by simp
      matched := by
        rw [hTarget, hOwner]
        exact .empty
      busy := h.busy
      awaited := h.awaited
      timed := h.timed
      needed := by simp [hOwner]
      announced := by
        intro r q hq
        unfold BtConfig.announcers at hq
        rw [hDead r] at hq
        simp at hq
      counted := by simp }

end PeerNet

------------------------------------------------------------
-- Loading
------------------------------------------------------------

namespace PeerNet

variable {c : BtConfig}

/- `process_user_get` is reading its chunk file. -/
structure Loading
    (c : BtConfig) : Prop where
  paired : Paired c
  numChunks : c.numChunks = c.download.length
  numDownloaded :
    c.numDownloaded = c.download.countP c.done
  idle : ∀ p ∈ c.peers, (c.peer p).lastResponse = -1

theorem Loading.start
    (h : Paired c)
    (hNone : c.download = [])
    (chunkfile outputfile : Path) :
    Loading (c.startGet chunkfile outputfile) := by
  have hDead : ∀ r, c.chunk r = none := by
    intro r
    have hLive := h.live r
    simpa [hNone] using hLive
  have hReset :
      ∀ p ∈ c.peers,
        (c.startGet chunkfile outputfile).peer p =
          BtConfig.resetPeer (c.peer p) := by
    intro p hp
    simp [hp]
  have hTarget :
      (c.startGet chunkfile outputfile).target =
        fun _ => none := by
    funext p
    by_cases hp : p ∈ c.peers
    · simp [BtConfig.target, hp, BtConfig.resetPeer]
    · simp [BtConfig.target, hp]
  have hOwner :
      (c.startGet chunkfile outputfile).owner =
        fun _ => none := by
    funext r
    simp [BtConfig.owner, hDead r]
  have hPaired :
      Paired (c.startGet chunkfile outputfile) :=
    { distinct := by
        intro p hp q hq hEq
        rw [hReset p hp, hReset q hq] at hEq
        exact h.distinct p hp q hq hEq
      nodup := by simp [hNone]
      live := by
        intro r
        simp [hDead r, hNone]
      fresh := by simp [hNone]
      matched := by
        rw [hTarget, hOwner]
        exact .empty
      busy := by
        intro p hp
        rw [hTarget, hReset p hp]
        rfl
      awaited := by simp [hTarget]
      timed := by
        intro p hp hNot
        rw [hReset p hp] at hNot
        exact absurd rfl hNot
      needed := by simp [hOwner]
      announced := by
        intro r
        simp [BtConfig.announcers, hDead r]
      counted := by simp [hNone] }
  exact
    { paired := hPaired
      numChunks := by simp [hNone]
      numDownloaded := by simp [hNone]
      idle := by
        intro p hp
        rw [hReset p hp]
        rfl }

/- One more chunk, with a fresh reference. -/
theorem Loading.add
    (h : Loading c)
    (item : Item) :
    Loading (c.addItem item) := by
  have hFresh : c.nextChunk ∉ c.download := by
    intro hMem
    exact Nat.lt_irrefl _ (h.paired.fresh _ hMem)
  have hDead : c.chunk c.nextChunk = none := by
    have hLive := h.paired.live c.nextChunk
    simpa [hFresh] using hLive
  have hOwner : (c.addItem item).owner = c.owner := by
    funext r
    by_cases hr : r = c.nextChunk
    · subst hr
      simp [BtConfig.owner, BtConfig.addItem, hDead]
    · simp [BtConfig.owner, BtConfig.addItem, hr]
  have hDone :
      (c.addItem item).done =
        Function.update c.done c.nextChunk item.owned := by
    funext r
    by_cases hr : r = c.nextChunk
    · subst hr
      simp [BtConfig.done, BtConfig.addItem]
    · simp [BtConfig.done, BtConfig.addItem, hr]
  have hCount :
      (c.download ++ [c.nextChunk]).countP
          (c.addItem item).done =
        c.download.countP c.done +
          (if item.owned then 1 else 0) := by
    have hOld :
        c.download.countP (c.addItem item).done =
          c.download.countP c.done := by
      apply List.countP_congr
      intro r hr
      have hNe : r ≠ c.nextChunk := fun hEq =>
        hFresh (hEq ▸ hr)
      rw [hDone, Function.update_of_ne hNe]
    rw [List.countP_append, hOld, hDone]
    simp [List.countP_cons]
  have hNumChunks :
      (c.addItem item).numChunks =
        (c.download ++ [c.nextChunk]).length := by
    simp [BtConfig.addItem, h.numChunks]
  have hNumDownloaded :
      (c.addItem item).numDownloaded =
        (c.download ++ [c.nextChunk]).countP
          (c.addItem item).done := by
    rw [hCount]
    by_cases hOwned : item.owned
    · simp [BtConfig.addItem, hOwned, h.numDownloaded]
    · simp [BtConfig.addItem, hOwned, h.numDownloaded]
  have hPaired : Paired (c.addItem item) :=
    { distinct := h.paired.distinct
      nodup := by
        simp only [BtConfig.addItem,
          BtConfig.addReceiver_download]
        rw [List.nodup_append]
        refine ⟨h.paired.nodup, by simp, ?_⟩
        intro r hr s hs hEq
        rw [List.mem_singleton] at hs
        exact hFresh (hs ▸ hEq ▸ hr)
      live := by
        intro r
        by_cases hr : r = c.nextChunk
        · subst hr
          simp [BtConfig.addItem]
        · simpa [BtConfig.addItem, hr]
            using h.paired.live r
      fresh := by
        intro r hr
        simp only [BtConfig.addItem,
          BtConfig.addReceiver_download,
          BtConfig.addReceiver_nextChunk,
          List.mem_append, List.mem_singleton] at hr ⊢
        rcases hr with hOld | rfl
        · exact Nat.lt_succ_of_lt (h.paired.fresh r hOld)
        · exact Nat.lt_succ_self _
      matched := by
        rw [hOwner]
        exact h.paired.matched
      busy := h.paired.busy
      awaited := h.paired.awaited
      timed := by
        intro p hp hNot
        exact absurd (h.idle p hp) hNot
      needed := by
        intro r hSome
        rw [hOwner] at hSome
        rw [hDone]
        by_cases hr : r = c.nextChunk
        · subst hr
          simp [BtConfig.owner, hDead] at hSome
        · rw [Function.update_of_ne hr]
          exact h.paired.needed r hSome
      announced := by
        intro r q hq
        by_cases hr : r = c.nextChunk
        · subst hr
          simp [BtConfig.announcers, BtConfig.addItem]
            at hq
        · apply h.paired.announced r
          simpa [BtConfig.announcers, BtConfig.addItem, hr]
            using hq
      counted := fun _ => ⟨hNumChunks, hNumDownloaded⟩ }
  exact ⟨hPaired, hNumChunks, hNumDownloaded, h.idle⟩

theorem Loading.load
    (h : Paired c)
    (hNone : c.download = [])
    (chunkfile outputfile : Path)
    (items : List Item) :
    Loading (c.load chunkfile outputfile items) := by
  have hItems :
      ∀ (items : List Item) {c : BtConfig}, Loading c →
        Loading (items.foldl BtConfig.addItem c) := by
    intro items
    induction items with
    | nil => exact fun h => h
    | cons item items ih => exact fun h => ih (h.add item)
  exact hItems items (.start h hNone chunkfile outputfile)

end PeerNet

------------------------------------------------------------
-- Every Change Keeps the Pairing
------------------------------------------------------------

namespace PeerNet


/- The clock of a process never shows zero or less. -/
def PositiveClock
    (env : Env) : Prop :=
  ∀ k, 0 < env.clock k

theorem Paired.getMove
    {n m : Node}
    (h : Paired n.config)
    (hMove : GetMove n m) :
    Paired m.config := by
  cases hMove with
  | entered _ => exact h
  | files _ => exact h
  | got => exact h
  | dropped hAll => exact h.dropDownload hAll

theorem Paired.move
    {env : Env}
    {call : Call}
    (hClock : PositiveClock env)
    {n m : Node}
    (h : Paired n.config)
    (hMove : Move env call n m) :
    Paired m.config := by
  cases hMove with
  | get hGet => exact h.getMove hGet
  | tick => exact h
  | whohas now =>
      exact h.frame (.ofFields rfl rfl rfl rfl rfl rfl rfl)
  | push _ _ => exact h
  | counted _ cur _ _ => exact h.countTimeout cur
  | gaveUp _ cur r chunk packets now hCur hTarget _ _ =>
      rw [← BtConfig.target_of_mem hCur] at hTarget
      exact h.giveUp hCur hTarget packets now
  | fetched _ p q r chunk _ hLive hNeeded hUnassigned hHas
      hIdle hFound =>
      have hq : q ∈ n.config.peers := by
        apply h.announced r
        rw [BtConfig.announcers_of_live hLive]
        exact hHas
      have hSame : q = p := by
        have hSelf := h.peerWithAddr_addr hq
        exact Option.some.inj (hSelf.symm.trans hFound)
      subst hSame
      exact h.fetch hq hLive hNeeded hUnassigned hIdle
        (hClock _)
  | cleared _ p _ => exact h.clearBad p
  | announced _ r p _ hp => exact h.addPeerList r hp
  | loaded _ chunkfile outputfile items hNone _ =>
      exact (Loading.load h hNone chunkfile outputfile
        items).paired

theorem Fetching.target
    {c : BtConfig}
    {src : Addr}
    {p : PeerRef}
    {r : ChunkRef}
    (hFetching : Fetching c src p r) :
    c.target p = some r := by
  rw [BtConfig.target_of_mem
    (mem_peers_of_peerWithAddr hFetching.found)]
  exact hFetching.assigned

/- A paired fetch has its chunk, and the chunk a peer. -/
theorem Paired.not_loose
    {c : BtConfig}
    (h : Paired c)
    (src : Addr) :
    ¬ Loose c src := by
  rintro ⟨p, r, hFetching, hNone⟩
  rcases h.chunk_of_target hFetching.target with
    ⟨chunk, hLive, hBack, _⟩
  rw [hNone chunk hLive] at hBack
  cases hBack

/- The process that has heard `p` is paired. -/
theorem Paired.heard
    {env : Env}
    (hClock : PositiveClock env)
    {n : Node}
    (h : Paired n.config)
    {src : Addr}
    {p : PeerRef}
    {r : ChunkRef}
    (hFetching : Fetching n.config src p r) :
    Paired (n.heard env p).config :=
  h.heardData (mem_peers_of_peerWithAddr hFetching.found)
    hFetching.target (hClock _)

/- Taking a packet keeps the pairing. -/
theorem Paired.taken
    {env : Env}
    (hClock : PositiveClock env)
    {n : Node}
    (h : Paired n.config)
    {src : Addr}
    {packet : Packet}
    {p : PeerRef}
    {r : ChunkRef}
    {chunk : BtChunk}
    {nodes : List BtPacket}
    (hTaking : Taking n.config src packet p r chunk nodes) :
    Paired ((n.heard env p).keep r
      (chunk.take nodes packet)).config :=
  (h.heard hClock hTaking.toFetching).keep hTaking.live
    nodes packet

/- The peer of a chunk that is filled is the one heard. -/
theorem Paired.filling_owner
    {c : BtConfig}
    (h : Paired c)
    {src : Addr}
    {packet : Packet}
    {p q : PeerRef}
    {r : ChunkRef}
    {chunk : BtChunk}
    {nodes : List BtPacket}
    (hFilling : Filling c src packet p q r chunk nodes) :
    p = q := by
  have hOwner : c.owner r = some q := by
    rw [BtConfig.owner_of_live hFilling.live,
      hFilling.owner]
  have hTarget := hFilling.toTaking.toFetching.target
  have hBack := (h.matched p r).mp hTarget
  exact Option.some.inj (hBack.symm.trans hOwner)

end PeerNet

------------------------------------------------------------
-- Data Keeps the Pairing
------------------------------------------------------------

namespace PeerNet

section

variable {env : Env} {n : Node} {src : Addr}
variable {packet : Packet} {p q : PeerRef} {r : ChunkRef}
variable {chunk : BtChunk} {nodes : List BtPacket}

theorem filled_chunk
    (hLive : n.config.chunk r = some chunk) :
    (n.filled env packet p q r chunk nodes).config.chunk r =
      some { chunk.take nodes packet with peer := none } := by
  simp [Node.filled, Node.release, Node.keep, Node.heard,
    BtConfig.heardData, hLive]

theorem filled_download :
    (n.filled env packet p q r chunk nodes).config.download =
      n.config.download := by
  simp [Node.filled, Node.release, Node.keep, Node.heard,
    BtConfig.heardData]

/- The head of `finish_chunk` takes the pair apart. -/
theorem Paired.filled
    (hClock : PositiveClock env)
    (h : Paired n.config)
    (hFilling :
      Filling n.config src packet p q r chunk nodes) :
    Paired
      (n.filled env packet p q r chunk nodes).config := by
  have hOwner := h.filling_owner hFilling
  subst hOwner
  have hTaking := hFilling.toTaking
  have hTaken := h.taken hClock hTaking
  have hListed :=
    mem_peers_of_peerWithAddr hTaking.found
  have hTarget :
      ((n.heard env p).keep r
        (chunk.take nodes packet)).config.target p =
        some r := by
    have hSame :
        ((n.heard env p).keep r
          (chunk.take nodes packet)).config.target =
          n.config.target := by
      change (n.config.heardData p _).target = _
      exact BtConfig.target_setPeer_same rfl
    rw [hSame]
    exact hTaking.toFetching.target
  exact hTaken.release hListed hTarget

/- Every way through `process_data` keeps the pairing. -/
theorem Paired.data
    (hClock : PositiveClock env)
    {m : Node}
    {ack : Option Int}
    {counted : Bool}
    (h : Paired n.config)
    (hStep : DataStep env src packet n ack counted m) :
    Paired m.config := by
  cases hStep with
  | ignored _ => exact h
  | refused p r hFetching _ => exact h.heard hClock hFetching
  | stored p r chunk nodes hTaking _ =>
      exact h.taken hClock hTaking
  | stopped p q r chunk nodes g f hFilling _ =>
      exact h.filled hClock hFilling
  | rejected p q r chunk nodes hFilling _ =>
      exact h.filled hClock hFilling
  | unrecorded p q r chunk nodes hFilling _ _ =>
      exact h.filled hClock hFilling
  | recorded p q r chunk nodes id hFilling _ _ _ =>
      have hFilled := h.filled hClock hFilling
      have hLive := hFilling.live
      have hTarget := hFilling.toTaking.toFetching.target
      rcases h.chunk_of_target hTarget with
        ⟨chunk', hLive', _, hNeeded⟩
      have hEq := Option.some.inj (hLive'.symm.trans hLive)
      subst hEq
      apply hFilled.markDownloaded
      · rw [filled_download]
        exact (h.live r).mp (by simp [hLive])
      · exact BtConfig.owner_of_live (filled_chunk hLive)
      · refine
          (BtConfig.done_of_live (filled_chunk hLive)).trans
            ?_
        simpa using hNeeded

end

end PeerNet
