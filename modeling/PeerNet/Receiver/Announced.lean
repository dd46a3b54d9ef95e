import PeerNet.Lib.FirstMatch
import PeerNet.Packets.Fetch
import PeerNet.Receiver.Frame
import PeerNet.Receiver.Links
import PeerNet.Wire.Listing

/-
  What a run of IHAVEs leaves in the `peers` lists.

  `process_ihave` looks each hash up in the download list,
  stops at the first chunk that has it and adds the peer
  there, whether it is listed already or not. A second chunk
  with the same hash stays without the peer, and a peer that
  announces a hash again is listed again.

  Main declarations:
    * `announceAll`
    * `processIhave_spec`
    * `Announced`
    * `announced_of_run`
    * `announced_exactly_iff`
-/

------------------------------------------------------------
-- One IHAVE
------------------------------------------------------------

namespace PeerNet

open Prog

/- One hash of an IHAVE from `p`. -/
def announceHash
    (p : PeerRef)
    (c : BtConfig)
    (hash : Hash) : BtConfig :=
  match c.download.find? (fun r =>
    (c.chunk r).any fun chunk =>
      hashEqual hash chunk.hash) with
  | none => c
  | some r => c.addPeerList r p

/- All hashes of an IHAVE from `p`. -/
def announceAll
    (p : PeerRef)
    (hashes : List Hash)
    (c : BtConfig) : BtConfig :=
  hashes.foldl (announceHash p) c

/- An IHAVE whose payload is a list of hashes. -/
structure WellFormedIhave
    (packet : Packet) : Prop where
  framed : Framed packet
  list : ∃ count, WellFormedList packet.buf count

section

variable {n m : Node} {src : Addr} {packet : Packet}
variable {p : PeerRef} {buf : Bytes} {count : Nat}

/- The loop of `process_ihave`, where all hashes were received. -/
theorem ihaveLoop_spec
    (i : Nat)
    (hSmall : count ≤ maxIhaveChunks)
    (hLength : buf.length = 4 + 20 * (i + count)) :
    wp (ihaveLoop p buf count (4 + 20 * i) (20 * count))
      (fun _ m =>
        m =
          n.onConfig
            (announceAll p (hashesFrom buf i count)))
      (fun _ _ => False) n := by
  induction count generalizing i n with
  | zero => rfl
  | succ count ih =>
      have hMax : maxIhaveChunks = 74 := by decide
      have hNext :
          toShort (20 * (count + 1 : Nat) - 20) =
            20 * count := by
        unfold toShort
        push_cast
        omega
      have hOffset :
          4 + 20 * i + 20 = 4 + 20 * (i + 1) := by
        omega
      unfold ihaveLoop
      rw [wp_ite, wp_ite]
      refine ⟨fun hShort => by omega, fun _ => ?_⟩
      refine ⟨fun hShort => by omega, fun _ => ?_⟩
      rw [wp_bind, wp_get, hNext, hOffset, hashesFrom_succ]
      dsimp only
      have hFirst :
          n.onConfig
              (announceAll p
                (payloadHash buf i ::
                  hashesFrom buf (i + 1) count)) =
            (n.onConfig fun c =>
              announceHash p c (payloadHash buf i)).onConfig
              (announceAll p
                (hashesFrom buf (i + 1) count)) :=
        rfl
      rw [hFirst]
      have hRest := fun m : Node =>
        ih (n := m) (i + 1) (by omega)
          (by rw [hLength]; omega)
      have hHash :
          announceHash p n.config (payloadHash buf i) =
            match n.config.download.find? (fun r =>
              (n.config.chunk r).any fun chunk =>
                hashEqual
                  (hashOfBytes (buf.drop (4 + 20 * i)))
                  chunk.hash) with
            | none => n.config
            | some r => n.config.addPeerList r p :=
        rfl
      cases hFound :
          n.config.download.find? fun r =>
            (n.config.chunk r).any fun chunk =>
              hashEqual
                (hashOfBytes (buf.drop (4 + 20 * i)))
                chunk.hash with
      | none =>
          rw [hFound] at hHash
          have hSame :
              n.onConfig (fun c =>
                  announceHash p c (payloadHash buf i)) =
                n := by
            unfold Node.onConfig
            dsimp only
            rw [hHash]
          rw [hSame]
          exact hRest n
      | some r =>
          rw [hFound] at hHash
          have hSame :
              n.onConfig (fun c =>
                  announceHash p c (payloadHash buf i)) =
                n.onConfig (BtConfig.addPeerList r p) := by
            unfold Node.onConfig
            dsimp only
            rw [hHash]
          rw [hSame, wp_bind, wp_modify]
          exact hRest _

/- `process_ihave`, on a well-formed IHAVE from a listed peer. -/
theorem processIhave_spec
    (h : WellFormedIhave packet)
    (hPeer : peerWithAddr src n.config = some p)
    (hActive : n.config.download ≠ []) :
    wp (processIhave src packet)
      (fun _ m =>
        m =
          n.onConfig fun c =>
            announceAll p (listedHashes packet)
              (c.clearBad p))
      (fun _ _ => False) n := by
  rcases h.list with ⟨count, hList⟩
  have hMax : maxIhaveChunks = 74 := by decide
  have hFits := hList.fits
  have hLength := h.framed.packetLen
  rw [hList.length] at hLength
  rcases hList.cons with ⟨rest, hBuf⟩
  have hCount : whohasCount (UInt8.ofNat count) = count :=
    whohasCount_ofNat (by omega)
  have hDatalen :
      toShort (ihaveDatalen packet.header - 4) =
        20 * count := by
    unfold ihaveDatalen toShort
    rw [hLength]
    simp only [packetHeadSize]
    omega
  unfold processIhave
  rw [wp_bind, wp_get]
  dsimp only
  rw [if_neg hActive, hPeer]
  dsimp only
  rw [wp_bind, wp_modify]
  have hLoop :
      wp
        (ihaveLoop p packet.buf count (4 + 20 * 0)
          (20 * count)) _ _
        (n.onConfig (BtConfig.clearBad p)) :=
    ihaveLoop_spec 0 hList.fits
      (by rw [hList.length, Nat.zero_add])
  have hListed :
      listedHashes packet = hashesFrom packet.buf 0 count := by
    unfold listedHashes
    rw [hBuf]
    dsimp only
    rw [hCount]
    rfl
  rw [hListed]
  unfold whohasCount at hCount
  rw [hBuf] at hLoop ⊢
  dsimp only
  rw [hCount, hDatalen]
  exact hLoop

end

end PeerNet

------------------------------------------------------------
-- Runs of IHAVEs
------------------------------------------------------------

namespace PeerNet

open Prog Runs

/- Who announced what, in order. -/
abbrev Announcements := List (PeerRef × Option Hash)

/- The peers a chunk gets from announcements. -/
def peersFrom
    (c : BtConfig)
    (announcements : Announcements)
    (r : ChunkRef) : List PeerRef :=
  FirstMatch.entered c.hashOf c.download announcements r

/-
  Since `c₀`, exactly these announcements were handled: only
  the `peers` lists differ, and they got what was announced.
-/
structure Announced
    (c₀ : BtConfig)
    (announcements : Announcements)
    (c : BtConfig) : Prop where
  download : c.download = c₀.download
  known : ∀ src, peerWithAddr src c = peerWithAddr src c₀
  chunks : ∀ r,
    c.chunk r =
      (c₀.chunk r).map fun chunk =>
        { chunk with
          peers :=
            peersFrom c₀ announcements r ++ chunk.peers }

section

variable {c₀ c : BtConfig} {p : PeerRef}
variable {announcements : Announcements}

theorem Announced.refl
    (c : BtConfig) :
    Announced c [] c where
  download := rfl
  known := fun _ => rfl
  chunks := by
    intro r
    simp [peersFrom]

theorem Announced.hashOf
    (h : Announced c₀ announcements c) :
    c.hashOf = c₀.hashOf := by
  funext r
  simp [BtConfig.hashOf, h.chunks r, Option.map_map,
    Function.comp_def]

/- The search of `process_ihave` finds the first match. -/
theorem find_hash
    (c : BtConfig)
    (hash : Hash) :
    (c.download.find? fun r =>
        (c.chunk r).any fun chunk =>
          hashEqual hash chunk.hash) =
      FirstMatch.slot c.hashOf c.download (some hash) := by
  unfold FirstMatch.slot
  congr 1
  funext r
  unfold BtConfig.hashOf hashEqual
  cases c.chunk r with
  | none => simp
  | some chunk => simp [eq_comm]

theorem Announced.clearBad
    (h : Announced c₀ announcements c)
    (p : PeerRef) :
    Announced c₀ announcements (c.clearBad p) where
  download := h.download
  known := by
    intro src
    rw [← h.known src]
    apply peerWithAddr_congr
    · rfl
    · intro q
      by_cases hq : q = p
      · subst hq
        simp [BtConfig.clearBad]
      · simp [BtConfig.clearBad, hq]
  chunks := h.chunks

/- One more hash is announced. -/
theorem Announced.hash
    (h : Announced c₀ announcements c)
    (p : PeerRef)
    (hash : Hash) :
    Announced c₀ (announcements ++ [(p, some hash)])
      (announceHash p c hash) := by
  unfold announceHash
  rw [find_hash, h.hashOf, h.download]
  cases hSlot :
      FirstMatch.slot c₀.hashOf c₀.download (some hash) with
  | none =>
      refine ⟨h.download, h.known, ?_⟩
      intro r
      unfold peersFrom
      rw [FirstMatch.entered_concat, hSlot, if_neg nofun]
      exact h.chunks r
  | some s =>
      refine ⟨h.download, h.known, ?_⟩
      intro r
      unfold peersFrom
      rw [FirstMatch.entered_concat, hSlot]
      unfold BtConfig.addPeerList
      by_cases hr : r = s
      · subst hr
        rw [if_pos rfl]
        have hOld := h.chunks r
        unfold peersFrom at hOld
        simp [hOld, Option.map_map, Function.comp_def]
      · rw [if_neg fun hIs => hr (Option.some.inj hIs).symm]
        simpa [hr, peersFrom] using h.chunks r

/- All hashes of an IHAVE are. -/
theorem Announced.all
    (h : Announced c₀ announcements c)
    (p : PeerRef)
    (hashes : List Hash) :
    Announced c₀
      (announcements ++ hashes.map fun hash => (p, some hash))
      (announceAll p hashes c) := by
  induction hashes generalizing announcements c with
  | nil => simpa [announceAll] using h
  | cons hash hashes ih =>
      have hRest := ih (h.hash p hash)
      simpa [announceAll] using hRest

end

/- What one IHAVE announces. -/
def announcementsOf
    (c : BtConfig)
    (e : Addr × Packet) : Announcements :=
  match peerWithAddr e.1 c with
  | none => []
  | some p =>
      (listedHashes e.2).map fun hash => (p, some hash)

/- IHAVEs, one after the other. -/
def ihaveEvents
    (ihaves : List (Addr × Packet)) : List NodeEvent :=
  ihaves.map fun e => .ihave e.1 e.2

/- A well-formed IHAVE from a listed peer. -/
def ProperIhave
    (c : BtConfig)
    (e : Addr × Packet) : Prop :=
  WellFormedIhave e.2 ∧ (peerWithAddr e.1 c).isSome

section

variable {n m : Node} {c₀ : BtConfig}
variable {announcements : Announcements}
variable {e : Addr × Packet} {ihaves : List (Addr × Packet)}

/- An IHAVE is handled, or ignored without a download. -/
theorem step_ihave
    (env : Env)
    (h : Announced c₀ announcements n.config)
    (hRunning : n.fault = none)
    (hProper : ProperIhave c₀ e) :
    Announced c₀ (announcements ++ announcementsOf c₀ e)
        (n.step env (.ihave e.1 e.2)).config ∧
      (n.step env (.ihave e.1 e.2)).fault = none := by
  rcases Option.isSome_iff_exists.mp hProper.2 with
    ⟨p, hPeer⟩
  have hFrom :
      announcementsOf c₀ e =
        (listedHashes e.2).map fun hash =>
          (p, some hash) := by
    unfold announcementsOf
    rw [hPeer]
  rw [hFrom]
  by_cases hActive : n.config.download = []
  · have hStep : n.step env (.ihave e.1 e.2) = n := by
      apply Node.exec_discard_of_wp hRunning
      unfold processIhave
      rw [wp_bind, wp_get]
      dsimp only
      rw [if_pos hActive]
      rfl
    rw [hStep]
    refine ⟨⟨h.download, h.known, ?_⟩, hRunning⟩
    intro r
    have hNone : c₀.download = [] :=
      h.download.symm.trans hActive
    have hOld := h.chunks r
    unfold peersFrom FirstMatch.entered FirstMatch.slot
      at hOld ⊢
    simpa [hNone] using hOld
  · have hStep :
        n.step env (.ihave e.1 e.2) =
          n.onConfig fun c =>
            announceAll p (listedHashes e.2)
              (c.clearBad p) := by
      apply Node.exec_discard_of_wp hRunning
      apply processIhave_spec hProper.1 _ hActive
      rw [h.known, hPeer]
    rw [hStep]
    exact ⟨(h.clearBad p).all p _, hRunning⟩

/- A run of IHAVEs leaves what they announced. -/
theorem announced_of_run
    (env : Env)
    (hRunning : n.fault = none)
    (hProper : ∀ e ∈ ihaves, ProperIhave n.config e) :
    Announced n.config
        (ihaves.flatMap (announcementsOf n.config))
        (foldSteps (Node.step env) n
          (ihaveEvents ihaves)).config ∧
      (foldSteps (Node.step env) n
        (ihaveEvents ihaves)).fault = none := by
  induction ihaves using List.reverseRecOn with
  | nil => simpa [foldSteps, ihaveEvents] using
      ⟨Announced.refl n.config, hRunning⟩
  | append_singleton ihaves e ih =>
      rcases ih fun e he => hProper e (by simp [he]) with
        ⟨hBefore, hGoing⟩
      have hStep :=
        step_ihave env hBefore hGoing
          (hProper e (by simp))
      simpa [foldSteps, ihaveEvents] using hStep

/- Some IHAVE from `p` lists the hash. -/
def AnnouncedBy
    (c : BtConfig)
    (ihaves : List (Addr × Packet))
    (p : PeerRef)
    (hash : Hash) : Prop :=
  ∃ e ∈ ihaves,
    peerWithAddr e.1 c = some p ∧ hash ∈ listedHashes e.2

theorem announcedBy_iff
    {c : BtConfig}
    {p : PeerRef}
    {hash : Hash} :
    (p, some hash) ∈ ihaves.flatMap (announcementsOf c) ↔
      AnnouncedBy c ihaves p hash := by
  unfold AnnouncedBy announcementsOf
  rw [List.mem_flatMap]
  constructor
  · rintro ⟨e, he, hMem⟩
    refine ⟨e, he, ?_⟩
    cases hPeer : peerWithAddr e.1 c with
    | none =>
        rw [hPeer] at hMem
        cases hMem
    | some q =>
        rw [hPeer] at hMem
        simpa [and_comm] using hMem
  · rintro ⟨e, he, hPeer, hMem⟩
    refine ⟨e, he, ?_⟩
    rw [hPeer]
    simpa using hMem

/-
  Only the `peers` lists changed, and each holds exactly the
  peers that announced its chunk, each of them once.
-/
def PeersExact
    (before after : BtConfig)
    (ihaves : List (Addr × Packet)) : Prop :=
  ∀ r ∈ before.download, ∀ chunk,
    before.chunk r = some chunk →
      ∃ peers,
        after.chunk r =
            some { chunk with peers := peers } ∧
          ∀ p,
            (p ∈ peers ↔
              AnnouncedBy before ihaves p chunk.hash) ∧
              peers.count p ≤ 1

/- The nodes of the download list, not announced yet. -/
def Unannounced
    (c : BtConfig) : Prop :=
  ∀ r ∈ c.download, ∃ chunk,
    c.chunk r = some chunk ∧ chunk.peers = []

/- Loading a chunk file announces nothing. -/
theorem Unannounced.load
    {c : BtConfig}
    (h : Unannounced c)
    (chunkfile outputfile : Path)
    (items : List Item) :
    Unannounced (c.load chunkfile outputfile items) := by
  unfold BtConfig.load
  induction items using List.reverseRecOn with
  | nil => exact h
  | append_singleton items item ih =>
      rw [List.foldl_append]
      generalize items.foldl BtConfig.addItem _ = d at ih ⊢
      intro r hr
      rcases List.mem_append.mp hr with hOld | hNew
      · by_cases hNext : r = d.nextChunk
        · subst hNext
          exact ⟨_, Function.update_self .., rfl⟩
        · rcases ih r hOld with ⟨chunk, hLive, hNone⟩
          refine ⟨chunk, ?_, hNone⟩
          rw [← hLive]
          exact Function.update_of_ne hNext _ d.chunk
      · rw [List.mem_singleton.mp hNew]
        exact ⟨_, Function.update_self .., rfl⟩

/- A user GET announces nothing either. -/
theorem unannounced_closed
    (env : Env) :
    Closed env .userGet fun n => Unannounced n.config where
  move := by
    intro n m h hMove
    cases hMove with
    | get hMove =>
        cases hMove with
        | dropped => exact nofun
        | entered => exact h
        | files => exact h
        | got => exact h
    | tick => exact h
    | whohas => exact h
    | push => exact h
    | loaded _ chunkfile outputfile items =>
        exact h.load chunkfile outputfile items
  load := fun _ chunkfile outputfile items _ _ h =>
    h.load chunkfile outputfile items
  raise := fun _ h => h
  halt := fun _ _ h => h

theorem unannounced_of_userGet
    (env : Env)
    (chunkfile outputfile : Path)
    (hNone : n.config.download = []) :
    Unannounced
      (n.step env (.userGet chunkfile outputfile)).config := by
  apply (unannounced_closed env).userGet
  unfold Unannounced
  rw [hNone]
  exact nofun

/- The exact lists are those of an exact first match. -/
theorem Announced.peersExact_iff
    {c₀ c : BtConfig}
    (h :
      Announced c₀ (ihaves.flatMap (announcementsOf c₀)) c)
    (hFresh : Unannounced c₀) :
    PeersExact c₀ c ihaves ↔
      FirstMatch.Exact c₀.hashOf c₀.download
        (ihaves.flatMap (announcementsOf c₀)) := by
  refine Iff.trans ?_
    (FirstMatch.entered_exact_iff c₀.hashOf c₀.download _)
  apply forall₂_congr
  intro r hr
  rcases hFresh r hr with ⟨chunk, hLive, hNone⟩
  have hKey : c₀.hashOf r = some chunk.hash := by
    unfold BtConfig.hashOf
    rw [hLive]
    rfl
  have hNow := h.chunks r
  rw [hLive, Option.map_some, hNone, List.append_nil] at hNow
  constructor
  · intro hExact p
    rcases hExact chunk hLive with ⟨peers, hIs, hPeers⟩
    rw [hNow] at hIs
    have hSame : peersFrom c₀ _ r = peers :=
      congrArg BtChunk.peers (Option.some.inj hIs)
    have hOne := hPeers p
    rw [← hSame, ← announcedBy_iff, ← hKey] at hOne
    exact hOne
  · intro hExact chunk' hLive'
    rw [hLive] at hLive'
    cases hLive'
    refine ⟨_, hNow, ?_⟩
    intro p
    have hOne := hExact p
    rw [hKey, announcedBy_iff] at hOne
    exact hOne

end

/-
  After a run of IHAVEs every list holds exactly the peers
  that announced its chunk if and only if no announced hash
  belongs to two chunks and no peer announces one twice.
-/
theorem announced_exactly_iff
    (env : Env)
    {n : Node}
    {ihaves : List (Addr × Packet)}
    (hRunning : n.fault = none)
    (hFresh : Unannounced n.config)
    (hProper : ∀ e ∈ ihaves, ProperIhave n.config e) :
    PeersExact n.config
        (foldSteps (Node.step env) n
          (ihaveEvents ihaves)).config ihaves ↔
      FirstMatch.Exact n.config.hashOf n.config.download
        (ihaves.flatMap (announcementsOf n.config)) :=
  (announced_of_run env hRunning hProper).1.peersExact_iff hFresh

/- A GET of one chunk, which nobody announced yet. -/
def wantingNode : Node :=
  oneChunkNode.step stillEnv (.userGet [4] [3])

/- The one peer announces the chunk. -/
def zerosIhave : Addr × Packet :=
  (⟨1, 1⟩, ihavePacket [Vector.replicate 20 0])

theorem wantingNode_fresh :
    Unannounced wantingNode.config :=
  unannounced_of_userGet stillEnv [4] [3] rfl

/- An IHAVE for one chunk, from a listed peer. -/
theorem proper_ihave
    {c : BtConfig}
    (hash : Hash)
    (hListed : (peerWithAddr ⟨1, 1⟩ c).isSome) :
    ProperIhave c (⟨1, 1⟩, ihavePacket [hash]) where
  left :=
    { framed := framed_ihavePacket (by decide : 1 ≤ maxIhaveChunks)
      list :=
        ⟨1, { fits := by decide
              first := rfl
              length := length_listing _ _ }⟩ }
  right := hListed

/- A chunk list of the zeros and the ones. -/
def twoChunkNode : Node :=
  { onePeerNode with
    files :=
      { content := fun path =>
          if path = [4] then
            some (oneChunkText ++ [49, 32] ++
              (List.replicate 20 [48, 49]).flatten ++ [10])
          else none
        writable := fun _ => true } }

/- A GET of both chunks. -/
def wantingBoth : Node :=
  twoChunkNode.step stillEnv (.userGet [4] [3])

def onesIhave : Addr × Packet :=
  (⟨1, 1⟩, ihavePacket [Vector.replicate 20 1])

/- The peer announces each chunk in an IHAVE of its own. -/
theorem announced_exactly_both :
    PeersExact wantingBoth.config
      (foldSteps (Node.step stillEnv) wantingBoth
        (ihaveEvents [zerosIhave, onesIhave])).config
      [zerosIhave, onesIhave] := by
  have hProper :
      ∀ e ∈ [zerosIhave, onesIhave],
        ProperIhave wantingBoth.config e := by
    intro e hMem
    rcases List.mem_pair.mp hMem with rfl | rfl
    · exact proper_ihave _ (by decide)
    · exact proper_ihave _ (by decide)
  have hNodup :
      ([zerosIhave, onesIhave].flatMap
        (announcementsOf wantingBoth.config)).Nodup := by
    decide
  exact (announced_exactly_iff stillEnv (by decide)
    (unannounced_of_userGet stillEnv [4] [3] rfl)
    hProper).mpr (.of_nodup (by decide) hNodup)

/- The peer announces the chunk again, and is listed twice. -/
theorem announced_twice :
    ¬ ∀ (env : Env) (n : Node) (ihaves : List (Addr × Packet)),
      n.fault = none → Unannounced n.config →
        (∀ e ∈ ihaves, ProperIhave n.config e) →
          PeersExact n.config
            (foldSteps (Node.step env) n
              (ihaveEvents ihaves)).config ihaves := by
  intro hClaim
  have hProper :
      ∀ e ∈ [zerosIhave, zerosIhave],
        ProperIhave wantingNode.config e := by
    intro e hMem
    rw [List.eq_of_mem_replicate (n := 2) hMem]
    exact proper_ihave _ (by decide)
  have hExact :=
    hClaim stillEnv wantingNode [zerosIhave, zerosIhave]
      (by decide) wantingNode_fresh
      hProper
  rcases wantingNode_fresh 0 (by decide) with
    ⟨chunk, hLive, -⟩
  rcases hExact 0 (by decide) chunk hLive with
    ⟨peers, hNow, hPeers⟩
  have hTwice :
      ((foldSteps (Node.step stillEnv) wantingNode
          (ihaveEvents
            [zerosIhave, zerosIhave])).config.chunk 0).map
          BtChunk.peers =
        some [0, 0] := by
    decide
  rw [hNow] at hTwice
  have hListed : peers = [0, 0] :=
    Option.some.inj hTwice
  have hOnce := (hPeers 0).2
  rw [hListed] at hOnce
  exact absurd hOnce (by decide)

end PeerNet
