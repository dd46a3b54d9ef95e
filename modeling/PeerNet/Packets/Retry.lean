import PeerNet.Packets.Chunk
import PeerNet.Packets.Restart

/-
  An attempt that an honest peer serves.

  Between `send_get` and the end of an attempt the process
  may do anything else: fetch other chunks, hear other peers,
  check for timeouts. None of it touches the attempt's
  buffer, short of letting go of the chunk. So the packets of
  one chunk fill the buffer with its bytes and nothing else.

  Main declarations:
    * `Pursues`
    * `continues_closed`
    * `Gathering.run`
    * `restarts_from_scratch`
    * `restart_keeps_count`
-/

------------------------------------------------------------
-- One Attempt Among Others
------------------------------------------------------------

namespace PeerNet

open Reassembly

/- The chunk `r`, known by its hash, is fetched from `src`. -/
structure Pursues
    (c : BtConfig)
    (src : Addr)
    (p : PeerRef)
    (r : ChunkRef)
    (hash : Hash)
    (slots : List (Option Bytes)) : Prop
    extends FetchOf c src p r slots where
  wanted : ∀ chunk, c.chunk r = some chunk →
    chunk.hash = hash

/- The peer does not fetch the chunk, or the chunk is gone. -/
def LetGo
    (p : PeerRef)
    (r : ChunkRef)
    (c : BtConfig) : Prop :=
  (c.peer p).chunk ≠ some r ∨ c.chunk r = none

section

variable {env : Env} {call : Call} {n m n₀ : Node}
variable {c c' : BtConfig} {src src' : Addr}
variable {packet : Packet} {p q : PeerRef}
variable {r s : ChunkRef} {hash : Hash}
variable {slots : List (Option Bytes)}

theorem Pursues.listed
    (h : Pursues c src p r hash slots) :
    p ∈ c.peers :=
  mem_peers_of_peerWithAddr h.found

/- The chunk that is fetched, with its buffer. -/
theorem Pursues.chunk
    (h : Pursues c src p r hash slots) :
    ∃ chunk, c.chunk r = some chunk ∧
      Holds chunk p slots ∧ chunk.hash = hash := by
  rcases h.holds with ⟨chunk, hLive, hHolds⟩
  exact ⟨chunk, hLive, hHolds, h.wanted chunk hLive⟩

/- What an update has to leave as it is. -/
theorem Pursues.frame
    (h : Pursues c src p r hash slots)
    (hSending : SameSending c c')
    (hPeer : (c'.peer p).chunk = (c.peer p).chunk)
    (hLive :
      ∃ chunk, c'.chunk r = some chunk ∧
        Holds chunk p slots ∧ chunk.hash = hash) :
    Pursues c' src p r hash slots := by
  rcases hLive with ⟨chunk, hLive, hHolds, hHash⟩
  have hFound : peerWithAddr src c' = some p := by
    rw [peerWithAddr_congr hSending.peers hSending.addr]
    exact h.found
  refine ⟨⟨⟨hFound, hPeer.trans h.assigned⟩, chunk, hLive,
    hHolds⟩, ?_⟩
  intro chunk' hLive'
  have hSame : chunk = chunk' :=
    Option.some.inj (hLive.symm.trans hLive')
  rw [← hSame]
  exact hHash

/- An update that keeps the chunk, too. -/
theorem Pursues.aside
    (h : Pursues c src p r hash slots)
    (hSending : SameSending c c')
    (hPeer : (c'.peer p).chunk = (c.peer p).chunk)
    (hChunk : c'.chunk r = c.chunk r) :
    Pursues c' src p r hash slots := by
  apply h.frame hSending hPeer
  rw [hChunk]
  exact h.chunk

/- The chunk is known by its hash wherever hashes stay. -/
theorem Pursues.wanted_same
    (h : Pursues c src p r hash slots)
    (hSame : SameHashes c c') :
    ∀ chunk, c'.chunk r = some chunk → chunk.hash = hash := by
  intro chunk hLive
  rcases h.chunk with ⟨chunk', hLive', _, hHash⟩
  have hHashes := hSame r
  simp only [BtConfig.hashOf, hLive, hLive',
    Option.map_some, Option.some.injEq] at hHashes
  exact hHashes.trans hHash

/- A chunk without a peer is another one. -/
theorem Pursues.ne_free
    (h : Pursues c src p r hash slots)
    {chunk : BtChunk}
    (hLive : c.chunk s = some chunk)
    (hFree : chunk.peer = none) :
    r ≠ s := by
  rintro rfl
  rcases h.chunk with ⟨chunk', hLive', hHolds, _⟩
  have hSame : chunk = chunk' :=
    Option.some.inj (hLive.symm.trans hLive')
  have hPeer := hHolds.peer
  rw [← hSame, hFree] at hPeer
  cases hPeer

/- Another peer fetches another chunk. -/
theorem Pursues.ne_assigned
    (h : Pursues c src p r hash slots)
    (hOwned : Owned c)
    (hListed : q ∈ c.peers)
    (hApart : p ≠ q)
    (hAssigned : (c.peer q).chunk = some s) :
    r ≠ s := by
  rintro rfl
  rcases h.chunk with ⟨chunk, hLive, _, _⟩
  exact hApart
    (hOwned.unique h.listed hListed hLive h.assigned
      hAssigned)

/- DATA from another address goes to another peer. -/
theorem Pursues.ne_found
    (h : Pursues c src p r hash slots)
    (hApart : src' ≠ src)
    (hFound : peerWithAddr src' c = some q) :
    p ≠ q := by
  rintro rfl
  have hAddr := addr_of_peerWithAddr hFound
  have hAddr' := addr_of_peerWithAddr h.found
  exact hApart (hAddr.symm.trans hAddr')

theorem Pursues.move
    (h : Pursues n.config src p r hash slots)
    (hOwned : Owned n.config)
    (hMove : Move env call n m) :
    Pursues m.config src p r hash slots ∨
      LetGo p r m.config := by
  have hSending := SameSending.move hMove
  cases hMove with
  | get hGet =>
      cases hGet with
      | dropped _ =>
          by_cases hGone : r ∈ n.config.download
          · right
            right
            simp [hGone]
          · exact .inl (h.aside hSending rfl (by simp [hGone]))
      | _ => exact .inl h
  | counted _ cur _ _ =>
      left
      apply h.aside hSending _ rfl
      by_cases hIs : p = cur
      · subst hIs
        simp [BtConfig.countTimeout]
      · simp [BtConfig.countTimeout, hIs]
  | gaveUp _ cur s chunk packets now hCur hAssigned _ _ =>
      by_cases hIs : p = cur
      · subst hIs
        right
        left
        simp [BtConfig.giveUp]
      · left
        have hApart := h.ne_assigned hOwned hCur hIs hAssigned
        apply h.aside hSending
        · simp [BtConfig.giveUp, hIs]
        · simp [BtConfig.giveUp, hApart]
  | fetched _ q q' s chunk _ hLive _ hFree _ _ _ =>
      have hApart := h.ne_free hLive hFree
      by_cases hIs : p = q
      · subst hIs
        right
        left
        simp [Node.fetch, BtConfig.fetch, BtConfig.assign,
          hApart.symm]
      · left
        apply h.aside hSending
        · simp [Node.fetch, BtConfig.fetch, BtConfig.assign,
            hIs]
        · simp [Node.fetch, BtConfig.fetch, BtConfig.assign,
            hApart]
  | cleared _ q _ =>
      left
      apply h.aside hSending _ rfl
      by_cases hIs : p = q
      · subst hIs
        simp [BtConfig.clearBad]
      · simp [BtConfig.clearBad, hIs]
  | announced _ s q _ _ =>
      left
      rcases h.chunk with ⟨chunk, hLive, hHolds, hHash⟩
      by_cases hIs : r = s
      · subst hIs
        apply h.frame hSending rfl
        refine ⟨{ chunk with peers := q :: chunk.peers }, ?_,
          ⟨hHolds.peer, hHolds.packets, hHolds.totalData,
            hHolds.nextExpected⟩, hHash⟩
        simp [BtConfig.addPeerList, hLive]
      · apply h.aside hSending rfl
        simp [BtConfig.addPeerList, hIs]
  | loaded _ chunkfile outputfile items _ _ =>
      right
      left
      simp [load_peer_chunk chunkfile outputfile items
        h.listed]
  | _ => exact .inl (h.aside hSending rfl rfl)

/- Who has let go does not come back in the same call. -/
theorem LetGo.move
    (h : LetGo p r n.config)
    (hListed : p ∈ n.config.peers)
    (hHeld :
      call = .getAllTheThingz →
        ∀ chunk, n.config.chunk r = some chunk →
          chunk.peer ≠ none)
    (hMove : Move env call n m) :
    LetGo p r m.config := by
  cases hMove with
  | get hGet =>
      cases hGet with
      | dropped _ =>
          rcases h with hOther | hGone
          · exact .inl hOther
          · right
            simp [hGone]
      | _ => exact h
  | counted _ cur _ _ =>
      rcases h with hOther | hGone
      · left
        by_cases hIs : p = cur
        · subst hIs
          simpa [BtConfig.countTimeout] using hOther
        · simpa [BtConfig.countTimeout, hIs] using hOther
      · exact .inr hGone
  | gaveUp _ cur s chunk packets now _ _ _ _ =>
      by_cases hIs : p = cur
      · subst hIs
        left
        simp [BtConfig.giveUp]
      rcases h with hOther | hGone
      · left
        simpa [BtConfig.giveUp, hIs] using hOther
      · right
        by_cases hSame : r = s
        · subst hSame
          simp [BtConfig.giveUp, hGone]
        · simpa [BtConfig.giveUp, hSame] using hGone
  | fetched _ q q' s chunk _ hLive _ hFree _ _ _ =>
      have hApart : r ≠ s := by
        rintro rfl
        exact hHeld rfl chunk hLive hFree
      by_cases hIs : p = q
      · subst hIs
        left
        simp [Node.fetch, BtConfig.fetch, BtConfig.assign,
          hApart.symm]
      rcases h with hOther | hGone
      · left
        simpa [Node.fetch, BtConfig.fetch, BtConfig.assign,
          hIs] using hOther
      · right
        simpa [Node.fetch, BtConfig.fetch, BtConfig.assign,
          hApart] using hGone
  | cleared _ q _ =>
      rcases h with hOther | hGone
      · left
        by_cases hIs : p = q
        · subst hIs
          simpa [BtConfig.clearBad] using hOther
        · simpa [BtConfig.clearBad, hIs] using hOther
      · exact .inr hGone
  | announced _ s q _ _ =>
      rcases h with hOther | hGone
      · exact .inl hOther
      · right
        by_cases hSame : r = s
        · subst hSame
          simp [BtConfig.addPeerList, hGone]
        · simpa [BtConfig.addPeerList, hSame] using hGone
  | loaded _ chunkfile outputfile items _ _ =>
      left
      simp [load_peer_chunk chunkfile outputfile items
        hListed]
  | _ => exact h

/- Nothing was finished of the chunk since `n₀`. -/
def NoFinish
    (r : ChunkRef)
    (n₀ n : Node) : Prop :=
  ∃ rest, n.trace = n₀.trace ++ rest ∧
    ∀ packets, .finishChunk r packets ∉ rest

theorem NoFinish.refl
    (r : ChunkRef)
    (n : Node) :
    NoFinish r n n :=
  ⟨[], by simp, by simp⟩

theorem NoFinish.emit
    (h : NoFinish r n₀ n)
    {e : Event}
    (hNew : ∀ packets, e ≠ .finishChunk r packets) :
    NoFinish r n₀ (n.emit e) := by
  rcases h with ⟨rest, hTrace, hRest⟩
  refine ⟨rest ++ [e], by simp [hTrace], ?_⟩
  intro packets hMem
  rcases List.mem_append.mp hMem with hOld | hLast
  · exact hRest packets hOld
  · exact hNew packets (List.mem_singleton.mp hLast).symm

theorem NoFinish.move
    (h : NoFinish r n₀ n)
    (hMove : Move env call n m) :
    NoFinish r n₀ m := by
  cases hMove with
  | get hGet =>
      cases hGet with
      | entered _ => exact h.emit (by simp)
      | got => exact h.emit (by simp)
      | _ => exact h
  | fetched _ p q s chunk _ _ _ _ _ _ _ =>
      exact NoFinish.emit (n := n) h (by simp)
  | _ => exact h

/-
  The attempt goes on, or the process has let go of its
  chunk, within a call; the chunk was not finished.
-/
structure Continues
    (call : Call)
    (n₀ : Node)
    (src : Addr)
    (p : PeerRef)
    (r : ChunkRef)
    (hash : Hash)
    (slots : List (Option Bytes))
    (n : Node) : Prop where
  owned : Owned n.config
  listed : p ∈ n.config.peers
  way :
    Pursues n.config src p r hash slots ∨
      LetGo p r n.config
  held :
    call = .getAllTheThingz →
      ∀ chunk, n.config.chunk r = some chunk →
        chunk.peer ≠ none
  quiet : NoFinish r n₀ n

theorem Pursues.continues
    (h : Pursues n.config src p r hash slots)
    (hOwned : Owned n.config) :
    Continues call n src p r hash slots n where
  owned := hOwned
  listed := h.listed
  way := .inl h
  held := by
    intro _ chunk hLive hFree
    exact h.ne_free hLive hFree rfl
  quiet := .refl r n

/- `get_all_the_thingz` takes no chunk from its peer. -/
theorem held_move
    (hHeld :
      ∀ chunk, n.config.chunk r = some chunk →
        chunk.peer ≠ none)
    (hMove : Move env .getAllTheThingz n m) :
    ∀ chunk, m.config.chunk r = some chunk →
      chunk.peer ≠ none := by
  cases hMove with
  | get hGet =>
      cases hGet with
      | dropped _ =>
          intro chunk hLive
          simp only [Node.onConfig_config,
            BtConfig.dropDownload_chunk] at hLive
          split at hLive
          · cases hLive
          · exact hHeld chunk hLive
      | _ => exact hHeld
  | fetched _ p q s chunk' _ hLive' _ _ _ _ _ =>
      intro chunk hLive
      by_cases hIs : r = s
      · subst hIs
        simp only [Node.fetch, BtConfig.fetch,
          BtConfig.assign, Node.onConfig_config,
          Node.emit_config, Node.push_config,
          BtConfig.setChunk_chunk, Function.update_self,
          Option.map_eq_some_iff] at hLive
        rcases hLive with ⟨_, _, rfl⟩
        simp
      · apply hHeld chunk
        simpa [Node.fetch, BtConfig.fetch, BtConfig.assign,
          hIs] using hLive
  | _ => exact hHeld

theorem continues_closed :
    Closed env call
      (Continues call n₀ src p r hash slots) where
  move := by
    intro n m h hMove
    constructor
    · exact h.owned.move hMove
    · rw [(SameSending.move hMove).peers]
      exact h.listed
    · rcases h.way with hPursues | hLetGo
      · exact hPursues.move h.owned hMove
      · exact .inr (hLetGo.move h.listed h.held hMove)
    · rintro rfl
      exact held_move (h.held rfl) hMove
    · exact h.quiet.move hMove
  load := by
    intro n chunkfile outputfile items hCall _ h
    have hSending :=
      SameSending.load chunkfile outputfile items n.config
    constructor
    · exact Owned.load chunkfile outputfile items _
    · rw [Node.onConfig_config, hSending.peers]
      exact h.listed
    · right
      left
      simp [load_peer_chunk chunkfile outputfile items
        h.listed]
    · intro hIs
      rw [hCall] at hIs
      cases hIs
    · exact h.quiet
  raise := by
    intro n h
    refine ⟨h.owned, h.listed, ?_, h.held, h.quiet⟩
    rcases h.way with hPursues | hLetGo
    · exact .inl (hPursues.aside
        ⟨rfl, rfl, fun _ => rfl, fun _ => rfl⟩ rfl rfl)
    · exact .inr hLetGo
  halt := fun _ _ h =>
    ⟨h.owned, h.listed, h.way, h.held, h.quiet⟩

end

end PeerNet

------------------------------------------------------------
-- DATA of Other Peers
------------------------------------------------------------

namespace PeerNet

section

variable {env : Env} {n m : Node} {src src' : Addr}
variable {packet : Packet} {p : PeerRef} {r : ChunkRef}
variable {hash : Hash} {slots : List (Option Bytes)}
variable {ack : Option Int} {counted : Bool}

theorem Pursues.heard
    (h : Pursues n.config src p r hash slots)
    (env : Env)
    (q : PeerRef) :
    Pursues (n.heard env q).config src p r hash slots :=
  h.aside (.heard env q n) (heard_peer_chunk p) rfl

/- The chunk of another peer is another chunk. -/
theorem Pursues.apart
    (h : Pursues n.config src p r hash slots)
    (hOwned : Owned n.config)
    (hApart : src' ≠ src)
    {q : PeerRef}
    {s : ChunkRef}
    (hFetching : Fetching n.config src' q s) :
    p ≠ q ∧ r ≠ s := by
  have hPeer := h.ne_found hApart hFetching.found
  have hListed := mem_peers_of_peerWithAddr hFetching.found
  exact ⟨hPeer,
    h.ne_assigned hOwned hListed hPeer hFetching.assigned⟩

/- Finishing another chunk leaves the attempt alone. -/
theorem Pursues.filled
    (h : Pursues n.config src p r hash slots)
    (hOwned : Owned n.config)
    (hApart : src' ≠ src)
    {q q' : PeerRef}
    {s : ChunkRef}
    {chunk : BtChunk}
    {nodes : List BtPacket}
    (hFilling :
      Filling n.config src' packet q q' s chunk nodes) :
    Pursues (n.filled env packet q q' s chunk nodes).config
        src p r hash slots ∧
      NoFinish r n (n.filled env packet q q' s chunk nodes) := by
  have hSame : q' = q :=
    Option.some.inj
      (hFilling.owner.symm.trans
        (hOwned.taking hFilling.toTaking))
  subst hSame
  rcases h.apart hOwned hApart hFilling.toFetching with
    ⟨hPeer, hChunk⟩
  constructor
  · apply h.aside (.filled packet q' q' s chunk nodes)
    · simp [Node.filled, Node.release, Node.keep,
        Node.heard, BtConfig.heardData, hPeer]
    · simp [Node.filled, Node.release, Node.keep,
        Node.heard, BtConfig.heardData, hChunk]
  · refine ⟨_, filled_trace, ?_⟩
    simp [hChunk]

theorem Pursues.others
    (h : Pursues n.config src p r hash slots)
    (hOwned : Owned n.config)
    (hApart : src' ≠ src)
    (hStep : DataStep env src' packet n ack counted m) :
    Pursues m.config src p r hash slots ∧ NoFinish r n m := by
  cases hStep with
  | ignored _ => exact ⟨h, .refl r n⟩
  | refused q s _ _ => exact ⟨h.heard env q, .refl r n⟩
  | stored q s chunk nodes hTaking _ =>
      have hOther := h.apart hOwned hApart hTaking.toFetching
      refine ⟨?_, .refl r n⟩
      apply (h.heard env q).aside (.setChunk s _ _) rfl
      simp [hOther.2]
  | stopped q q' s chunk nodes g f hFilling _ =>
      exact h.filled hOwned hApart hFilling
  | rejected q q' s chunk nodes hFilling _ =>
      rcases h.filled hOwned hApart hFilling with
        ⟨hFilled, hQuiet⟩
      exact ⟨hFilled, hQuiet.emit (by simp)⟩
  | unrecorded q q' s chunk nodes hFilling _ _ =>
      rcases h.filled hOwned hApart hFilling with
        ⟨hFilled, hQuiet⟩
      exact ⟨hFilled, hQuiet.emit (by simp)⟩
  | recorded q q' s chunk nodes id hFilling _ _ _ =>
      rcases h.filled hOwned hApart hFilling with
        ⟨hFilled, hQuiet⟩
      have hOther :=
        h.apart hOwned hApart hFilling.toFetching
      refine ⟨hFilled.aside (.recorded s id chunk.hash _) rfl
        ?_, hQuiet⟩
      simp [Node.recorded, hOther.2]

/- DATA from elsewhere, at a process that runs. -/
theorem Pursues.step_others
    (h : Pursues n.config src p r hash slots)
    (hOwned : Owned n.config)
    (hApart : src' ≠ src)
    (hRun : n.fault = none) :
    Continues .ihave n src p r hash slots
      (n.step env (.data src' packet)) := by
  rcases hOwned.step_data env src' packet hRun with
    hData | ⟨q, s, f, _, _, hEnd⟩
  · have hClosed :
        Closed env .ihave
          (Continues .ihave n src p r hash slots) :=
      continues_closed
    apply hClosed.dataRun _ _ hData
    · exact fun _ _ h =>
        ⟨h.owned, h.listed, h.way, h.held, h.quiet⟩
    · intro ack counted k hStep
      rcases h.others hOwned hApart hStep with
        ⟨hPursues, hQuiet⟩
      exact ⟨hOwned.data hStep, hPursues.listed,
        .inl hPursues, nofun, hQuiet⟩
  · rw [hEnd]
    have hHeard := h.heard env q
    exact ⟨hOwned.heard env q, hHeard.listed, .inl hHeard,
      nofun, .refl r n⟩

end

end PeerNet

------------------------------------------------------------
-- DATA of an Honest Peer
------------------------------------------------------------

namespace PeerNet

open Reassembly

/- `finish_chunk` has had the bytes, and recorded them. -/
structure Completes
    (env : Env)
    (data : Bytes)
    (r : ChunkRef)
    (n m : Node) : Prop where
  finished :
    ∃ nodes, .finishChunk r (.live nodes) ∈ n.output m ∧
      writeToBuffer env nodes = .ok data
  downloaded :
    m.fault = none →
      ∀ chunk, m.config.chunk r = some chunk →
        chunk.downloaded = true

/- The buffer has only parts of `data`, and not all. -/
structure Gathering
    (env : Env)
    (data : Bytes)
    (src : Addr)
    (p : PeerRef)
    (r : ChunkRef)
    (slots : List (Option Bytes))
    (n : Node) : Prop where
  owned : Owned n.config
  pursues :
    Pursues n.config src p r (env.shahash data) slots
  running : n.fault = none
  fits : Fits slots (chunkParts data)
  missing : slots ≠ (chunkParts data).map some

section

variable {env : Env} {data : Bytes} {n m : Node}
variable {src : Addr} {packet : Packet} {p : PeerRef}
variable {r : ChunkRef} {slots : List (Option Bytes)}
variable {chunk : BtChunk} {nodes : List BtPacket}

theorem Verified.not_mismatched
    {hash : Hash}
    (h : Verified env hash nodes) :
    ¬ Mismatched env hash nodes := by
  rintro ⟨buffer', hBuffer', hOther⟩
  rcases h with ⟨buffer, hBuffer, hSame⟩
  rw [hBuffer] at hBuffer'
  rw [← Except.ok.inj hBuffer', hSame] at hOther
  cases hOther

/- What fills the buffer has the hash of the chunk. -/
theorem Gathering.verified
    (h : Gathering env data src p r slots n)
    (hSize : data.length = btChunkSize)
    (hPacket : packet ∈ numbered 1 (chunkParts data))
    {q q' : PeerRef}
    {s : ChunkRef}
    (hFilling :
      Filling n.config src packet q q' s chunk nodes) :
    writeToBuffer env (storedNodes nodes packet) = .ok data ∧
      Verified env chunk.hash
        (storedNodes nodes packet) := by
  rcases h.pursues.toFetchOf.unique hFilling.toTaking with
    ⟨_, _, hNodes, hHolds⟩
  have hTake := hHolds.take hFilling.low
  have hFull := hFilling.full
  rw [hNodes, hTake.totalData] at hFull
  have hAll :=
    (bufferSize_full_iff hSize
      (putPacket_fits h.fits hPacket)).mp hFull
  have hBuffer :
      writeToBuffer env (storedNodes nodes packet) =
        .ok data := by
    rw [hNodes, storedNodes_nodesOf slots hFilling.low, hAll]
    exact writeToBuffer_chunkParts env hSize
  refine ⟨hBuffer, data, hBuffer, ?_⟩
  have hSame := (h.pursues.toFetchOf.unique
    hFilling.toTaking).2.1
  subst hSame
  rw [h.pursues.wanted chunk hFilling.live]
  simp [hashEqual]

/- A chunk stays downloaded while `finish_get` runs. -/
theorem downloaded_getMoves
    (hDone : ∀ chunk, n.config.chunk r = some chunk →
      chunk.downloaded = true)
    (hMoves : GetMoves n m) :
    ∀ chunk, m.config.chunk r = some chunk →
      chunk.downloaded = true := by
  induction hMoves with
  | refl => exact hDone
  | tail _ hMove ih =>
      cases hMove with
      | dropped _ =>
          intro chunk hLive
          simp only [Node.onConfig_config,
            BtConfig.dropDownload_chunk] at hLive
          split at hLive
          · cases hLive
          · exact ih chunk hLive
      | _ => exact ih

/- The last packet: the chunk is finished, and recorded. -/
theorem Gathering.last
    (h : Gathering env data src p r slots n)
    (hSize : data.length = btChunkSize)
    (hPacket : packet ∈ numbered 1 (chunkParts data))
    (hUnspoiled : ¬ Spoils env n src packet)
    {ack : Option Int}
    {counted : Bool}
    (hStep : DataStep env src packet n ack counted m)
    (hFull : btChunkSize ≤ bufferSize (putPacket slots packet)) :
    ack = none ∨
      ∀ chunk, m.config.chunk r = some chunk →
        chunk.downloaded = true := by
  have hAccept := (mem_chunkPackets hPacket).2.1
  have hFetch := h.pursues.toFetchOf
  cases hStep with
  | ignored _ => exact .inl rfl
  | refused _ _ _ _ => exact .inl rfl
  | stopped _ _ _ _ _ _ _ _ _ => exact .inl rfl
  | stored q s chunk nodes hTaking hShort =>
      rcases hFetch.unique hTaking with ⟨_, _, hNodes, hHolds⟩
      have hTake := hHolds.take hAccept.low
      rw [hNodes, hTake.totalData] at hShort
      exact absurd hFull (by omega)
  | rejected q q' s chunk nodes hFilling hHash =>
      have hVerified := (h.verified hSize hPacket hFilling).2
      exact absurd hHash hVerified.not_mismatched
  | unrecorded q q' s chunk nodes hFilling hHash hClosed =>
      exact absurd
        ⟨q, q', s, chunk, nodes, hFilling,
          .inr ⟨hHash, hClosed⟩⟩
        hUnspoiled
  | recorded q q' s chunk nodes id hFilling _ _ _ =>
      right
      have hSame := (hFetch.unique hFilling.toTaking).2.1
      subst hSame
      intro chunk' hLive
      simp only [Node.recorded, Node.onConfig_config,
        BtConfig.markDownloaded_chunk,
        Function.update_self, BtConfig.setChunk_chunk,
        Option.map_eq_some_iff] at hLive
      rcases hLive with ⟨_, _, rfl⟩
      rfl

/- DATA of the honest peer. -/
theorem Gathering.own
    (h : Gathering env data src p r slots n)
    (hSize : data.length = btChunkSize)
    (hPacket : packet ∈ numbered 1 (chunkParts data))
    (hUnspoiled : ¬ Spoils env n src packet) :
    Gathering env data src p r (putPacket slots packet)
        (n.step env (.data src packet)) ∨
      Completes env data r n
        (n.step env (.data src packet)) := by
  have hAccept := (mem_chunkPackets hPacket).2.1
  have hFits := putPacket_fits h.fits hPacket
  have hFetch := h.pursues.toFetchOf
  rcases step_data env packet h.running hFetch.not_loose with
    ⟨ack, counted, k, k', hStep, hPart, hEnd⟩
  rcases hFetch.step env h.running hAccept with
    ⟨hShort, hKept⟩ | ⟨hFull, hEnded⟩
  · left
    refine ⟨owned_step env h.owned _, ⟨hKept.fetch, ?_⟩,
      hKept.fault, hFits, ?_⟩
    · rcases hFetch.data hAccept hStep with
        ⟨_, _, hCounted, _⟩ | ⟨hFull, _⟩
      · have hLast := hPart.2 hCounted
        subst hLast
        have hWanted :=
          h.pursues.wanted_same (SameItems.data hStep).hashes
        rcases hEnd with ⟨hEnd, _⟩ | ⟨f, _, _, hEnd⟩
        · rw [hEnd]
          cases ack with
          | none => exact hWanted
          | some ackNum => exact hWanted
        · rw [hEnd]
          exact hWanted
      · omega
    · intro hAll
      have hFull := (bufferSize_full_iff hSize hFits).mpr hAll
      omega
  · right
    have hAll := (bufferSize_full_iff hSize hFits).mp hFull
    rcases hEnded.trace with ⟨rest, hTrace, _⟩
    refine ⟨⟨nodesOf (putPacket slots packet), ?_, ?_⟩, ?_⟩
    · rw [Node.output_of_append hTrace]
      exact List.mem_cons_self
    · rw [hAll]
      exact writeToBuffer_chunkParts env hSize
    · intro hRunning
      rcases hEnd with ⟨hEnd, hSilent⟩ | ⟨f, _, _, hEnd⟩
      · rcases h.last hSize hPacket hUnspoiled hStep hFull with
          hNone | hDone
        · -- the trace has grown, so there is an answer
          subst hNone
          have hLast := hPart.2 hStep.uncounted
          have hSame := hSilent rfl
          rw [hEnd, hLast] at hTrace
          have hGrown := hTrace.symm.trans hSame
          simp at hGrown
        · have hDone' := downloaded_getMoves hDone hPart.1
          rw [hEnd]
          cases ack with
          | none => exact hDone'
          | some ackNum => exact hDone'
      · rw [hEnd] at hRunning
        cases hRunning

end

end PeerNet

------------------------------------------------------------
-- The Attempt Over a Run
------------------------------------------------------------

namespace PeerNet

open Reassembly Runs

/- `src` sends packets of `data`, and no chunk is spoiled. -/
def Honest
    (env : Env)
    (data : Bytes)
    (src : Addr)
    (n : Node)
    (e : NodeEvent) : Prop :=
  Unspoiled env n e ∧
    ∀ packet, e = .data src packet →
      packet ∈ dataPackets data btChunkSize

/-
  How an attempt ends with an event: with the right bytes,
  at a fault of the process, or when it lets go of the chunk,
  which DATA from `src` never makes it do.
-/
def EndsAttempt
    (env : Env)
    (data : Bytes)
    (src : Addr)
    (p : PeerRef)
    (r : ChunkRef)
    (n : Node)
    (e : NodeEvent) : Prop :=
  Completes env data r n (n.step env e) ∨
    (NoFinish r n (n.step env e) ∧
      (∀ packet, e ≠ .data src packet) ∧
        ((n.step env e).fault ≠ none ∨
          LetGo p r (n.step env e).config))

/- The buffer of the attempt after an event. -/
def attemptSlots
    (src : Addr)
    (slots : List (Option Bytes)) :
    NodeEvent → List (Option Bytes)
| .data src' packet =>
    if src' = src then putPacket slots packet else slots
| _ => slots

section

variable {env : Env} {data : Bytes} {n m : Node}
variable {src : Addr} {packet : Packet} {p : PeerRef}
variable {r : ChunkRef} {slots : List (Option Bytes)}
variable {e : NodeEvent}

/- The attempt goes on, unless a call has ended it. -/
theorem Gathering.continues
    (call : Call)
    (h : Gathering env data src p r slots n)
    (hNot : ∀ packet, e ≠ .data src packet)
    (hNext :
      Continues call n src p r (env.shahash data) slots
        (n.step env e)) :
    Gathering env data src p r slots (n.step env e) ∨
      EndsAttempt env data src p r n e := by
  by_cases hRun : (n.step env e).fault = none
  · rcases hNext.way with hPursues | hLetGo
    · exact .inl ⟨hNext.owned, hPursues, hRun, h.fits,
        h.missing⟩
    · exact .inr (.inr ⟨hNext.quiet, hNot, .inr hLetGo⟩)
  · exact .inr (.inr ⟨hNext.quiet, hNot, .inl hRun⟩)

/- The sending side's events. -/
theorem Gathering.served
    (h : Gathering env data src p r slots n)
    (hServes : ¬ e.receives) :
    Continues .ihave n src p r (env.shahash data) slots
      (n.step env e) := by
  have hPursues := h.pursues
  rcases step_serves env n hServes with
    ⟨m, ⟨_, _, _, rfl⟩, hEnd | ⟨f, hEnd⟩⟩
  · rw [hEnd]
    exact ⟨h.owned, hPursues.listed,
      .inl ⟨⟨⟨hPursues.found, hPursues.assigned⟩,
        hPursues.holds⟩, hPursues.wanted⟩, nofun,
      .refl r n⟩
  · rw [hEnd]
    exact ⟨h.owned, hPursues.listed,
      .inl ⟨⟨⟨hPursues.found, hPursues.assigned⟩,
        hPursues.holds⟩, hPursues.wanted⟩, nofun,
      .refl r n⟩

theorem Gathering.step
    (h : Gathering env data src p r slots n)
    (hSize : data.length = btChunkSize)
    (hHonest : Honest env data src n e) :
    Gathering env data src p r (attemptSlots src slots e)
        (n.step env e) ∨
      EndsAttempt env data src p r n e := by
  have hReceived :
      e.receives → (∀ src' packet, e ≠ .data src' packet) →
        Gathering env data src p r slots (n.step env e) ∨
          EndsAttempt env data src p r n e := by
    intro hReceives hNot
    apply h.continues (callOf e) (hNot src)
    apply continues_closed.step hReceives
    · exact fun src' packet hIs =>
        absurd hIs (hNot src' packet)
    · exact h.pursues.continues h.owned
  have hServed :
      ¬ e.receives →
        Gathering env data src p r slots (n.step env e) ∨
          EndsAttempt env data src p r n e := by
    intro hServes
    apply h.continues .ihave _ (h.served hServes)
    rintro packet rfl
    exact hServes trivial
  cases e with
  | data src' packet =>
      simp only [attemptSlots]
      by_cases hIs : src' = src
      · subst hIs
        have hPacket := hHonest.2 packet rfl
        rw [dataPackets_eq hSize.ge] at hPacket
        rw [if_pos rfl]
        rcases h.own hSize hPacket
            (hHonest.1 src' packet rfl) with
          hStill | hDone
        · exact .inl hStill
        · exact .inr (.inl hDone)
      · rw [if_neg hIs]
        apply h.continues .ihave _
          (h.pursues.step_others h.owned hIs h.running)
        rintro packet' hSame
        cases hSame
        exact hIs rfl
  | userGet _ _ => exact hReceived trivial nofun
  | timeoutCheck => exact hReceived trivial nofun
  | getAllTheThingz => exact hReceived trivial nofun
  | ihave _ _ => exact hReceived trivial nofun
  | peerCc => exact hServed id
  | get _ _ => exact hServed id
  | ack _ _ => exact hServed id

/- The buffer never loses a part. -/
theorem attemptSlots_content
    (src : Addr)
    (slots : List (Option Bytes))
    (e : NodeEvent)
    {i : Nat}
    (hFilled : (content slots i).isSome) :
    (content (attemptSlots src slots e) i).isSome := by
  cases e with
  | data src' packet =>
      simp only [attemptSlots]
      split
      · rcases Option.isSome_iff_exists.mp hFilled with
          ⟨part, hPart⟩
        unfold putPacket
        rw [content_put_of_content hPart]
        rfl
      · exact hFilled
  | _ => exact hFilled

/-
  After any events: the attempt goes on, with all that came
  from `src` in its buffer, or one of the events has ended it.
-/
theorem Gathering.run
    {events : List NodeEvent}
    (h : Gathering env data src p r slots n)
    (hSize : data.length = btChunkSize)
    (hAllow :
      AllAllowed (Node.step env) (Honest env data src) n
        events) :
    (∃ slots',
      Gathering env data src p r slots'
          (foldSteps (Node.step env) n events) ∧
        (∀ i, (content slots i).isSome →
          (content slots' i).isSome) ∧
        ∀ packet, .data src packet ∈ events →
          (content slots' packet.slot).isSome) ∨
    ∃ before e after, events = before ++ e :: after ∧
      EndsAttempt env data src p r
        (foldSteps (Node.step env) n before) e := by
  induction events generalizing n slots with
  | nil => exact .inl ⟨slots, h, fun _ hi => hi, by simp⟩
  | cons e events ih =>
      rcases h.step hSize hAllow.1 with hStill | hEnds
      · rcases ih hStill hAllow.2 with
          ⟨slots', hStill', hKept, hStored⟩ |
          ⟨before, e', after, hSplit, hEnds⟩
        · refine .inl ⟨slots', hStill', ?_, ?_⟩
          · intro i hi
            exact hKept i (attemptSlots_content src slots e hi)
          · intro packet hMem
            rcases List.mem_cons.mp hMem with rfl | hRest
            · apply hKept
              simp [attemptSlots, putPacket, content_put_self]
            · exact hStored packet hRest
        · refine .inr ⟨e :: before, e', after, ?_, hEnds⟩
          rw [hSplit, List.cons_append]
      · exact .inr ⟨[], e, events, rfl, hEnds⟩

/- A packet of the chunk has not come yet. -/
theorem Gathering.waits
    (h : Gathering env data src p r slots n)
    (hSize : data.length = btChunkSize)
    {events : List NodeEvent}
    (hStored :
      ∀ packet, .data src packet ∈ events →
        (content slots packet.slot).isSome) :
    ∃ packet ∈ dataPackets data btChunkSize,
      .data src packet ∉ events := by
  rcases missing_packet hSize h.fits h.missing with
    ⟨packet, hPacket, hNone⟩
  refine ⟨packet, hPacket, ?_⟩
  intro hMem
  have hSome := hStored packet hMem
  rw [hNone] at hSome
  cases hSome

end

end PeerNet

------------------------------------------------------------
-- Every Attempt Starts From Scratch
------------------------------------------------------------

namespace PeerNet

open Reassembly Runs

/- `send_get` has just asked `src` for the chunk. -/
structure Asking
    (c : BtConfig)
    (src : Addr)
    (p : PeerRef)
    (r : ChunkRef)
    (chunk : BtChunk) : Prop
    extends Fetching c src p r where
  live : c.chunk r = some chunk
  packets : chunk.packets = .live []

/-
  A state of a run: attempts have started from scratch, the
  counter of a fetched chunk is the size of what it has
  received, and an attempt that an honest peer serves is
  completed with the right bytes, unless it is ended first or
  still waits for a packet.
-/
structure FromScratch
    (env : Env)
    (n : Node) : Prop where
  started : FreshStarts n.trace
  counted :
    ∀ r chunk p, n.config.chunk r = some chunk →
      chunk.peer = some p →
        ∃ nodes, chunk.packets = .live nodes ∧
          chunk.totalData = dataLength nodes
  served :
    n.fault = none →
      ∀ src p r chunk data events,
        Asking n.config src p r chunk →
          data.length = btChunkSize →
          env.shahash data = chunk.hash →
          AllAllowed (Node.step env) (Honest env data src) n
              events →
            (Fetching
                (foldSteps (Node.step env) n events).config
                src p r ∧
              ∃ packet ∈ dataPackets data btChunkSize,
                .data src packet ∉ events) ∨
            ∃ before e after, events = before ++ e :: after ∧
              EndsAttempt env data src p r
                (foldSteps (Node.step env) n before) e

section

variable {env : Env} {data : Bytes} {n n₀ : Node}
variable {src : Addr} {p : PeerRef} {r : ChunkRef}
variable {chunk : BtChunk}

/- The attempts of a run, and clean ones until it stops. -/
theorem attempts_of_run
    (hTrace : n₀.trace = [])
    (hEmpty : ∀ r, n₀.config.chunk r = none)
    (hRun : Reaches (Node.step env) (Unspoiled env) n₀ n) :
    Attempts n ∧ (n.fault = none → Restarts n) := by
  apply hRun.invariant
    (I := fun n => Attempts n ∧ (n.fault = none → Restarts n))
  · have hAttempts : Attempts n₀ := by
      refine ⟨?_, ?_, ?_⟩
      · intro p _ r chunk _ hLive
        simp [hEmpty r] at hLive
      · intro r chunk hLive
        simp [hEmpty r] at hLive
      · intro r chunk hMem
        simp [hTrace] at hMem
    refine ⟨hAttempts, fun _ => ⟨hAttempts, ?_⟩⟩
    intro r chunk hLive
    simp [hEmpty r] at hLive
  · rintro k e ⟨hAttempts, hRestarts⟩ hUnspoiled
    cases hFault : k.fault with
    | some f =>
        rw [step_of_fault env e hFault]
        exact ⟨hAttempts, hRestarts⟩
    | none =>
        rcases (hRestarts hFault).step hFault hUnspoiled with
          hNext | ⟨hNext, hStopped⟩
        · exact ⟨hNext.toAttempts, fun _ => hNext⟩
        · exact ⟨hNext, fun hNone => absurd hNone hStopped⟩

/- An attempt that has just started holds nothing. -/
theorem Attempts.gathering
    (h : Attempts n)
    (hRun : n.fault = none)
    (hAsking : Asking n.config src p r chunk)
    (hHash : env.shahash data = chunk.hash) :
    Gathering env data src p r [] n := by
  have hListed := mem_peers_of_peerWithAddr hAsking.found
  have hPeer :=
    h.owned p hListed r chunk hAsking.assigned hAsking.live
  rcases h.attempted r chunk hAsking.live p hPeer with
    ⟨slots, hHolds⟩
  have hNone : slots = [] := by
    have hNodes :=
      hHolds.packets.symm.trans hAsking.packets
    have hLength :=
      congrArg List.length (BtPackets.live.inj hNodes)
    rw [length_nodesFrom] at hLength
    exact List.length_eq_zero_iff.mp hLength
  subst hNone
  refine ⟨h.owned, ⟨⟨hAsking.toFetching, chunk, hAsking.live,
    hHolds⟩, ?_⟩, hRun, .nil _, ?_⟩
  · intro chunk' hLive
    have hSame : chunk = chunk' :=
      Option.some.inj (hAsking.live.symm.trans hLive)
    rw [← hSame, hHash]
  · intro hFull
    have hLength := congrArg List.length hFull
    rw [List.length_map, length_chunkParts] at hLength
    cases hLength

/- Runs in which no chunk is spoiled restart from scratch. -/
theorem restarts_from_scratch
    (hTrace : n₀.trace = [])
    (hEmpty : ∀ r, n₀.config.chunk r = none)
    (hRun : Reaches (Node.step env) (Unspoiled env) n₀ n) :
    FromScratch env n := by
  have hAttempts := (attempts_of_run hTrace hEmpty hRun).1
  refine ⟨hAttempts.fresh, ?_, ?_⟩
  · intro r chunk p hLive hPeer
    rcases hAttempts.attempted r chunk hLive p hPeer with
      ⟨slots, hHolds⟩
    refine ⟨nodesOf slots, hHolds.packets, ?_⟩
    rw [hHolds.totalData, dataLength_nodesFrom]
  · intro hRunning src p r chunk data events hAsking hSize
      hHash hAllow
    have hStart := hAttempts.gathering hRunning hAsking hHash
    rcases hStart.run hSize hAllow with
      ⟨slots, hStill, _, hStored⟩ | hEnds
    · exact .inl ⟨hStill.pursues.toFetching,
        hStill.waits hSize hStored⟩
    · exact .inr hEnds

end

/- The process that asked has restarted nothing so far. -/
theorem restarts_from_scratch_asked :
    FromScratch stillEnv askedNode := by
  have hRun :
      Reaches (Node.step stillEnv) (Unspoiled stillEnv)
        oneChunkNode askedNode :=
    reaches_foldSteps ⟨nofun, nofun, nofun, trivial⟩
  exact restarts_from_scratch rfl (fun _ => rfl) hRun

end PeerNet

------------------------------------------------------------
-- A Chunk That Fails Its Check
------------------------------------------------------------

namespace PeerNet

open Reassembly Runs Prog

/- Whatever was read has another hash than zeros. -/
def otherEnv : Env :=
  { stillEnv with
    shahash := fun _ => Vector.replicate 20 1 }

/- One peer and one chunk that it has. -/
structure Lone
    (n : Node) : Prop where
  running : n.fault = none
  peers : n.config.peers = [0]
  addr : (n.config.peer 0).addr = ⟨1, 1⟩
  download : n.config.download = [0]
  room : n.config.curDownload < n.config.maxConn
  master : n.files.content n.config.chunkFile = none
  apart : n.config.hasChunkFile ≠ n.config.chunkFile
  chunk : ∃ chunk, n.config.chunk 0 = some chunk ∧
    chunk.peers = [0] ∧ chunk.downloaded = false ∧
      chunk.hash = Vector.replicate 20 0

/- The chunk is fetched, and zeros have come so far. -/
structure LoneFetch
    (slots : List (Option Bytes))
    (n : Node) : Prop
    extends Lone n where
  fetch : FetchOf n.config ⟨1, 1⟩ 0 0 slots
  fits : Fits slots (chunkParts zeroChunk)
  missing : slots ≠ (chunkParts zeroChunk).map some

/- The chunk is free again, and still counts its bytes. -/
structure LeftOver
    (n : Node) : Prop
    extends Lone n where
  idle : (n.config.peer 0).downloading = false
  good : (n.config.peer 0).badTime = 0
  free : (n.config.peer 0).chunk = none
  counts : ∃ chunk, n.config.chunk 0 = some chunk ∧
    chunk.peer = none ∧ chunk.totalData ≠ 0

section

variable {n m : Node} {packet : Packet}
variable {slots : List (Option Bytes)}

theorem zeroChunk_length :
    zeroChunk.length = btChunkSize :=
  List.length_replicate

/- The one chunk that the process knows. -/
theorem Lone.known
    (h : Lone n)
    {chunk : BtChunk}
    (hLive : n.config.chunk 0 = some chunk) :
    chunk.peers = [0] ∧ chunk.downloaded = false ∧
      chunk.hash = Vector.replicate 20 0 := by
  rcases h.chunk with ⟨chunk', hLive', hFields⟩
  have hSame : chunk' = chunk :=
    Option.some.inj (hLive'.symm.trans hLive)
  rw [← hSame]
  exact hFields

/- Its one peer is known by its address. -/
theorem Lone.found
    (h : Lone n) :
    peerWithAddr ⟨1, 1⟩ n.config = some 0 := by
  simp [peerWithAddr, h.peers, h.addr]

theorem Lone.stored
    (h : Lone n)
    {chunk : BtChunk}
    {nodes : List BtPacket}
    (hLive : n.config.chunk 0 = some chunk) :
    Lone
      ((n.heard otherEnv 0).keep 0
        (chunk.take nodes packet)) where
  running := h.running
  peers := h.peers
  addr := by
    simpa [Node.keep, Node.heard, BtConfig.heardData] using
      h.addr
  download := h.download
  room := h.room
  master := h.master
  apart := h.apart
  chunk := by
    refine ⟨chunk.take nodes packet, ?_, ?_⟩
    · simp [Node.keep, Node.heard, BtConfig.heardData, hLive]
    · simpa using h.known hLive

/- The last packet leaves the bytes behind. -/
theorem Lone.rejected
    (h : Lone n)
    {chunk : BtChunk}
    {nodes : List BtPacket}
    (hFilling :
      Filling n.config ⟨1, 1⟩ packet 0 0 0 chunk nodes) :
    LeftOver
      ((n.filled otherEnv packet 0 0 0 chunk nodes).emit
        (.hashMismatch 0)) := by
  have hLive :
      (n.filled otherEnv packet 0 0 0 chunk
          nodes).config.chunk 0 =
        some { chunk.take nodes packet with peer := none } :=
    filled_chunk hFilling.live
  have hKnown := h.known hFilling.live
  have hPos : 0 < btChunkSize := by decide
  have hFull := Nat.lt_of_lt_of_le hPos hFilling.full
  refine ⟨⟨?_, ?_, ?_, ?_, ?_, ?_, ?_, ?_⟩, ?_, ?_, ?_, ?_⟩
  · simpa [Node.filled, Node.release, Node.keep, Node.heard]
      using h.running
  · simpa [Node.filled, Node.release, Node.keep, Node.heard,
      BtConfig.heardData] using h.peers
  · simpa [Node.filled, Node.release, Node.keep, Node.heard,
      BtConfig.heardData] using h.addr
  · rw [Node.emit_config, filled_download]
    exact h.download
  · have hRoom := h.room
    simp only [Node.filled, Node.release, Node.keep,
      Node.heard, BtConfig.heardData, Node.emit_config,
      Node.onConfig_config, BtConfig.release_curDownload,
      BtConfig.release_maxConn, BtConfig.setChunk_curDownload,
      BtConfig.setChunk_maxConn, BtConfig.setPeer_curDownload,
      BtConfig.setPeer_maxConn, Node.tick_config]
    omega
  · simpa [Node.filled, Node.release, Node.keep, Node.heard,
      BtConfig.heardData] using h.master
  · simpa [Node.filled, Node.release, Node.keep, Node.heard,
      BtConfig.heardData] using h.apart
  · refine ⟨_, hLive, ?_⟩
    simpa using hKnown
  · simp [Node.filled, Node.release, Node.keep, Node.heard,
      BtConfig.heardData]
  · simp [Node.filled, Node.release, Node.keep, Node.heard,
      BtConfig.heardData]
  · simp [Node.filled, Node.release, Node.keep, Node.heard,
      BtConfig.heardData]
  · refine ⟨_, hLive, ?_⟩
    simpa [Nat.pos_iff_ne_zero] using hFull

/- What fills the buffer is the chunk of zeros. -/
theorem LoneFetch.buffer
    (h : LoneFetch slots n)
    (hPacket : packet ∈ numbered 1 (chunkParts zeroChunk))
    {q q' : PeerRef}
    {s : ChunkRef}
    {chunk : BtChunk}
    {nodes : List BtPacket}
    (hFilling :
      Filling n.config ⟨1, 1⟩ packet q q' s chunk nodes) :
    writeToBuffer otherEnv (storedNodes nodes packet) =
      .ok zeroChunk := by
  rcases h.fetch.unique hFilling.toTaking with
    ⟨_, _, hNodes, hHolds⟩
  have hTake := hHolds.take hFilling.low
  have hFull := hFilling.full
  rw [hNodes, hTake.totalData] at hFull
  have hAll :=
    (bufferSize_full_iff zeroChunk_length
      (putPacket_fits h.fits hPacket)).mp hFull
  rw [hNodes, storedNodes_nodesOf slots hFilling.low, hAll]
  exact writeToBuffer_chunkParts otherEnv zeroChunk_length

/- And never has the hash that was asked for. -/
theorem LoneFetch.unverified
    (h : LoneFetch slots n)
    {q q' : PeerRef}
    {s : ChunkRef}
    {chunk : BtChunk}
    {nodes : List BtPacket}
    (hFilling :
      Filling n.config ⟨1, 1⟩ packet q q' s chunk nodes) :
    ¬ Verified otherEnv chunk.hash
      (storedNodes nodes packet) := by
  rintro ⟨buffer, _, hHash⟩
  rcases h.fetch.unique hFilling.toTaking with ⟨_, rfl, _, _⟩
  have hKnown := h.known hFilling.live
  have hOther :
      hashEqual (Vector.replicate 20 0)
        (Vector.replicate 20 1) = false := by
    decide
  rw [hKnown.2.2] at hHash
  exact absurd (hHash.symm.trans hOther) (by decide)

/- One packet: it is stored, or the chunk is rejected. -/
theorem LoneFetch.step
    (h : LoneFetch slots n)
    (hPacket : packet ∈ numbered 1 (chunkParts zeroChunk)) :
    LoneFetch (putPacket slots packet)
        (n.step otherEnv (.data ⟨1, 1⟩ packet)) ∨
      LeftOver (n.step otherEnv (.data ⟨1, 1⟩ packet)) := by
  have hAccept := (mem_chunkPackets hPacket).2.1
  have hFits := putPacket_fits h.fits hPacket
  rcases step_data otherEnv packet h.running
      h.fetch.not_loose with
    ⟨ack, counted, k, k', hStep, hPart, hEnd⟩
  cases hStep with
  | ignored hNone =>
      exact absurd h.fetch.toFetching (hNone 0 0)
  | refused q s hFetching hTorn =>
      exact absurd hTorn (h.fetch.not_refused hAccept hFetching)
  | stored q s chunk nodes hTaking hShort =>
      rcases h.fetch.unique hTaking with
        ⟨rfl, rfl, rfl, hHolds⟩
      have hTake := hHolds.take hAccept.low
      rw [hTake.totalData] at hShort
      have hLone :
          Lone
            ((n.heard otherEnv 0).keep 0
              (chunk.take (nodesOf slots) packet)) :=
        h.toLone.stored hTaking.live
      have hKept :
          FetchOf
            ((n.heard otherEnv 0).keep 0
              (chunk.take (nodesOf slots) packet)).config
            ⟨1, 1⟩ 0 0 (putPacket slots packet) :=
        h.fetch.kept hTaking.live hHolds hAccept.low
      have hLast := hPart.2 rfl
      rcases hEnd with ⟨hEnd, _⟩ | ⟨f, _, hNone | hCount, _⟩
      · left
        rw [hEnd, hLast]
        refine ⟨⟨hLone.running, hLone.peers, hLone.addr,
          hLone.download, hLone.room, hLone.master,
          hLone.apart, hLone.chunk⟩, ⟨hKept.toFetching,
          hKept.holds⟩, hFits, ?_⟩
        intro hAll
        have hFull :=
          (bufferSize_full_iff zeroChunk_length hFits).mpr
            hAll
        omega
      · cases hNone
      · cases hCount
  | stopped q q' s chunk nodes g f hFilling hStop =>
      exfalso
      rcases hStop with hBuffer | hMaster
      · rw [h.buffer hPacket hFilling] at hBuffer
        cases hBuffer
      · simp [masterChunk, Files.append, Files.write,
          h.apart.symm, h.master] at hMaster
  | rejected q q' s chunk nodes hFilling hHash =>
      right
      rcases h.fetch.unique hFilling.toTaking with
        ⟨rfl, rfl, rfl, hHolds⟩
      have hOwner : q' = 0 :=
        Option.some.inj
          (hFilling.owner.symm.trans hHolds.peer)
      subst hOwner
      have hLeft := h.toLone.rejected hFilling
      have hLast := hPart.2 rfl
      rcases hEnd with ⟨hEnd, _⟩ | ⟨f, _, hNone | hCount, _⟩
      · rw [hEnd, hLast]
        exact ⟨⟨hLeft.running, hLeft.peers, hLeft.addr,
          hLeft.download, hLeft.room, hLeft.master,
          hLeft.apart, hLeft.chunk⟩, hLeft.idle, hLeft.good,
          hLeft.free, hLeft.counts⟩
      · cases hNone
      · cases hCount
  | unrecorded q q' s chunk nodes hFilling hHash hClosed =>
      exact absurd hHash (h.unverified hFilling)
  | recorded q q' s chunk nodes id hFilling hHash _ _ =>
      exact absurd hHash (h.unverified hFilling)

/- The next scan asks again, with the bytes counted. -/
theorem LeftOver.scan
    (h : LeftOver n) :
    ∃ chunk,
      .sendGet 0 chunk ∈
          (n.step otherEnv .getAllTheThingz).trace ∧
        chunk.totalData ≠ 0 := by
  rcases h.counts with ⟨chunk, hLive, hFree, hCounts⟩
  have hKnown := h.known hLive
  have hSent :
      wp (sendGet otherEnv (n.config.peer 0).addr 0)
        (fun _ m => ∃ chunk,
          .sendGet 0 chunk ∈ m.trace ∧ chunk.totalData ≠ 0)
        (fun _ _ => False) n := by
    rw [h.addr]
    apply sendGet_spec otherEnv h.room h.found hLive
    refine ⟨chunk.fetched 0, ?_, hCounts⟩
    simp [Node.fetch]
  have hScan :
      wp (getAllTheThingz otherEnv)
        (fun _ m => ∃ chunk,
          .sendGet 0 chunk ∈ m.trace ∧ chunk.totalData ≠ 0)
        (fun _ _ => False) n := by
    unfold getAllTheThingz
    rw [wp_bind, wp_get, h.download]
    simp [scanChunks, h.room, wp_derefChunk, hLive, hFree,
      hKnown.2.1, hKnown.1, scanPeers, isBad, h.good, h.idle]
    exact hSent
  unfold Node.step handle Node.exec
  simp only [h.running, Option.isSome_none,
    Bool.false_eq_true, if_false]
  unfold wp at hScan
  cases hResult : getAllTheThingz otherEnv n with
  | ok _ m =>
      rw [hResult] at hScan
      exact hScan
  | error f m =>
      rw [hResult] at hScan
      exact hScan.elim

/- DATA for a chunk that is free again is dropped. -/
theorem LeftOver.packets
    (h : LeftOver n)
    (packets : List Packet) :
    foldSteps (Node.step otherEnv) n
        (packets.map (.data ⟨1, 1⟩)) = n := by
  have hNone : FetchNone n.config ⟨1, 1⟩ 0 :=
    ⟨h.found, h.free⟩
  induction packets with
  | nil => rfl
  | cons packet packets ih =>
      rw [List.map_cons, foldSteps, List.foldl_cons,
        hNone.step]
      exact ih

/- Packets of the chunk, and all of them are stored. -/
theorem LoneFetch.packets
    {packets : List Packet}
    (h : LoneFetch slots n)
    (hPackets :
      ∀ packet ∈ packets,
        packet ∈ numbered 1 (chunkParts zeroChunk)) :
    (∃ slots',
      LoneFetch slots'
          (foldSteps (Node.step otherEnv) n
            (packets.map (.data ⟨1, 1⟩))) ∧
        (∀ i, (content slots i).isSome →
          (content slots' i).isSome) ∧
        ∀ packet ∈ packets,
          (content slots' packet.slot).isSome) ∨
    LeftOver
      (foldSteps (Node.step otherEnv) n
        (packets.map (.data ⟨1, 1⟩))) := by
  induction packets generalizing n slots with
  | nil => exact .inl ⟨slots, h, fun _ hi => hi, by simp⟩
  | cons packet packets ih =>
      rw [List.forall_mem_cons] at hPackets
      rcases h.step hPackets.1 with hNext | hLeft
      · rcases ih hNext hPackets.2 with
          ⟨slots', hLast, hKept, hStored⟩ | hLeft
        · refine .inl ⟨slots', hLast, ?_, ?_⟩
          · intro i hi
            rcases Option.isSome_iff_exists.mp hi with
              ⟨part, hPart⟩
            apply hKept
            unfold putPacket
            rw [content_put_of_content hPart]
            rfl
          · intro packet' hMem
            rcases List.mem_cons.mp hMem with rfl | hRest
            · exact hKept _ (content_put_self _ _ _)
            · exact hStored packet' hRest
        · exact .inr hLeft
      · right
        have hStays := hLeft.packets packets
        rw [List.map_cons, foldSteps, List.foldl_cons]
        rw [foldSteps] at hStays
        rw [hStays]
        exact hLeft

end

/- A user GET, an announcement and a scan. -/
def otherAsked : Node :=
  foldSteps (Node.step otherEnv) oneChunkNode
    [.userGet [4] [3], .ihave ⟨1, 1⟩ oneChunkIhave,
      .getAllTheThingz]

theorem otherAsked_fetch :
    LoneFetch [] otherAsked := by
  have hChunk :
      (otherAsked.config.chunk 0).map
          (fun chunk =>
            (chunk.peer, chunk.packets, chunk.totalData,
              chunk.nextExpected)) =
        some (some 0, .live [], 0, 1) := by
    decide
  have hKnown :
      (otherAsked.config.chunk 0).map
          (fun chunk =>
            (chunk.peers, chunk.downloaded, chunk.hash)) =
        some ([0], false, Vector.replicate 20 0) := by
    decide
  rcases Option.map_eq_some_iff.mp hChunk with
    ⟨chunk, hLive, hFields⟩
  rw [hLive, Option.map_some, Option.some.injEq] at hKnown
  simp only [Prod.mk.injEq] at hFields hKnown
  have hMissing :
      ([] : List (Option Bytes)) ≠
        (chunkParts zeroChunk).map some := by
    intro hFull
    have hLength := congrArg List.length hFull
    rw [List.length_map, length_chunkParts] at hLength
    cases hLength
  refine ⟨⟨?_, ?_, ?_, ?_, ?_, ?_, ?_, chunk, hLive,
    hKnown⟩, ⟨⟨?_, ?_⟩, chunk, hLive, hFields.1,
    hFields.2.1, hFields.2.2.1, hFields.2.2.2⟩, .nil _,
    hMissing⟩
  · decide
  · decide
  · decide
  · decide
  · decide
  · decide
  · decide
  · decide
  · decide

/- All packets of the chunk have come. -/
def otherLeft : Node :=
  foldSteps (Node.step otherEnv) otherAsked
    ((dataPackets zeroChunk btChunkSize).map
      (.data ⟨1, 1⟩))

theorem otherLeft_leftOver :
    LeftOver otherLeft := by
  have hPackets :
      ∀ packet ∈ dataPackets zeroChunk btChunkSize,
        packet ∈ numbered 1 (chunkParts zeroChunk) := by
    rw [dataPackets_eq zeroChunk_length.ge]
    exact fun _ h => h
  rcases otherAsked_fetch.packets hPackets with
    ⟨slots, hStill, _, hStored⟩ | hLeft
  · rcases missing_packet zeroChunk_length hStill.fits
        hStill.missing with
      ⟨packet, hPacket, hNone⟩
    have hSome := hStored packet hPacket
    rw [hNone] at hSome
    cases hSome
  · exact hLeft

/-
  The chunk had another hash; after another scan, the second
  attempt starts with the bytes of the first one counted.
-/
theorem restart_keeps_count :
    ¬ ∀ (env : Env) (n₀ n : Node),
      Configured n₀ →
        Reaches (Node.step env) (fun _ _ => True) n₀ n →
          FreshStarts n.trace := by
  intro hClaim
  have hAsked :
      Reaches (Node.step otherEnv) (fun _ _ => True)
        oneChunkNode otherAsked :=
    reaches_free _ _
  have hLeft :
      Reaches (Node.step otherEnv) (fun _ _ => True)
        oneChunkNode otherLeft :=
    hAsked.trans (reaches_free _ _)
  have hFresh :=
    hClaim otherEnv oneChunkNode _ oneChunkNode_configured
      (.step .getAllTheThingz hLeft trivial)
  rcases otherLeft_leftOver.scan with ⟨chunk, hMem, hCounts⟩
  exact hCounts (hFresh 0 chunk hMem).totalData

end PeerNet
