import PeerNet.Receiver.Closed
import PeerNet.Receiver.FinishGet
import PeerNet.Receiver.Links
import PeerNet.Wire.Flood

/-
  One user GET after the other.

  `process_user_get` resets the counters and appends to the
  list that is there, so a GET counts its chunks right only
  where the one before left no list. A `finish_get` that
  returns early leaves it.

  Main declarations:
    * `ListCounted`
    * `Fetcher`
    * `CleanStep`
    * `gets_end_clean`
-/

------------------------------------------------------------
-- The List and Its Counters
------------------------------------------------------------

namespace PeerNet

/- `download_tail`: what `add_receiver_list` appends to. -/
def BtConfig.downloadTail
    (c : BtConfig) : Option ChunkRef :=
  c.download.getLast?

/- `num_chunks` and `num_downloaded` count the list. -/
structure ListCounted
    (c : BtConfig) : Prop where
  nodes : c.numChunks = c.download.length
  live : (downloadChunks c).length = c.download.length
  numDownloaded :
    c.numDownloaded =
      (downloadChunks c).countP BtChunk.downloaded

/- The node that `add_receiver_list` makes. -/
def Item.chunk
    (item : Item) : BtChunk where
  id := item.id
  hash := item.hash
  nextExpected := initSeqnum
  downloaded := item.owned
  totalData := if item.owned then btChunkSize else 0
  peer := none
  peers := []
  packets := .live []

section

variable {c : BtConfig}

theorem downloadChunks_addItem
    (hFresh : c.nextChunk ∉ c.download)
    (item : Item) :
    downloadChunks (c.addItem item) =
      downloadChunks c ++ [item.chunk] := by
  have hOld :
      c.download.filterMap (c.addItem item).chunk =
        c.download.filterMap c.chunk := by
    apply List.filterMap_congr
    intro r hr
    apply Function.update_of_ne
    rintro rfl
    exact hFresh hr
  have hNew :
      (c.addItem item).chunk c.nextChunk =
        some item.chunk :=
    Function.update_self ..
  unfold downloadChunks
  change (c.download ++ [c.nextChunk]).filterMap _ = _
  rw [List.filterMap_append, hOld]
  simp [hNew]

theorem ListCounted.addItem
    (h : ListCounted c)
    (hFresh : c.nextChunk ∉ c.download)
    (item : Item) :
    ListCounted (c.addItem item) where
  nodes := by
    simp [BtConfig.addItem, h.nodes]
  live := by
    rw [downloadChunks_addItem hFresh, List.length_append,
      h.live]
    simp [BtConfig.addItem]
  numDownloaded := by
    rw [downloadChunks_addItem hFresh, List.countP_append]
    by_cases hOwned : item.owned = true
    · simp [BtConfig.addItem, Item.chunk, hOwned,
        h.numDownloaded]
    · simp [BtConfig.addItem, Item.chunk, hOwned,
        h.numDownloaded]

/- A chunk file that is read into an empty list is counted. -/
theorem counted_load
    (hNone : c.download = [])
    (chunkfile outputfile : Path)
    (items : List Item) :
    ListCounted (c.load chunkfile outputfile items) := by
  have hItems :
      ∀ (items : List Item) (c : BtConfig), ListCounted c →
        (∀ r ∈ c.download, r < c.nextChunk) →
          ListCounted (items.foldl BtConfig.addItem c) := by
    intro items
    induction items with
    | nil => exact fun _ h _ => h
    | cons item items ih =>
        intro c h hFresh
        apply ih (c.addItem item)
        · exact h.addItem
            (fun hMem => Nat.lt_irrefl _ (hFresh _ hMem)) item
        · intro r hr
          have hNext :
              (c.addItem item).nextChunk = c.nextChunk + 1 :=
            rfl
          rw [hNext]
          rcases List.mem_append.mp hr with hOld | hNew
          · exact Nat.lt_succ_of_lt (hFresh r hOld)
          · rw [List.mem_singleton.mp hNew]
            exact Nat.lt_succ_self _
  apply hItems
  · constructor
    · simp [hNone]
    · simp [downloadChunks, hNone]
    · simp [downloadChunks, hNone]
  · simp [hNone]

/-
  `send_whohas` copies `num_chunks` hashes into its buffer,
  and they fill it.
-/
structure FillsWhohas
    (env : Env)
    (c : BtConfig) : Prop where
  hashes : ((downloadHashes c).length : Int) = c.numChunks
  copied :
    (whohasPacket env c).buf =
      listing (UInt8.ofInt c.numChunks) (downloadHashes c)
  size :
    ((whohasPacket env c).buf.length : Int) =
      4 + 20 * c.numChunks

theorem ListCounted.fillsWhohas
    (h : ListCounted c)
    (env : Env) :
    FillsWhohas env c := by
  have hCount : c.numChunks = (downloadChunks c).length := by
    rw [h.live, h.nodes]
  have hBuf :
      (whohasPacket env c).buf =
        listing (UInt8.ofInt (downloadChunks c).length)
          (downloadHashes c) :=
    whohasPacket_buf hCount
  rw [← hCount] at hBuf
  refine ⟨?_, hBuf, ?_⟩
  · rw [length_downloadHashes, hCount]
  · rw [hBuf, length_listing, length_downloadHashes, hCount]
    push_cast
    rfl

end

end PeerNet

------------------------------------------------------------
-- Calls That Leave the List Alone
------------------------------------------------------------

namespace PeerNet

open Prog

/- The list is the same, and `finish_get` was not entered. -/
structure Still
    (n m : Node) : Prop where
  download : m.config.download = n.config.download
  numChunks : m.config.numChunks = n.config.numChunks
  finishes : finishes m.trace = finishes n.trace
  fault : m.fault = n.fault

/- `num_chunks` counts the list, if there is one. -/
def Sized
    (c : BtConfig) : Prop :=
  c.download = [] ∨ c.numChunks = c.download.length

/- The call leaves the list alone, and `send_whohas` fits. -/
def Stays
    {α : Type}
    (n : Node)
    (x : Prog α) : Prop :=
  wp x (fun _ m => Still n m)
    (fun f _ => f ≠ .whohasOverflow) n

section

variable {n m k : Node} {α : Type}

theorem Still.refl
    (n : Node) :
    Still n n :=
  ⟨rfl, rfl, rfl, rfl⟩

theorem Still.trans
    (h : Still n m)
    (h' : Still m k) :
    Still n k where
  download := h'.download.trans h.download
  numChunks := h'.numChunks.trans h.numChunks
  finishes := h'.finishes.trans h.finishes
  fault := h'.fault.trans h.fault

theorem Still.sized
    (h : Still n m)
    (hSized : Sized n.config) :
    Sized m.config := by
  unfold Sized
  rw [h.download, h.numChunks]
  exact hSized

/- A call in the middle of another. -/
theorem Stays.nested
    {x : Prog α}
    {Q : α → Node → Prop}
    (hx : Stays m x)
    (hBefore : Still n m)
    (hNext : ∀ a k, Still n k → Q a k) :
    wp x Q (fun f _ => f ≠ .whohasOverflow) m := by
  apply wp_mono hx
  · exact fun a k hk => hNext a k (hBefore.trans hk)
  · exact fun _ _ h => h

/- The other faults of a call are not the overflow. -/
theorem Local.notFlood
    {x : Except Fault α}
    (h : Local x)
    {f : Fault}
    (hFault : x = .error f) :
    f ≠ .whohasOverflow := by
  rintro rfl
  exact absurd (h _ hFault) nofun

theorem timeoutPeer_stays
    (env : Env)
    (curTime : Int)
    (cur : PeerRef)
    (n : Node) :
    Stays n (timeoutPeer env curTime cur) := by
  unfold Stays timeoutPeer
  rw [wp_bind, wp_get, wp_ite]
  refine ⟨fun _ => ?_, fun _ => .refl n⟩
  rw [wp_bind, wp_modify, wp_ite]
  refine ⟨fun _ => ?_, fun _ => ⟨rfl, rfl, rfl, rfl⟩⟩
  rw [wp_bind, wp_timeMillis]
  cases (n.config.peer cur).chunk with
  | none => exact nofun
  | some r =>
      dsimp only
      rw [wp_bind, wp_derefChunk]
      refine ⟨fun _ => nofun, fun chunk _ => ?_⟩
      rw [wp_bind, wp_lift]
      constructor
      · exact fun packets _ => ⟨rfl, rfl, rfl, rfl⟩
      · intro f hFault
        exact (local_delPacketList _).notFlood hFault

theorem timeoutCheck_stays
    (env : Env)
    (n : Node) :
    Stays n (timeoutCheck env) := by
  unfold Stays timeoutCheck
  rw [wp_bind, wp_get, wp_ite]
  refine ⟨fun _ => ?_, fun _ => .refl n⟩
  rw [wp_bind, wp_timeMillis]
  apply wp_forM (I := Still n)
  · intro cur _ m hm
    exact (timeoutPeer_stays env _ cur m).nested hm
      fun _ _ hk => hk
  · exact ⟨rfl, rfl, rfl, rfl⟩

/- `send_whohas` notes when it was called. -/
theorem sendWhohas_noted
    (env : Env)
    (hSized : Sized n.config) :
    wp (sendWhohas env)
      (fun _ m => Still n m ∧ ∃ now,
        m.config = { n.config with lastWhohas := now })
      (fun f _ => f ≠ .whohasOverflow) n := by
  unfold sendWhohas
  rw [wp_bind, wp_get]
  dsimp only
  rw [wp_ite]
  refine ⟨fun _ => ⟨.refl n, _, rfl⟩, fun hSome => ?_⟩
  rw [wp_bind, wp_timeMillis, wp_ite]
  refine ⟨fun _ => ⟨⟨rfl, rfl, rfl, rfl⟩, _, rfl⟩,
    fun _ => ?_⟩
  rw [wp_bind, wp_timeMillis, wp_bind, wp_modify, wp_ite]
  constructor
  · intro hShort
    have hFew :
        (downloadChunks n.config).length ≤
          n.config.download.length :=
      List.length_filterMap_le _ _
    rcases hSized with hNone | hCount
    · exact absurd hNone hSome
    · omega
  · intro _
    rw [wp_bind]
    apply wp_forM
      (I := fun m => Still n m ∧ ∃ now,
        m.config = { n.config with lastWhohas := now })
    · rintro peer _ m ⟨hm, hNoted⟩
      rw [wp_ite]
      refine ⟨fun _ => ?_, fun _ => ⟨hm, hNoted⟩⟩
      apply wp_packetNew
      · exact fun _ =>
          ⟨hm.trans ⟨rfl, rfl, rfl, rfl⟩, hNoted⟩
      · exact nofun
      · exact nofun
    · exact ⟨⟨rfl, rfl, rfl, rfl⟩, _, rfl⟩

theorem sendGet_stays
    (env : Env)
    (dest : Addr)
    (r : ChunkRef)
    (n : Node) :
    Stays n (sendGet env dest r) := by
  unfold Stays sendGet
  rw [wp_bind, wp_get]
  dsimp only
  rw [wp_ite]
  refine ⟨fun _ => .refl n, fun _ => ?_⟩
  rw [wp_bind, wp_modify]
  cases peerWithAddr dest n.config with
  | none => simp
  | some p =>
      dsimp only
      rw [wp_bind, wp_timeMillis, wp_bind, wp_modify,
        wp_bind, wp_derefChunk]
      refine ⟨fun _ => by simp, fun chunk _ => ?_⟩
      rw [wp_bind, wp_modify, wp_bind]
      apply wp_packetNew
      · intro payload
        refine ⟨rfl, rfl, ?_, rfl⟩
        simp [finishes, Node.push]
      · simp
      · simp

theorem scanPeers_stays
    (env : Env)
    (r : ChunkRef)
    (ps : List PeerRef)
    (allBad : Bool)
    (n : Node) :
    Stays n (scanPeers env r ps allBad) := by
  induction ps generalizing n allBad with
  | nil => exact .refl n
  | cons p ps ih =>
      have hTick : ∀ m : Node, Still m m.tick :=
        fun m => ⟨rfl, rfl, rfl, rfl⟩
      have hSend :
          ∀ (dest : Addr) (b : Bool) (m : Node),
            Still n m →
            wp
              (do
                let _ ← sendGet env dest r
                return b)
              (fun _ m => Still n m)
              (fun f _ => f ≠ .whohasOverflow) m := by
        intro dest b m hm
        rw [wp_bind]
        exact (sendGet_stays env dest r m).nested hm
          fun _ _ hk => hk
      have hBody :
          ∀ (b : Bool) (m : Node), Still n m →
            wp
              (if (m.config.peer p).downloading then
                scanPeers env r ps b
              else do
                let bad ← isBad env (m.config.peer p)
                if bad then
                  scanPeers env r ps b
                else
                  let _ ← sendGet env
                    (m.config.peer p).addr r
                  return b)
              (fun _ m => Still n m)
              (fun f _ => f ≠ .whohasOverflow) m := by
        intro b m hm
        have hRest := fun k (hk : Still n k) =>
          (ih b k).nested hk fun _ _ h => h
        rw [wp_ite]
        refine ⟨fun _ => hRest m hm, fun _ => ?_⟩
        rw [wp_bind]
        have hLater := hm.trans (hTick m)
        apply wp_isBad
        · intro bad
          rw [wp_ite]
          exact ⟨fun _ => hRest m hm,
            fun _ => hSend _ b m hm⟩
        · intro bad
          rw [wp_ite]
          exact ⟨fun _ => hRest m.tick hLater,
            fun _ => hSend _ b m.tick hLater⟩
      unfold Stays scanPeers
      rw [wp_bind, wp_get, wp_bind]
      apply wp_isBad
      · intro bad
        rw [wp_bind, wp_get]
        exact hBody _ n (.refl n)
      · intro bad
        rw [wp_bind, wp_get]
        exact hBody _ n.tick (hTick n)

theorem scanChunks_stays
    (env : Env)
    (rs : List ChunkRef)
    (hSized : Sized n.config) :
    Stays n (scanChunks env rs) := by
  induction rs generalizing n with
  | nil => exact .refl n
  | cons r rs ih =>
      have hRest : ∀ m, Still n m →
          wp (scanChunks env rs)
            (fun _ m => Still n m)
            (fun f _ => f ≠ .whohasOverflow) m :=
        fun m hm => (ih (hm.sized hSized)).nested hm
          fun _ _ hk => hk
      unfold Stays scanChunks
      rw [wp_bind, wp_get]
      dsimp only
      rw [wp_ite]
      refine ⟨fun _ => ?_, fun _ => .refl n⟩
      rw [wp_bind, wp_derefChunk]
      refine ⟨fun _ => by simp, fun chunk _ => ?_⟩
      by_cases hNeeded :
          chunk.downloaded = false ∧ chunk.peer = none
      · rw [if_pos hNeeded]
        simp only [wp_bind]
        have hScan :=
          scanPeers_stays env r chunk.peers true n
        refine hScan.nested (.refl n) fun allBad m hm => ?_
        rw [wp_ite]
        refine ⟨fun _ => ?_, fun _ => hRest m hm⟩
        rw [wp_bind]
        apply wp_mono
          (sendWhohas_noted env (hm.sized hSized))
        · exact fun _ k hk => hRest k (hm.trans hk.1)
        · exact fun _ _ h => h
      · rw [if_neg hNeeded]
        exact hRest n (.refl n)

theorem getAllTheThingz_stays
    (env : Env)
    (hSized : Sized n.config) :
    Stays n (getAllTheThingz env) := by
  unfold Stays getAllTheThingz
  rw [wp_bind, wp_get]
  exact scanChunks_stays env _ hSized

theorem ihaveLoop_stays
    (p : PeerRef)
    (buf : Bytes)
    (count offset : Nat)
    (datalen : Int)
    (n : Node) :
    Stays n (ihaveLoop p buf count offset datalen) := by
  induction count generalizing n offset datalen with
  | zero => exact .refl n
  | succ count ih =>
      unfold Stays ihaveLoop
      rw [wp_ite, wp_ite]
      refine ⟨fun _ => .refl n, fun _ => ?_⟩
      refine ⟨fun _ => by simp, fun _ => ?_⟩
      rw [wp_bind, wp_get]
      dsimp only
      cases n.config.download.find? fun r =>
          (n.config.chunk r).any fun chunk =>
            hashEqual (hashOfBytes (buf.drop offset))
              chunk.hash with
      | none => exact ih _ _ n
      | some r =>
          rw [wp_bind, wp_modify]
          exact (ih _ _ _).nested (n := n)
            ⟨rfl, rfl, rfl, rfl⟩ fun _ _ hk => hk

theorem processIhave_stays
    (src : Addr)
    (packet : Packet)
    (n : Node) :
    Stays n (processIhave src packet) := by
  unfold Stays processIhave
  rw [wp_bind, wp_get]
  dsimp only
  rw [wp_ite]
  refine ⟨fun _ => .refl n, fun _ => ?_⟩
  cases peerWithAddr src n.config with
  | none => exact nofun
  | some p =>
      dsimp only
      rw [wp_bind, wp_modify]
      split
      · exact nofun
      · exact (ihaveLoop_stays p _ _ _ _ _).nested (n := n)
          ⟨rfl, rfl, rfl, rfl⟩ fun _ _ hk => hk

end

end PeerNet

------------------------------------------------------------
-- Calls That May Finish a GET
------------------------------------------------------------

namespace PeerNet

open Prog

/- `finish_get` has returned, or was not entered. -/
def Goes
    (env : Env)
    (n m : Node) : Prop :=
  Still n m ∨ ∃ k, Still n k ∧ Returned env k m

section

variable {env : Env} {n m : Node}

theorem Goes.push
    (h : Goes env n m)
    (d : Datagram) :
    Goes env n (m.push d) := by
  rcases h with hStill | ⟨k, hStill, hReturned⟩
  · exact .inl (hStill.trans ⟨rfl, rfl, rfl, rfl⟩)
  · exact .inr ⟨k, hStill,
      { entered := hReturned.entered
        freed := hReturned.freed
        numChunks := hReturned.numChunks
        numDownloaded := hReturned.numDownloaded
        fault := hReturned.fault }⟩

theorem recordChunk_goes
    (env : Env)
    (r : ChunkRef)
    (hash : Hash)
    {m : Node}
    (hBefore : Still n m) :
    wp (recordChunk env r hash)
      (fun _ m => Goes env n m)
      (fun f _ => f ≠ .whohasOverflow) m := by
  unfold recordChunk
  rw [wp_bind, wp_get, wp_bind, wp_modify, wp_bind, wp_get,
    wp_bind, wp_lift]
  refine ⟨fun id _ => ?_, fun f hFault => ?_⟩
  · rw [wp_bind, wp_modify, wp_bind, wp_modify, wp_bind,
      wp_get, wp_ite]
    have hMarked := hBefore.trans
      (k := m.recorded r id hash) ⟨rfl, rfl, rfl, rfl⟩
    refine ⟨fun _ => ?_, fun _ => .inl hMarked⟩
    apply wp_mono (finishGet_returned env _)
    · exact fun _ k hk => .inr ⟨_, hMarked, hk⟩
    · exact fun _ _ h => h
  · exact (local_masterChunk _ _ _ _).notFlood hFault

theorem finishChunk_goes
    (env : Env)
    (r : ChunkRef)
    {m : Node}
    (hBefore : Still n m) :
    wp (finishChunk env r)
      (fun _ m => Goes env n m)
      (fun f _ => f ≠ .whohasOverflow) m := by
  unfold finishChunk
  rw [wp_bind, wp_derefChunk]
  refine ⟨fun _ => nofun, fun chunk _ => ?_⟩
  rw [wp_bind, wp_modify]
  generalize chunk.packets = packets
  have hEmit :
      ∀ (k : Node) (e : Event), finishes [e] = [] →
        Still n k → Still n (k.emit e) := by
    intro k e hOther hk
    refine hk.trans ⟨rfl, rfl, ?_, rfl⟩
    unfold finishes at hOther ⊢
    simp [hOther]
  have hNoted := hEmit m (.finishChunk r packets) rfl hBefore
  cases chunk.peer with
  | none => exact nofun
  | some p =>
      dsimp only
      rw [wp_bind, wp_modify]
      have hFreed := hNoted.trans
        (k := m.release p r packets) ⟨rfl, rfl, rfl, rfl⟩
      cases packets with
      | freed => exact nofun
      | live nodes =>
          dsimp only
          rw [wp_bind, wp_lift]
          refine ⟨fun buffer _ => ?_, fun f hFault => ?_⟩
          · rw [wp_ite]
            refine ⟨fun _ => ?_, fun _ => ?_⟩
            · rw [wp_bind, wp_get, wp_ite]
              exact ⟨fun _ => recordChunk_goes env r _ hFreed,
                fun _ => .inl (hEmit _ _ rfl hFreed)⟩
            · exact .inl (hEmit _ _ rfl hFreed)
          · exact (local_writeToBuffer _ _).notFlood hFault

theorem addPacket_goes
    (env : Env)
    (r : ChunkRef)
    (packet : Packet)
    {m : Node}
    (hBefore : Still n m) :
    wp (addPacket env r packet)
      (fun _ m => Goes env n m)
      (fun f _ => f ≠ .whohasOverflow) m := by
  rw [addPacket_eq]
  dsimp only
  rw [wp_bind, wp_derefChunk]
  refine ⟨fun _ => nofun, fun chunk _ => ?_⟩
  split
  · exact nofun
  · next nodes _ =>
      rw [wp_ite]
      refine ⟨fun _ => nofun, fun _ => ?_⟩
      rw [wp_bind, wp_modify, wp_ite]
      have hKept := hBefore.trans
        (k := m.keep r (chunk.take nodes packet))
        ⟨rfl, rfl, rfl, rfl⟩
      refine ⟨fun _ => ?_, fun _ => .inl hKept⟩
      rw [wp_bind]
      exact finishChunk_goes env r hKept

theorem processData_goes
    (env : Env)
    (src : Addr)
    (packet : Packet)
    (n : Node) :
    wp (processData env src packet)
      (fun _ m => Goes env n m)
      (fun f _ => f ≠ .whohasOverflow) n := by
  unfold processData
  rw [wp_bind, wp_get]
  dsimp only
  split
  · exact .inl (.refl n)
  · next p _ =>
      split
      · exact .inl (.refl n)
      · next r _ =>
          rw [wp_bind, wp_timeMillis, wp_bind, wp_modify,
            wp_ite]
          have hHeard : Still n (n.heard env p) :=
            ⟨rfl, rfl, rfl, rfl⟩
          refine ⟨fun _ => .inl hHeard, fun _ => ?_⟩
          rw [wp_bind]
          apply wp_mono (addPacket_goes env r packet hHeard)
          · intro ackNum m hm
            rw [wp_bind]
            apply wp_sendAck
            exact hm.push _
          · exact fun _ _ h => h

/- A user GET whose chunk file is there. -/
theorem processUserGet_goes
    (env : Env)
    {chunkfile : Path}
    (outputfile : Path)
    {text : Bytes}
    (hFile : n.files.content chunkfile = some text)
    (hNone : n.config.download = []) :
    wp (processUserGet env chunkfile outputfile)
      (fun _ m =>
        (ListCounted m.config ∧
            finishes m.trace = finishes n.trace ∧
              m.fault = n.fault) ∨
          ∃ k, finishes k.trace = finishes n.trace ∧
            k.fault = n.fault ∧
              k.config.numDownloaded = k.config.numChunks ∧
                Returned env k m)
      (fun f _ => f ≠ .whohasOverflow) n := by
  unfold processUserGet
  rw [wp_bind, wp_get, hFile]
  dsimp only
  rw [wp_bind, wp_modify, wp_bind]
  have hLoop :
      wp (addChunks env (text.length + 1) text
          (textBuffer env)) _ _
        (n.onConfig (BtConfig.startGet chunkfile outputfile)) :=
    addChunks_loaded env _ text _ ⟨[], by simp, rfl⟩
  apply wp_mono hLoop
  · rintro _ k ⟨items, _, rfl⟩
    have hCounted :=
      counted_load hNone chunkfile outputfile items
    rw [wp_bind]
    apply wp_mono (sendWhohas_noted env (.inr hCounted.nodes))
    · rintro _ m ⟨hStill, now, hConfig⟩
      rw [wp_bind, wp_get, wp_ite]
      constructor
      · intro hAll
        apply wp_mono (finishGet_returned env m)
        · exact fun _ k hk => .inr
            ⟨m, hStill.finishes, hStill.fault, hAll, hk⟩
        · exact fun _ _ h => h
      · intro _
        refine .inl ⟨?_, hStill.finishes, hStill.fault⟩
        rw [hConfig]
        exact ⟨hCounted.nodes, hCounted.live,
          hCounted.numDownloaded⟩
    · exact fun _ _ h => h
  · rintro f k ⟨_, hLocal⟩ rfl
    cases hLocal

end

end PeerNet


------------------------------------------------------------
-- One Step
------------------------------------------------------------

namespace PeerNet

open Prog

/- The entries to `finish_get` between two states. -/
def entries
    (n m : Node) : List (BtConfig × Files) :=
  (finishes m.trace).drop (finishes n.trace).length

/- A user GET whose chunk file opens. -/
def NodeEvent.begins
    (files : Files) : NodeEvent → Bool
| .userGet chunkfile _ => (files.content chunkfile).isSome
| _ => false

/- The calls that `send_whohas` is called in. -/
def NodeEvent.floods :
    NodeEvent → Bool
| .userGet _ _ => true
| .getAllTheThingz => true
| _ => false

/- How a call ends that does not stop at a fault. -/
inductive Course
    (env : Env)
    (begins : Bool)
    (n m : Node) : Prop
| still :
    begins = false →
    Still n m →
    Course env begins n m
| loaded :
    begins = true →
    ListCounted m.config →
    finishes m.trace = finishes n.trace →
    m.fault = n.fault →
    Course env begins n m
| finished (k : Node) :
    finishes k.trace = finishes n.trace →
    k.fault = n.fault →
    (begins = true →
      k.config.numDownloaded = k.config.numChunks) →
    Returned env k m →
    Course env begins n m

section

variable {env : Env} {begins : Bool} {n m : Node}
variable {e : NodeEvent}

theorem Course.fault
    (h : Course env begins n m) :
    m.fault = n.fault := by
  cases h with
  | still _ hStill => exact hStill.fault
  | loaded _ _ _ hFault => exact hFault
  | finished k _ hFault _ hReturned =>
      exact hReturned.fault.trans hFault

theorem entries_nil
    (hSame : finishes m.trace = finishes n.trace) :
    entries n m = [] := by
  unfold entries
  rw [hSame, List.drop_length]

theorem Returned.entries_eq
    {k : Node}
    (h : Returned env k m)
    (hSame : finishes k.trace = finishes n.trace) :
    entries n m = [(k.config, k.files)] := by
  unfold entries
  rw [h.entered, hSame, List.drop_left]

theorem Goes.course
    (h : Goes env n m) :
    Course env false n m := by
  rcases h with hStill | ⟨k, hStill, hReturned⟩
  · exact .still rfl hStill
  · exact .finished k hStill.finishes hStill.fault nofun
      hReturned

/- A call takes its course, or stops at another fault. -/
theorem course_of_wp
    {α : Type}
    {x : Prog α}
    (hRunning : n.fault = none)
    (hEnds :
      wp x (fun _ m => Course env begins n m)
        (fun f _ => f ≠ .whohasOverflow) n) :
    Course env begins n (n.exec x) ∨
      ∃ (f : Fault) (m : Node), n.exec x = m.halt f ∧
        f ≠ .whohasOverflow := by
  unfold Node.exec
  rw [hRunning]
  unfold wp at hEnds
  cases hEnd : x n with
  | ok a m =>
      rw [hEnd] at hEnds
      exact .inl hEnds
  | error f m =>
      rw [hEnd] at hEnds
      exact .inr ⟨f, m, rfl, hEnds⟩

theorem course_of_stays
    {α : Type}
    {x : Prog α}
    (hRunning : n.fault = none)
    (hStays : Stays n x) :
    Course env false n (n.exec x) ∨
      ∃ (f : Fault) (m : Node), n.exec x = m.halt f ∧
        f ≠ .whohasOverflow := by
  apply course_of_wp hRunning
  apply wp_mono hStays
  · exact fun _ _ hStill => .still rfl hStill
  · exact fun _ _ h => h

theorem course_of_userGet
    (env : Env)
    (chunkfile outputfile : Path)
    (hRunning : n.fault = none)
    (hNone : n.config.download = []) :
    Course env (n.files.content chunkfile).isSome n
        (n.exec (processUserGet env chunkfile outputfile)) ∨
      ∃ (f : Fault) (m : Node),
        n.exec (processUserGet env chunkfile outputfile) =
            m.halt f ∧
          f ≠ .whohasOverflow := by
  apply course_of_wp hRunning
  cases hFile : n.files.content chunkfile with
  | none =>
      unfold processUserGet
      rw [wp_bind, wp_get, hFile]
      exact .still rfl (.refl n)
  | some text =>
      apply wp_mono
        (processUserGet_goes env outputfile hFile hNone)
      · rintro _ m (⟨hCounted, hSame, hFault⟩ |
          ⟨k, hSame, hFault, hAll, hReturned⟩)
        · exact .loaded rfl hCounted hSame hFault
        · exact .finished k hSame hFault (fun _ => hAll)
            hReturned
      · exact fun _ _ h => h

/- Every event of a running process takes its course. -/
theorem step_course
    (env : Env)
    (hRunning : n.fault = none)
    (hSized : Sized n.config)
    (hNone :
      ∀ chunkfile outputfile,
        e = .userGet chunkfile outputfile →
          n.config.download = []) :
    Course env (e.begins n.files) n (n.step env e) ∨
      ∃ (f : Fault) (m : Node), n.step env e = m.halt f ∧
        (e.floods = true → f ≠ .whohasOverflow) := by
  by_cases hReceives : e.receives
  · have hEnds :
        Course env (e.begins n.files) n (n.step env e) ∨
          ∃ (f : Fault) (m : Node), n.step env e = m.halt f ∧
            f ≠ .whohasOverflow := by
      cases e with
      | userGet chunkfile outputfile =>
          exact course_of_userGet env chunkfile outputfile
            hRunning (hNone chunkfile outputfile rfl)
      | timeoutCheck =>
          exact course_of_stays hRunning
            (timeoutCheck_stays env n)
      | getAllTheThingz =>
          exact course_of_stays hRunning
            (getAllTheThingz_stays env hSized)
      | ihave src packet =>
          unfold Node.step handle
          rw [Node.exec_discard]
          exact course_of_stays hRunning
            (processIhave_stays src packet n)
      | data src packet =>
          unfold Node.step handle
          rw [Node.exec_discard]
          apply course_of_wp hRunning
          apply wp_mono (processData_goes env src packet n)
          · exact fun _ _ h => h.course
          · exact fun _ _ h => h
      | peerCc => exact hReceives.elim
      | get src packet => exact hReceives.elim
      | ack src packet => exact hReceives.elim
    exact hEnds.imp_right fun ⟨f, m, hEnd, hOther⟩ =>
      ⟨f, m, hEnd, fun _ => hOther⟩
  · have hQuiet : e.begins n.files = false := by
      cases e <;> first | rfl | exact absurd trivial hReceives
    have hOther : e.floods = false := by
      cases e <;> first | rfl | exact absurd trivial hReceives
    rw [hQuiet, hOther]
    rcases step_serves env n hReceives with
      ⟨m, ⟨_, _, _, rfl⟩, hEnd | ⟨f, hEnd⟩⟩
    · rw [hEnd]
      exact .inl (.still rfl ⟨rfl, rfl, rfl, rfl⟩)
    · exact .inr ⟨f, _, hEnd, nofun⟩

end

/-
  After `finish_get` has returned, the list is freed. After
  a user GET that is not complete yet, the counters count
  the list and a WHOHAS holds it as a whole.
-/
structure CleanStep
    (env : Env)
    (n : Node)
    (e : NodeEvent) : Prop where
  ended :
    entries n (n.step env e) ≠ [] →
      (n.step env e).fault = none →
        (n.step env e).config.download = [] ∧
          (n.step env e).config.downloadTail = none
  counted :
    e.begins n.files = true →
      (n.step env e).fault = none →
        (n.step env e).config.numDownloaded ≠
            (n.step env e).config.numChunks →
          ListCounted (n.step env e).config ∧
            FillsWhohas env (n.step env e).config
  copied :
    n.fault = none → e.floods = true →
      (n.step env e).fault ≠ some .whohasOverflow

end PeerNet

------------------------------------------------------------
-- Runs
------------------------------------------------------------

namespace PeerNet

open Runs

/-
  A process, and whether it is `getting`: its last user GET
  was not over when `finish_get` has not returned since.
-/
structure Fetcher where
  node : Node
  getting : Bool

namespace Fetcher

def step
    (env : Env)
    (s : Fetcher)
    (e : NodeEvent) : Fetcher where
  node := s.node.step env e
  getting :=
    (s.getting || e.begins s.node.files) &&
      ((entries s.node (s.node.step env e)).isEmpty ||
        (s.node.step env e).fault.isSome)

/- No GET comes before the end of the last one. -/
def OneAtATime
    (s : Fetcher) : NodeEvent → Prop
| .userGet _ _ => s.getting = false
| _ => True

/- Where the event enters `finish_get`, that completes. -/
def EndsWell
    (env : Env)
    (s : Fetcher)
    (e : NodeEvent) : Prop :=
  ∀ entry ∈ entries s.node (s.node.step env e),
    RunsThrough env entry.1 entry.2

/- What a running process has between two events. -/
def Settled
    (s : Fetcher) : Prop :=
  s.node.fault = none →
    (s.getting = false → s.node.config.download = []) ∧
      Sized s.node.config

variable {env : Env} {s s₀ : Fetcher} {e : NodeEvent}

/- The courses of an event that ends well. -/
theorem settled_of_course
    (hSettled :
      (s.getting = false → s.node.config.download = []) ∧
        Sized s.node.config)
    (hWell : s.EndsWell env e)
    (hCourse :
      Course env (e.begins s.node.files) s.node
        (s.node.step env e)) :
    Settled (s.step env e) := by
  intro hRunning
  change (s.node.step env e).fault = none at hRunning
  cases hCourse with
  | still hQuiet hStill =>
      have hSame := entries_nil hStill.finishes
      refine ⟨?_, hStill.sized hSettled.2⟩
      intro hIdle
      have hBefore : s.getting = false := by
        simpa [step, hQuiet, hSame] using hIdle
      exact hStill.download.trans (hSettled.1 hBefore)
  | loaded hBegins hCounted hSame _ =>
      refine ⟨?_, .inr hCounted.nodes⟩
      intro hIdle
      simp [step, hBegins, entries_nil hSame] at hIdle
  | finished k hSame _ _ hReturned =>
      have hEntry := hReturned.entries_eq hSame
      have hNone :=
        hReturned.freed.mpr
          (hWell (k.config, k.files) (by simp [hEntry]))
      exact ⟨fun _ => hNone, .inl hNone⟩

theorem cleanStep_of_course
    (hWell : s.EndsWell env e)
    (hCourse :
      Course env (e.begins s.node.files) s.node
        (s.node.step env e)) :
    CleanStep env s.node e where
  ended := by
    intro hEntered _
    cases hCourse with
    | still _ hStill =>
        exact absurd (entries_nil hStill.finishes) hEntered
    | loaded _ _ hSame _ =>
        exact absurd (entries_nil hSame) hEntered
    | finished k hSame _ _ hReturned =>
        have hEntry := hReturned.entries_eq hSame
        have hNone :=
          hReturned.freed.mpr
            (hWell (k.config, k.files) (by simp [hEntry]))
        refine ⟨hNone, ?_⟩
        unfold BtConfig.downloadTail
        rw [hNone]
        rfl
  counted := by
    intro hBegins _ hMore
    cases hCourse with
    | still hQuiet _ =>
        rw [hBegins] at hQuiet
        cases hQuiet
    | loaded _ hCounted _ _ =>
        exact ⟨hCounted, hCounted.fillsWhohas env⟩
    | finished k _ _ hAll hReturned =>
        rw [hReturned.numDownloaded, hReturned.numChunks]
          at hMore
        exact absurd (hAll hBegins) hMore
  copied := by
    intro hRunning _
    rw [hCourse.fault, hRunning]
    nofun

/- One step, from a settled state. -/
theorem Settled.step
    (h : s.Settled)
    (hOne : s.OneAtATime e)
    (hWell : s.EndsWell env e) :
    Settled (s.step env e) ∧ CleanStep env s.node e := by
  cases hRunning : s.node.fault with
  | some f =>
      have hStep := step_of_fault env e hRunning
      have hSame : entries s.node (s.node.step env e) = [] := by
        rw [hStep]
        exact entries_nil rfl
      have hDead : (s.node.step env e).fault ≠ none := by
        rw [hStep, hRunning]
        nofun
      exact
        ⟨fun hNone => absurd hNone hDead,
          { ended := fun hEntered => absurd hSame hEntered
            counted := fun _ hNone => absurd hNone hDead
            copied := fun hNone => nomatch
              hNone.symm.trans hRunning }⟩
  | none =>
      have hSettled := h hRunning
      have hEnds :=
        step_course (e := e) env hRunning hSettled.2 (by
          rintro chunkfile outputfile rfl
          exact hSettled.1 hOne)
      rcases hEnds with hCourse | ⟨f, m, hEnd, hOther⟩
      · exact ⟨settled_of_course hSettled hWell hCourse,
          cleanStep_of_course hWell hCourse⟩
      · have hDead : (s.node.step env e).fault = some f := by
          rw [hEnd]
          rfl
        refine ⟨fun hNone => ?_, ?_⟩
        · exact nomatch hDead.symm.trans hNone
        · exact
            { ended := fun _ hNone => nomatch
                hDead.symm.trans hNone
              counted := fun _ hNone => nomatch
                hDead.symm.trans hNone
              copied := by
                intro _ hFloods
                rw [hDead]
                exact fun hIs =>
                  hOther hFloods (Option.some.inj hIs) }

end Fetcher

/-
  In every run with one GET at a time, whose calls of
  `finish_get` all complete, every GET ends clean and the
  next is counted right.
-/
theorem gets_end_clean
    {env : Env}
    {s₀ s : Fetcher}
    (hNone : s₀.node.config.download = [])
    (hRun :
      Reaches (Fetcher.step env)
        (fun s e => s.OneAtATime e ∧ s.EndsWell env e) s₀ s)
    {e : NodeEvent}
    (hOne : s.OneAtATime e)
    (hWell : s.EndsWell env e) :
    CleanStep env s.node e := by
  have hSettled : s.Settled := by
    apply hRun.invariant
    · exact fun _ => ⟨fun _ => hNone, .inl hNone⟩
    · exact fun _ _ h hAllow => (h.step hAllow.1 hAllow.2).1
  exact (hSettled.step hOne hWell).2

/- The loop of `finish_get`, run from one of its entries. -/
def loopEnds
    (env : Env)
    (entry : BtConfig × Files) : Bool :=
  entry.2.writable entry.1.outputFile &&
    match finishGetLoop env entry.1.numChunks.toNat 0
        { onePeerNode with
          config := entry.1
          files := entry.2.write entry.1.outputFile [] } with
    | .ok go _ => go
    | .error _ _ => false

theorem runsThrough_of_loopEnds
    {env : Env}
    {entry : BtConfig × Files}
    (h : loopEnds env entry = true) :
    RunsThrough env entry.1 entry.2 := by
  unfold loopEnds at h
  rw [Bool.and_eq_true] at h
  refine .inr ⟨h.1, ?_⟩
  have hLoop :=
    finishGetLoop_unbroken env entry.1.numChunks.toNat 0
      { onePeerNode with
        config := entry.1
        files := entry.2.write entry.1.outputFile [] }
  unfold Prog.wp at hLoop
  split at h
  · next go m hEnd =>
      rw [hEnd] at hLoop
      exact hLoop.2.mp h.2
  · cases h.2

/- It has the chunk, one byte of the master data file. -/
def ownedNode : Node :=
  { oneChunkNode with
    config :=
      { oneChunkNode.config with hasChunkFile := [4] }
    files :=
      { content := fun path =>
          if path = [1] then some masterText
          else if path = [4] then some oneChunkText
          else if path = [68] then some [0]
          else none
        writable := fun _ => true } }

/- A GET of the chunk enters `finish_get`, and ends clean. -/
theorem gets_end_clean_owned :
    (entries ownedNode
        (ownedNode.step stillEnv (.userGet [4] [3]))).length =
          1 ∧
      CleanStep stillEnv ownedNode (.userGet [4] [3]) := by
  have hWell :
      Fetcher.EndsWell stillEnv ⟨ownedNode, false⟩
        (.userGet [4] [3]) := by
    have hAll :
        (entries ownedNode
          (ownedNode.step stillEnv
            (.userGet [4] [3]))).all (loopEnds stillEnv) =
          true := by
      decide
    intro entry hEntry
    exact runsThrough_of_loopEnds
      (List.all_eq_true.mp hAll entry hEntry)
  exact ⟨by decide,
    gets_end_clean (s := ⟨ownedNode, false⟩) rfl .refl rfl
      hWell⟩

/- It has the chunk, and no file can be written. -/
def closedNode : Node :=
  { oneChunkNode with
    config :=
      { oneChunkNode.config with hasChunkFile := [4] }
    files :=
      { oneChunkNode.files with
        writable := fun _ => false } }

/- `finish_get` gives up, and the list stays. -/
theorem get_left_behind :
    ¬ ∀ (env : Env) (s₀ s : Fetcher) (e : NodeEvent),
      s₀.node.config.download = [] →
        Reaches (Fetcher.step env) Fetcher.OneAtATime s₀ s →
          s.OneAtATime e → CleanStep env s.node e := by
  intro hClaim
  have hClean :=
    hClaim stillEnv ⟨closedNode, false⟩ ⟨closedNode, false⟩
      (.userGet [4] [3]) rfl .refl rfl
  have hEntered :
      entries closedNode
          (closedNode.step stillEnv (.userGet [4] [3])) ≠
        [] := by
    rw [← List.length_pos_iff]
    decide
  have hNone := (hClean.ended hEntered (by decide)).1
  have hLeft :
      (closedNode.step stillEnv
        (.userGet [4] [3])).config.download = [0] := by
    decide
  rw [hLeft] at hNone
  cases hNone

end PeerNet
