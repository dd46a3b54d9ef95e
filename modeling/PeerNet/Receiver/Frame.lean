import PeerNet.Receiver.Closed

/-
  The receiving side leaves the sending side alone.

  Whatever a user GET, a scan, a timeout check, an IHAVE or
  DATA does, and wherever it stops, the uploads and the
  peers' ids and addresses are as before.

  DATA does not change what a chunk is known by either.

  Main declarations:
    * `SameSending`
    * `sameSending_step`
    * `SameItems.data`
-/

------------------------------------------------------------
-- What the Sending Side Looks At
------------------------------------------------------------

namespace PeerNet

/- The same uploads and the same directory of peers. -/
structure SameSending
    (c c' : BtConfig) : Prop where
  upload : c'.upload = c.upload
  peers : c'.peers = c.peers
  id : ∀ p, (c'.peer p).id = (c.peer p).id
  addr : ∀ p, (c'.peer p).addr = (c.peer p).addr

theorem SameSending.refl
    (c : BtConfig) :
    SameSending c c :=
  ⟨rfl, rfl, fun _ => rfl, fun _ => rfl⟩

theorem SameSending.trans
    {c c' c'' : BtConfig}
    (h : SameSending c c')
    (h' : SameSending c' c'') :
    SameSending c c'' where
  upload := h'.upload.trans h.upload
  peers := h'.peers.trans h.peers
  id := fun p => (h'.id p).trans (h.id p)
  addr := fun p => (h'.addr p).trans (h.addr p)

/- An update of one entry that keeps its id and address. -/
theorem SameSending.setPeer
    (p : PeerRef)
    (f : BtPeer → BtPeer)
    (c : BtConfig)
    (hId : ∀ peer, (f peer).id = peer.id)
    (hAddr : ∀ peer, (f peer).addr = peer.addr) :
    SameSending c (c.setPeer p f) where
  upload := rfl
  peers := rfl
  id := by
    intro q
    by_cases hq : q = p
    · subst hq
      simp [hId]
    · simp [hq]
  addr := by
    intro q
    by_cases hq : q = p
    · subst hq
      simp [hAddr]
    · simp [hq]

theorem SameSending.setChunk
    (r : ChunkRef)
    (f : BtChunk → BtChunk)
    (c : BtConfig) :
    SameSending c (c.setChunk r f) :=
  ⟨rfl, rfl, fun _ => rfl, fun _ => rfl⟩

section

variable {env : Env} {call : Call} {n m : Node}
variable {c : BtConfig}

/- Items are added to the receiving side. -/
theorem SameSending.load
    (chunkfile outputfile : Path)
    (items : List Item)
    (c : BtConfig) :
    SameSending c (c.load chunkfile outputfile items) := by
  have hStart :
      SameSending c (c.startGet chunkfile outputfile) := by
    refine ⟨rfl, rfl, fun p => ?_, fun p => ?_⟩
    · by_cases hp : p ∈ c.peers <;>
        simp [hp, BtConfig.resetPeer]
    · by_cases hp : p ∈ c.peers <;>
        simp [hp, BtConfig.resetPeer]
  have hAdd :
      ∀ (items : List Item) (c : BtConfig),
        SameSending c
          (items.foldl BtConfig.addItem c) := by
    intro items
    induction items with
    | nil => exact SameSending.refl
    | cons item items ih =>
        intro c
        have hOne : SameSending c (c.addItem item) :=
          ⟨rfl, rfl, fun _ => rfl, fun _ => rfl⟩
        exact hOne.trans (ih _)
  exact hStart.trans (hAdd items _)

theorem SameSending.move
    (hMove : Move env call n m) :
    SameSending n.config m.config := by
  cases hMove with
  | get hGet =>
      cases hGet with
      | _ => exact ⟨rfl, rfl, fun _ => rfl, fun _ => rfl⟩
  | counted _ cur _ _ =>
      change SameSending _ (n.config.countTimeout cur)
      apply SameSending.setPeer
      · exact fun _ => rfl
      · exact fun _ => rfl
  | gaveUp _ cur r chunk packets now _ _ _ _ =>
      change
        SameSending _ (n.config.giveUp cur r packets now)
      apply (SameSending.setChunk r _ n.config).trans
      apply SameSending.setPeer
      · exact fun _ => rfl
      · exact fun _ => rfl
  | fetched _ p q r chunk _ _ _ _ _ _ _ =>
      have hRaised :
          SameSending n.config n.config.raiseMaxConn :=
        ⟨rfl, rfl, fun _ => rfl, fun _ => rfl⟩
      apply hRaised.trans
      apply SameSending.trans _
        (SameSending.setChunk r _ _)
      apply SameSending.setPeer
      · exact fun _ => rfl
      · exact fun _ => rfl
  | cleared _ p _ =>
      change SameSending _ (n.config.clearBad p)
      apply SameSending.setPeer
      · exact fun _ => rfl
      · exact fun _ => rfl
  | announced _ r p _ _ => exact SameSending.setChunk r _ _
  | loaded _ chunkfile outputfile items _ _ =>
      exact SameSending.load chunkfile outputfile items _
  | _ => exact ⟨rfl, rfl, fun _ => rfl, fun _ => rfl⟩

theorem SameSending.heard
    (env : Env)
    (p : PeerRef)
    (n : Node) :
    SameSending n.config (n.heard env p).config := by
  change
    SameSending _
      (n.config.heardData p (env.clock n.reads))
  apply SameSending.setPeer
  · exact fun _ => rfl
  · exact fun _ => rfl

theorem SameSending.filled
    (packet : Packet)
    (p q : PeerRef)
    (r : ChunkRef)
    (chunk : BtChunk)
    (nodes : List BtPacket) :
    SameSending n.config
      (n.filled env packet p q r chunk nodes).config := by
  have hPeer :=
    SameSending.setPeer q
      (fun peer =>
        { peer with
          downloading := false
          lastResponse := -1
          chunk := none })
      ((n.heard env p).keep r
        (chunk.take nodes packet)).config
      (fun _ => rfl) (fun _ => rfl)
  exact ((SameSending.heard env p n).trans
    (.setChunk r (fun _ => chunk.take nodes packet) _)).trans
    ⟨rfl, rfl, hPeer.id, hPeer.addr⟩

theorem SameSending.recorded
    (r : ChunkRef)
    (id : Int)
    (hash : Hash)
    (n : Node) :
    SameSending n.config (n.recorded r id hash).config :=
  ⟨rfl, rfl, fun _ => rfl, fun _ => rfl⟩

theorem SameSending.data
    {src : Addr}
    {packet : Packet}
    {ack : Option Int}
    {counted : Bool}
    (hStep : DataStep env src packet n ack counted m) :
    SameSending n.config m.config := by
  cases hStep with
  | ignored _ => exact .refl _
  | refused p _ _ _ => exact .heard env p n
  | stored p r chunk nodes _ _ =>
      exact (SameSending.heard env p n).trans
        (.setChunk r _ _)
  | stopped p q r chunk nodes g f _ _ =>
      exact .filled packet p q r chunk nodes
  | rejected p q r chunk nodes _ _ =>
      exact .filled packet p q r chunk nodes
  | unrecorded p q r chunk nodes _ _ _ =>
      exact .filled packet p q r chunk nodes
  | recorded p q r chunk nodes id _ _ _ _ =>
      exact (SameSending.filled packet p q r chunk
        nodes).trans (.recorded r id chunk.hash _)

/- The process's sending side is that of `c`. -/
def SendingOf
    (c : BtConfig)
    (n : Node) : Prop :=
  SameSending c n.config

theorem sendingOf_closed :
    Closed env call (SendingOf c) where
  move := fun _ _ h hMove =>
    SameSending.trans h (.move hMove)
  load := fun _ chunkfile outputfile items _ _ h =>
    SameSending.trans h (.load chunkfile outputfile items _)
  raise := fun _ h => ⟨h.upload, h.peers, h.id, h.addr⟩
  halt := fun _ _ h => h

/- An event of the receiving side changes no upload. -/
theorem sameSending_step
    (env : Env)
    (n : Node)
    {e : NodeEvent}
    (hReceives : e.receives) :
    SameSending n.config (n.step env e).config := by
  apply (sendingOf_closed (c := n.config)).step hReceives
  · rintro src packet rfl
    cases hRun : n.fault with
    | some f =>
        rw [step_of_fault _ _ hRun]
        exact .refl _
    | none =>
    rcases step_data_cases env src packet hRun with
      hData | ⟨f, m, hLost, hEnd⟩
    · have hClosed :
          Closed env .ihave (SendingOf n.config) :=
        sendingOf_closed
      exact hClosed.dataRun (fun _ _ h => h)
        (fun _ _ _ hStep => SameSending.data hStep) hData
    · rw [hEnd]
      rcases hLost with
        ⟨p, r, _, _, rfl⟩ |
        ⟨p, r, chunk, nodes, _, _, rfl⟩
      · exact SameSending.heard env p n
      · exact (SameSending.heard env p n).trans
          (.setChunk r (fun _ => chunk.take nodes packet) _)
  · exact SameSending.refl n.config

end

end PeerNet

------------------------------------------------------------
-- What Chunks Are Known By
------------------------------------------------------------

namespace PeerNet

/- The item of the chunk file that a chunk stands for. -/
def BtChunk.item
    (chunk : BtChunk) : Int × Hash :=
  (chunk.id, chunk.hash)

/- The hash of a chunk that is there. -/
def BtConfig.hashOf
    (c : BtConfig)
    (r : ChunkRef) : Option Hash :=
  (c.chunk r).map BtChunk.hash

/- The same chunks, known by the same hashes. -/
def SameHashes
    (c c' : BtConfig) : Prop :=
  ∀ r, c'.hashOf r = c.hashOf r

/- The same chunks, and each stands for the same item. -/
def SameItems
    (c c' : BtConfig) : Prop :=
  ∀ r, (c'.chunk r).map BtChunk.item =
    (c.chunk r).map BtChunk.item

theorem SameItems.refl
    (c : BtConfig) :
    SameItems c c :=
  fun _ => rfl

theorem SameItems.trans
    {c c' c'' : BtConfig}
    (h : SameItems c c')
    (h' : SameItems c' c'') :
    SameItems c c'' :=
  fun r => (h' r).trans (h r)

theorem SameItems.hashes
    {c c' : BtConfig}
    (h : SameItems c c') :
    SameHashes c c' := by
  intro r
  have hItem := congrArg (Option.map Prod.snd) (h r)
  rwa [Option.map_map, Option.map_map] at hItem

/- So a list of the same nodes has the same items. -/
theorem SameItems.downloadChunks
    {c c' : BtConfig}
    (h : SameItems c c')
    (hList : c'.download = c.download) :
    (downloadChunks c').map BtChunk.item =
      (downloadChunks c).map BtChunk.item := by
  unfold PeerNet.downloadChunks
  rw [List.map_filterMap, List.map_filterMap, hList]
  exact List.filterMap_congr fun r _ => h r

theorem SameItems.setChunk
    {c : BtConfig}
    (r : ChunkRef)
    (f : BtChunk → BtChunk)
    (hSame : ∀ chunk, c.chunk r = some chunk →
      (f chunk).item = chunk.item) :
    SameItems c (c.setChunk r f) := by
  intro s
  by_cases hIs : s = r
  · subst hIs
    cases hLive : c.chunk s with
    | none => simp [hLive]
    | some chunk => simp [hLive, hSame chunk hLive]
  · simp [hIs]

/- The same, where one chunk was updated. -/
theorem SameItems.ofChunk
    {c c' : BtConfig}
    (r : ChunkRef)
    (f : BtChunk → BtChunk)
    (hChunk : c'.chunk = (c.setChunk r f).chunk)
    (hSame : ∀ chunk, (f chunk).item = chunk.item) :
    SameItems c c' := by
  intro s
  rw [hChunk]
  exact SameItems.setChunk r f (fun chunk _ => hSame chunk) s

section

variable {env : Env} {n m : Node} {src : Addr}
variable {packet : Packet} {p q : PeerRef} {r : ChunkRef}
variable {chunk : BtChunk} {nodes : List BtPacket}

theorem SameItems.stored
    (hTaking :
      Taking n.config src packet p r chunk nodes) :
    SameItems n.config
      ((n.heard env p).keep r
        (chunk.take nodes packet)).config := by
  apply SameItems.setChunk
  intro chunk' hLive
  have hSame : chunk = chunk' :=
    Option.some.inj (hTaking.live.symm.trans hLive)
  rw [← hSame]
  unfold BtChunk.item
  rw [BtChunk.take_id, BtChunk.take_hash]

theorem SameItems.filled
    (hFilling :
      Filling n.config src packet p q r chunk nodes) :
    SameItems n.config
      (n.filled env packet p q r chunk nodes).config := by
  apply (SameItems.stored hFilling.toTaking).trans
  have hFreed :
      SameItems
        ((n.heard env p).keep r
          (chunk.take nodes packet)).config
        (((n.heard env p).keep r
          (chunk.take nodes packet)).config.setChunk r
            fun chunk => { chunk with peer := none }) :=
    .setChunk r _ fun _ _ => rfl
  exact hFreed

theorem SameItems.recorded
    (r : ChunkRef)
    (id : Int)
    (hash : Hash)
    (n : Node) :
    SameItems n.config (n.recorded r id hash).config := by
  have hMarked :
      SameItems n.config
        (n.config.setChunk r fun chunk =>
          { chunk with downloaded := true }) :=
    .setChunk r _ fun _ _ => rfl
  exact hMarked

/- DATA changes no item. -/
theorem SameItems.data
    {ack : Option Int}
    {counted : Bool}
    (hStep : DataStep env src packet n ack counted m) :
    SameItems n.config m.config := by
  cases hStep with
  | ignored _ => exact .refl _
  | refused p r _ _ => exact .refl _
  | stored p r chunk nodes hTaking _ => exact .stored hTaking
  | stopped p q r chunk nodes g f hFilling _ =>
      exact .filled hFilling
  | rejected p q r chunk nodes hFilling _ =>
      exact .filled hFilling
  | unrecorded p q r chunk nodes hFilling _ _ =>
      exact .filled hFilling
  | recorded p q r chunk nodes id hFilling _ _ _ =>
      exact (SameItems.filled hFilling).trans
        (.recorded r id chunk.hash _)

end

end PeerNet
