import PeerNet.Receiver.Frame

/-
  A peer's chunk belongs to that peer.

  Of the two ends of a link, one is right in every state,
  also where user GETs come in the middle of a download: as
  long as the chunk a peer points to is not freed, the chunk
  points back. So DATA is lost only where its chunk is gone,
  and no two peers fetch one chunk.

  Main declarations:
    * `Owned`
    * `owned_step`
    * `Owned.step_data`
-/

------------------------------------------------------------
-- Ownership
------------------------------------------------------------

namespace PeerNet

/- The chunk a listed peer points to points back. -/
def Owned
    (c : BtConfig) : Prop :=
  ∀ p ∈ c.peers, ∀ r chunk,
    (c.peer p).chunk = some r →
      c.chunk r = some chunk → chunk.peer = some p

section

variable {env : Env} {call : Call} {n m : Node}
variable {c : BtConfig} {p q : PeerRef} {r : ChunkRef}

/- A chunk has one peer. -/
theorem Owned.unique
    (h : Owned c)
    (hp : p ∈ c.peers)
    (hq : q ∈ c.peers)
    {chunk : BtChunk}
    (hLive : c.chunk r = some chunk)
    (hpr : (c.peer p).chunk = some r)
    (hqr : (c.peer q).chunk = some r) :
    p = q :=
  Option.some.inj
    ((h p hp r chunk hpr hLive).symm.trans
      (h q hq r chunk hqr hLive))

/- A peer is updated, and points to what it pointed to. -/
theorem Owned.setPeer
    (h : Owned c)
    (p : PeerRef)
    (f : BtPeer → BtPeer)
    (hSame : ∀ peer, (f peer).chunk = peer.chunk) :
    Owned (c.setPeer p f) := by
  intro q hq r chunk hAssigned hLive
  apply h q hq r chunk _ hLive
  by_cases hIs : q = p
  · subst hIs
    simpa [hSame] using hAssigned
  · simpa [hIs] using hAssigned

/- A chunk is updated, and its peer stays. -/
theorem Owned.setChunk
    (h : Owned c)
    (r : ChunkRef)
    (f : BtChunk → BtChunk)
    (hSame : ∀ chunk, c.chunk r = some chunk →
      (f chunk).peer = chunk.peer) :
    Owned (c.setChunk r f) := by
  intro q hq s chunk hAssigned hLive
  by_cases hIs : s = r
  · subst hIs
    simp only [BtConfig.setChunk_chunk, Function.update_self,
      Option.map_eq_some_iff] at hLive
    rcases hLive with ⟨chunk', hLive', rfl⟩
    rw [hSame chunk' hLive']
    exact h q hq s chunk' hAssigned hLive'
  · simp only [BtConfig.setChunk_chunk, ne_eq, hIs,
      not_false_eq_true, Function.update_of_ne] at hLive
    exact h q hq s chunk hAssigned hLive

/- A peer and its chunk let go of each other. -/
theorem Owned.unlink
    (h : Owned c)
    (hp : p ∈ c.peers)
    (hAssigned : (c.peer p).chunk = some r)
    (f : BtPeer → BtPeer)
    (hFree : ∀ peer, (f peer).chunk = none)
    (g : BtChunk → BtChunk) :
    Owned ((c.setChunk r g).setPeer p f) := by
  intro q hq s chunk hChunk hLive
  by_cases hIs : q = p
  · subst hIs
    simp [hFree] at hChunk
  · have hOther : (c.peer q).chunk = some s := by
      simpa [hIs] using hChunk
    have hApart : s ≠ r := by
      rintro rfl
      have hSome : (c.chunk s).isSome := by
        simp only [BtConfig.setPeer_chunk,
          BtConfig.setChunk_chunk, Function.update_self]
          at hLive
        rcases Option.map_eq_some_iff.mp hLive with
          ⟨chunk', hLive', _⟩
        rw [hLive']
        rfl
      rcases Option.isSome_iff_exists.mp hSome with
        ⟨chunk', hLive'⟩
      exact hIs (h.unique hq hp hLive' hOther hAssigned)
    apply h q hq s chunk hOther
    simpa [hApart] using hLive

/- A free chunk is linked to a peer. -/
theorem Owned.link
    (h : Owned c)
    {chunk : BtChunk}
    (hLive : c.chunk r = some chunk)
    (hFree : chunk.peer = none)
    (p : PeerRef)
    (now : Int) :
    Owned (c.assign p r now) := by
  intro q hq s chunk' hChunk hLive'
  by_cases hIs : s = r
  · subst hIs
    by_cases hPeer : q = p
    · subst hPeer
      simp only [BtConfig.assign, BtConfig.setChunk_chunk,
        BtConfig.setPeer_chunk, Function.update_self, hLive,
        Option.map_some, Option.some.injEq] at hLive'
      rw [← hLive']
    · have hOther : (c.peer q).chunk = some s := by
        simpa [BtConfig.assign, hPeer] using hChunk
      have hBack := h q hq s chunk hOther hLive
      rw [hFree] at hBack
      cases hBack
  · have hOld : c.chunk s = some chunk' := by
      simpa [BtConfig.assign, hIs] using hLive'
    by_cases hPeer : q = p
    · subst hPeer
      have hTo : r = s := by
        simpa [BtConfig.assign] using hChunk
      exact absurd hTo.symm hIs
    · have hOther : (c.peer q).chunk = some s := by
        simpa [BtConfig.assign, hPeer] using hChunk
      exact h q hq s chunk' hOther hOld

/- A user GET resets the listed peers. -/
theorem load_peer
    (chunkfile outputfile : Path)
    (items : List Item)
    (c : BtConfig)
    (p : PeerRef) :
    (c.load chunkfile outputfile items).peer p =
      if p ∈ c.peers then BtConfig.resetPeer (c.peer p)
      else c.peer p := by
  have hItems :
      ∀ (items : List Item) (c : BtConfig),
        (items.foldl BtConfig.addItem c).peer = c.peer := by
    intro items
    induction items with
    | nil => exact fun _ => rfl
    | cons item items ih => exact fun c => ih (c.addItem item)
  unfold BtConfig.load
  rw [hItems]
  rfl

/- After a user GET no peer points anywhere. -/
theorem load_peer_chunk
    (chunkfile outputfile : Path)
    (items : List Item)
    (hListed : p ∈ c.peers) :
    ((c.load chunkfile outputfile items).peer p).chunk =
      none := by
  rw [load_peer, if_pos hListed]
  rfl

theorem Owned.load
    (chunkfile outputfile : Path)
    (items : List Item)
    (c : BtConfig) :
    Owned (c.load chunkfile outputfile items) := by
  intro p hp r chunk hAssigned
  rw [(SameSending.load chunkfile outputfile items c).peers]
    at hp
  rw [load_peer_chunk chunkfile outputfile items hp]
    at hAssigned
  cases hAssigned

theorem Owned.move
    (h : Owned n.config)
    (hMove : Move env call n m) :
    Owned m.config := by
  cases hMove with
  | get hGet =>
      cases hGet with
      | dropped _ =>
          intro p hp r chunk hAssigned hLive
          apply h p hp r chunk hAssigned
          simp only [Node.onConfig_config,
            BtConfig.dropDownload_chunk] at hLive
          split at hLive
          · cases hLive
          · exact hLive
      | _ => exact h
  | counted _ cur _ _ =>
      exact h.setPeer cur _ fun _ => rfl
  | gaveUp _ cur r chunk packets now hCur hAssigned _ _ =>
      exact h.unlink hCur hAssigned _ (fun _ => rfl) _
  | fetched _ p q r chunk _ hLive _ hFree _ _ _ =>
      have hRaised : Owned n.config.raiseMaxConn := h
      exact hRaised.link hLive hFree p _
  | cleared _ p _ => exact h.setPeer p _ fun _ => rfl
  | announced _ r p _ _ =>
      exact h.setChunk r _ fun _ _ => rfl
  | loaded _ chunkfile outputfile items _ _ =>
      exact Owned.load chunkfile outputfile items n.config
  | _ => exact h

theorem owned_closed :
    Closed env call (fun n => Owned n.config) where
  move := fun _ _ h hMove => h.move hMove
  load := fun _ chunkfile outputfile items _ _ _ =>
    Owned.load chunkfile outputfile items _
  raise := fun _ h => h
  halt := fun _ _ h => h

end

end PeerNet

------------------------------------------------------------
-- Data
------------------------------------------------------------

namespace PeerNet

section

variable {env : Env} {n m : Node} {src : Addr}
variable {packet : Packet} {p q : PeerRef} {r : ChunkRef}
variable {chunk : BtChunk} {nodes : List BtPacket}

/- A packet that is taken is taken from the chunk's peer. -/
theorem Owned.taking
    (h : Owned n.config)
    (hTaking :
      Taking n.config src packet p r chunk nodes) :
    chunk.peer = some p :=
  h p (mem_peers_of_peerWithAddr hTaking.found) r chunk
    hTaking.assigned hTaking.live

theorem Owned.heard
    (h : Owned n.config)
    (env : Env)
    (p : PeerRef) :
    Owned (n.heard env p).config :=
  h.setPeer p _ fun _ => rfl

theorem Owned.filled
    (h : Owned n.config)
    (hFilling :
      Filling n.config src packet p q r chunk nodes) :
    Owned (n.filled env packet p q r chunk nodes).config := by
  have hTaking := hFilling.toTaking
  have hSame : q = p :=
    Option.some.inj
      (hFilling.owner.symm.trans (h.taking hTaking))
  subst hSame
  have hListed := mem_peers_of_peerWithAddr hTaking.found
  have hHeard := h.heard env q
  have hAssigned :
      ((n.heard env q).config.peer q).chunk = some r := by
    simpa [Node.heard, BtConfig.heardData] using
      hTaking.assigned
  have hUnlinked :=
    hHeard.unlink hListed hAssigned
      (fun peer =>
        { peer with
          downloading := false
          lastResponse := -1
          chunk := none })
      (fun _ => rfl)
      (fun _ =>
        { chunk.take nodes packet with peer := none })
  intro s hs t chunk' hChunk hLive
  apply hUnlinked s hs t chunk' hChunk
  by_cases hIs : t = r
  · subst hIs
    simpa [Node.filled, Node.release, Node.keep] using hLive
  · simpa [Node.filled, Node.release, Node.keep, hIs] using
      hLive

theorem Owned.data
    (h : Owned n.config)
    {ack : Option Int}
    {counted : Bool}
    (hStep : DataStep env src packet n ack counted m) :
    Owned m.config := by
  cases hStep with
  | ignored _ => exact h
  | refused p _ _ _ => exact h.heard env p
  | stored p r chunk nodes hTaking _ =>
      apply (h.heard env p).setChunk r
      intro chunk' hLive
      have hSame : chunk = chunk' :=
        Option.some.inj (hTaking.live.symm.trans hLive)
      rw [← hSame, BtChunk.take_peer]
  | stopped p q r chunk nodes g f hFilling _ =>
      exact h.filled hFilling
  | rejected p q r chunk nodes hFilling _ =>
      exact h.filled hFilling
  | unrecorded p q r chunk nodes hFilling _ _ =>
      exact h.filled hFilling
  | recorded p q r chunk nodes id hFilling _ _ _ =>
      have hFilled :
          Owned
            (n.filled env packet p q r chunk nodes).config :=
        h.filled hFilling
      exact hFilled.setChunk r _ fun _ _ => rfl

/- DATA runs through, or finds its chunk freed. -/
theorem Owned.step_data
    (h : Owned n.config)
    (env : Env)
    (src : Addr)
    (packet : Packet)
    (hRun : n.fault = none) :
    DataRun env src packet n
        (n.step env (.data src packet)) ∨
      ∃ p r f, Fetching n.config src p r ∧
        n.config.chunk r = none ∧
        n.step env (.data src packet) =
          (n.heard env p).halt f := by
  rcases step_data_cases env src packet hRun with
    hData | ⟨f, m, hLost, hEnd⟩
  · exact .inl hData
  · rcases hLost with
      ⟨p, r, hFetching, hDead, rfl⟩ |
      ⟨p, r, chunk, nodes, hTaking, hFree, _⟩
    · exact .inr ⟨p, r, f, hFetching, hDead, hEnd⟩
    · have hBack := h.taking hTaking
      rw [hFree] at hBack
      cases hBack

/- Whatever happens, the chunks point back. -/
theorem owned_step
    (env : Env)
    (h : Owned n.config)
    (e : NodeEvent) :
    Owned (n.step env e).config := by
  by_cases hReceives : e.receives
  · apply Closed.step (I := fun n => Owned n.config)
      owned_closed hReceives
    · rintro src packet rfl
      cases hRun : n.fault with
      | some f =>
          rw [step_of_fault _ _ hRun]
          exact h
      | none =>
      rcases h.step_data env src packet hRun with
        hData | ⟨p, r, f, _, _, hEnd⟩
      · have hClosed :
            Closed env .ihave (fun n => Owned n.config) :=
          owned_closed
        exact hClosed.dataRun (fun _ _ h => h)
          (fun _ _ _ hStep => h.data hStep) hData
      · rw [hEnd]
        exact h.heard env p
    · exact h
  · rcases step_serves env n hReceives with
      ⟨m, ⟨_, _, _, rfl⟩, hEnd | ⟨f, hEnd⟩⟩
    · rw [hEnd]
      exact h
    · rw [hEnd]
      exact h

end

end PeerNet
