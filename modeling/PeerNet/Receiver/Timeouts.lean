import PeerNet.Receiver.Closed
import PeerNet.Receiver.Ownership

/-
  What the calls do to the accounting of timeouts.

  `timeout_check` counts a peer that it finds overdue, once
  in a pass, and gives it up at the fifth count. No other
  call raises a counter: `Uncounted` says what they leave of
  it, and that a reference time is set by `send_get` and by
  `process_data` only.

  Key definitions include:
    * `Aged`
    * `Uncounted`

  Key results include:
    * `step_timeoutCheck`
    * `step_uncounted`
    * `step_ihave_uncounted`
    * `step_data_uncounted`
-/

------------------------------------------------------------
-- One Pass of `timeout_check`
------------------------------------------------------------

namespace PeerNet

open Prog

/- `timeout_check` at `now` finds the peer silent too long. -/
def BtPeer.Overdue
    (now : Int)
    (peer : BtPeer) : Prop :=
  peer.lastResponse ≠ -1 ∧
    timeoutMillis < now - peer.lastResponse

instance
    (now : Int)
    (peer : BtPeer) :
    Decidable (peer.Overdue now) :=
  inferInstanceAs (Decidable (_ ∧ _))

/- What a pass at `now` makes of a peer. -/
inductive Aged
    (now : Int) : BtPeer → BtPeer → Prop
| same (peer : BtPeer) : Aged now peer peer
| counted (peer : BtPeer) :
    peer.Overdue now →
    Aged now peer
      { peer with consecTimeouts := peer.consecTimeouts + 1 }
| gaveUp (peer : BtPeer) (badTime : Int) :
    peer.Overdue now →
    maxTimeouts ≤ peer.consecTimeouts + 1 →
    Aged now peer
      { peer with
        consecTimeouts := peer.consecTimeouts + 1
        badTime := badTime
        downloading := false
        lastResponse := -1
        chunk := none }

theorem Aged.count
    {now : Int}
    {old new : BtPeer}
    (h : Aged now old new) :
    new.consecTimeouts = old.consecTimeouts ∨
      old.Overdue now ∧
        new.consecTimeouts = old.consecTimeouts + 1 := by
  cases h with
  | same => exact .inl rfl
  | counted hLate => exact .inr ⟨hLate, rfl⟩
  | gaveUp _ hLate _ => exact .inr ⟨hLate, rfl⟩

/- Only a peer that is given up loses its reference time. -/
theorem Aged.last
    {now : Int}
    {old new : BtPeer}
    (h : Aged now old new) :
    new.lastResponse = old.lastResponse ∨
      old.Overdue now ∧ new.lastResponse = -1 ∧
        maxTimeouts ≤ old.consecTimeouts + 1 := by
  cases h with
  | same => exact .inl rfl
  | counted _ => exact .inl rfl
  | gaveUp _ hLate hMany => exact .inr ⟨hLate, rfl, hMany⟩

/- A pass that has looked at the peers `done`. -/
structure AgedPeers
    (now : Int)
    (n : Node)
    (done : List PeerRef)
    (m : Node) : Prop where
  peers : m.config.peers = n.config.peers
  download : m.config.download = n.config.download
  aged : ∀ p, Aged now (n.config.peer p) (m.config.peer p)
  ahead : ∀ p, p ∉ done → m.config.peer p = n.config.peer p

/- One round, on a peer that was not looked at yet. -/
theorem timeoutPeer_aged
    (env : Env)
    {now : Int}
    {n m : Node}
    {done : List PeerRef}
    {cur : PeerRef}
    (h : AgedPeers now n done m)
    (hCur : cur ∉ done) :
    wp (timeoutPeer env now cur)
      (fun _ k => AgedPeers now n (done ++ [cur]) k)
      (fun _ k => AgedPeers now n (done ++ [cur]) k)
      m := by
  have hSame := h.ahead cur hCur
  have hAhead : ∀ p, p ∉ done ++ [cur] →
      p ≠ cur ∧ m.config.peer p = n.config.peer p := by
    intro p hp
    rw [List.mem_append, List.mem_singleton, not_or] at hp
    exact ⟨hp.2, h.ahead p hp.1⟩
  have hWritten (k : Node) (new : BtPeer)
      (hPeers : k.config.peers = m.config.peers)
      (hDownload : k.config.download = m.config.download)
      (hPeer : k.config.peer =
        Function.update m.config.peer cur new)
      (hNew : Aged now (n.config.peer cur) new) :
      AgedPeers now n (done ++ [cur]) k := by
    refine ⟨hPeers.trans h.peers, hDownload.trans h.download,
      ?_, ?_⟩
    · intro p
      rw [hPeer]
      by_cases hp : p = cur
      · rw [hp, Function.update_self]
        exact hNew
      · rw [Function.update_of_ne hp]
        exact h.aged p
    · intro p hp
      rw [hPeer, Function.update_of_ne (hAhead p hp).1]
      exact (hAhead p hp).2
  have hQuiet :
      AgedPeers now n (done ++ [cur]) m :=
    ⟨h.peers, h.download, h.aged, fun p hp => (hAhead p hp).2⟩
  unfold timeoutPeer
  rw [wp_bind, wp_get, wp_ite]
  refine ⟨fun hLate => ?_, fun _ => hQuiet⟩
  rw [hSame] at hLate
  have hCounted (k : Node)
      (hPeers : k.config.peers = m.config.peers)
      (hDownload : k.config.download = m.config.download)
      (hPeer : k.config.peer =
        (m.config.countTimeout cur).peer) :
      AgedPeers now n (done ++ [cur]) k := by
    apply hWritten k _ hPeers hDownload hPeer
    rw [hSame]
    exact .counted _ hLate
  rw [wp_bind, wp_modify, wp_ite]
  refine ⟨fun hMany => ?_, fun _ => hCounted _ rfl rfl rfl⟩
  rw [wp_bind, wp_timeMillis]
  cases (m.config.peer cur).chunk with
  | none => exact hCounted _ rfl rfl rfl
  | some r =>
      simp only [wp_bind, wp_derefChunk, wp_lift]
      refine ⟨fun _ => hCounted _ rfl rfl rfl,
        fun chunk _ => ⟨fun packets _ => ?_,
          fun _ _ => hCounted _ rfl rfl rfl⟩⟩
      rw [hSame] at hMany
      have hNew :
          Aged now (n.config.peer cur)
            { n.config.peer cur with
              consecTimeouts :=
                (n.config.peer cur).consecTimeouts + 1
              badTime := env.clock m.reads
              downloading := false
              lastResponse := -1
              chunk := none } :=
        .gaveUp _ _ hLate hMany
      refine hWritten _ _ rfl rfl ?_ hNew
      simp [BtConfig.giveUp, BtConfig.countTimeout,
        BtConfig.setPeer, BtConfig.setChunk, hSame]

/- The loop, on the peers that are left. -/
theorem timeoutPeers_aged
    (env : Env)
    {now : Int}
    {n m : Node}
    {done rest : List PeerRef}
    (h : AgedPeers now n done m)
    (hNodup : (done ++ rest).Nodup) :
    wp (rest.forM (timeoutPeer env now))
      (fun _ k => ∃ seen, seen ⊆ done ++ rest ∧
        AgedPeers now n seen k)
      (fun _ k => ∃ seen, seen ⊆ done ++ rest ∧
        AgedPeers now n seen k) m := by
  induction rest generalizing done m with
  | nil => exact ⟨done, by simp, h⟩
  | cons cur rest ih =>
      have hCur : cur ∉ done := by
        intro hIn
        rw [List.nodup_append] at hNodup
        exact hNodup.2.2 cur hIn cur List.mem_cons_self rfl
      rw [← List.singleton_append, ← List.append_assoc] at *
      change wp (timeoutPeer env now cur >>= fun _ =>
        rest.forM (timeoutPeer env now)) _ _ m
      rw [wp_bind]
      apply wp_mono (timeoutPeer_aged env h hCur)
      · intro _ k hk
        exact ih hk hNodup
      · intro _ k hk
        exact ⟨done ++ [cur], List.subset_append_left _ _, hk⟩

/- A whole pass, finished or stopped at a fault. -/
theorem timeoutCheck_aged
    (env : Env)
    {n : Node}
    (hNodup : n.config.peers.Nodup) :
    wp (timeoutCheck env)
      (fun _ m => ∃ seen, seen ⊆ n.config.peers ∧
        AgedPeers (env.clock n.reads) n seen m)
      (fun _ m => ∃ seen, seen ⊆ n.config.peers ∧
        AgedPeers (env.clock n.reads) n seen m) n := by
  have hStart (m : Node) (hSame : m.config = n.config) :
      AgedPeers (env.clock n.reads) n [] m := by
    refine ⟨by rw [hSame], by rw [hSame], fun p => ?_,
      fun p _ => by rw [hSame]⟩
    rw [hSame]
    exact .same _
  unfold timeoutCheck
  rw [wp_bind, wp_get, wp_ite]
  refine ⟨fun _ => ?_, fun _ =>
    ⟨[], List.nil_subset _, hStart n rfl⟩⟩
  rw [wp_bind, wp_timeMillis]
  exact timeoutPeers_aged env (hStart n.tick rfl) hNodup

/- The step, at a process that has a download. -/
theorem step_timeoutCheck
    (env : Env)
    {n : Node}
    (hNodup : n.config.peers.Nodup) :
    ∃ seen, seen ⊆ n.config.peers ∧
      AgedPeers (env.clock n.reads) n seen
        (n.step env .timeoutCheck) := by
  apply Node.exec_of_wp (x := timeoutCheck env)
    (P := fun m => ∃ seen, seen ⊆ n.config.peers ∧
      AgedPeers (env.clock n.reads) n seen m)
  · apply wp_mono (timeoutCheck_aged env hNodup)
    · exact fun _ _ h => h
    · rintro f m ⟨seen, hSeen, h⟩
      exact ⟨seen, hSeen, h.peers, h.download, h.aged,
        h.ahead⟩
  · exact fun _ => ⟨[], List.nil_subset _, rfl, rfl,
      fun _ => .same _, fun _ _ => rfl⟩

/- Without a download a pass does nothing. -/
theorem step_timeoutCheck_idle
    (env : Env)
    {n : Node}
    (hNone : n.config.download = []) :
    n.step env .timeoutCheck = n := by
  change n.exec (timeoutCheck env) = n
  apply Node.exec_of_wp (P := fun m => m = n) _ fun _ => rfl
  unfold timeoutCheck
  rw [wp_bind, wp_get, wp_ite]
  exact ⟨fun hSome => absurd hNone hSome, fun _ => rfl⟩

end PeerNet

------------------------------------------------------------
-- What the Other Calls Do
------------------------------------------------------------

namespace PeerNet

open Prog

/- The peer a `sendGet` line of the trace is about. -/
def Event.asks :
    Event → Option PeerRef
| .sendGet _ chunk => chunk.peer
| _ => none

/- The peers that were sent a GET between two states. -/
def askedIn
    (n m : Node) : List PeerRef :=
  (m.trace.drop n.trace.length).filterMap Event.asks

/-
  What a call other than `timeout_check` leaves of the
  accounting: no counter is raised, a reference time is set
  only for a peer that is sent a GET, and a download starts
  only with all peers reset.
-/
structure Uncounted
    (call : Call)
    (n m : Node) : Prop where
  peers : m.config.peers = n.config.peers
  trace : ∃ new, m.trace = n.trace ++ new
  count : ∀ p,
    (m.config.peer p).consecTimeouts =
        (n.config.peer p).consecTimeouts ∨
      (m.config.peer p).consecTimeouts = 0
  last : ∀ p,
    (m.config.peer p).lastResponse =
        (n.config.peer p).lastResponse ∨
      (m.config.peer p).lastResponse = -1 ∨
      call = .getAllTheThingz ∧ p ∈ askedIn n m
  download :
    m.config.download ≠ [] →
      n.config.download ≠ [] ∨
        call = .userGet ∧ ∀ p ∈ n.config.peers,
          (m.config.peer p).consecTimeouts = 0 ∧
            (m.config.peer p).lastResponse = -1

section

variable {env : Env} {call : Call} {n m k : Node}

theorem Uncounted.refl
    (call : Call)
    (n : Node) :
    Uncounted call n n :=
  ⟨rfl, ⟨[], (List.append_nil _).symm⟩, fun _ => .inl rfl,
    fun _ => .inl rfl, .inl⟩

/- GETs that were sent stay sent. -/
theorem askedIn_mono
    (hTrace : ∃ new, m.trace = n.trace ++ new)
    (hMore : ∃ new, k.trace = m.trace ++ new)
    {p : PeerRef}
    (h : p ∈ askedIn n m) :
    p ∈ askedIn n k := by
  rcases hTrace with ⟨new, hNew⟩
  rcases hMore with ⟨more, hMore⟩
  unfold askedIn at h ⊢
  rw [hNew, List.drop_left] at h
  rw [hMore, hNew, List.append_assoc, List.drop_left,
    List.filterMap_append]
  exact List.mem_append_left _ h

/- A change that leaves the peers' accounting alone. -/
theorem Uncounted.quiet
    (h : Uncounted call n m)
    (hPeers : k.config.peers = m.config.peers)
    (hTrace : ∃ new, k.trace = m.trace ++ new)
    (hPeer : ∀ p,
      (k.config.peer p).consecTimeouts =
          (m.config.peer p).consecTimeouts ∧
        (k.config.peer p).lastResponse =
          (m.config.peer p).lastResponse)
    (hDownload :
      k.config.download ≠ [] → m.config.download ≠ []) :
    Uncounted call n k := by
  refine ⟨hPeers.trans h.peers, ?_, ?_, ?_, ?_⟩
  · rcases h.trace with ⟨new, hNew⟩
    rcases hTrace with ⟨more, hMore⟩
    exact ⟨new ++ more,
      by rw [hMore, hNew, List.append_assoc]⟩
  · intro p
    rw [(hPeer p).1]
    exact h.count p
  · intro p
    rw [(hPeer p).2]
    rcases h.last p with hSame | hReset | ⟨hCall, hAsked⟩
    · exact .inl hSame
    · exact .inr (.inl hReset)
    · exact .inr (.inr
        ⟨hCall, askedIn_mono h.trace hTrace hAsked⟩)
  · intro hSome
    rcases h.download (hDownload hSome) with hOld | hReset
    · exact .inl hOld
    · refine .inr ⟨hReset.1, fun p hp => ?_⟩
      rw [(hPeer p).1, (hPeer p).2]
      exact hReset.2 p hp

/- A change that touches no peer and is not traced. -/
theorem Uncounted.frame
    (h : Uncounted call n m)
    (hTrace : k.trace = m.trace)
    (hPeers : k.config.peers = m.config.peers)
    (hPeer : k.config.peer = m.config.peer)
    (hDownload :
      k.config.download ≠ [] → m.config.download ≠ []) :
    Uncounted call n k := by
  apply h.quiet hPeers _ _ hDownload
  · exact ⟨[], by rw [hTrace, List.append_nil]⟩
  · intro p
    rw [hPeer]
    exact ⟨rfl, rfl⟩

/- A peer that is sent a GET is among those asked. -/
theorem Uncounted.fetched
    (h : Uncounted .getAllTheThingz n m)
    (p : PeerRef)
    (r : ChunkRef)
    (chunk : BtChunk)
    (dest : Addr) :
    Uncounted .getAllTheThingz n
      (m.fetch env p r chunk dest) := by
  let asking : Event := .sendGet r (chunk.fetched p)
  have hTrace :
      (m.fetch env p r chunk dest).trace =
        m.trace ++ [asking] := rfl
  have hPeer :
      (m.fetch env p r chunk dest).config.peer =
        Function.update m.config.peer p
          { m.config.peer p with
            chunk := some r
            downloading := true
            lastResponse := env.clock m.reads } := rfl
  refine ⟨h.peers, ?_, ?_, ?_, ?_⟩
  · rcases h.trace with ⟨new, hNew⟩
    exact ⟨new ++ [asking],
      by rw [hTrace, hNew, List.append_assoc]⟩
  · intro q
    rw [hPeer]
    by_cases hq : q = p
    · rw [hq, Function.update_self]
      exact h.count p
    · rw [Function.update_of_ne hq]
      exact h.count q
  · intro q
    by_cases hq : q = p
    · refine .inr (.inr ⟨rfl, ?_⟩)
      rcases h.trace with ⟨new, hNew⟩
      rw [askedIn, hTrace, hNew, List.append_assoc,
        List.drop_left, List.filterMap_append, hq]
      exact List.mem_append_right _ (List.mem_singleton_self p)
    · rw [hPeer, Function.update_of_ne hq]
      rcases h.last q with hSame | hReset | ⟨hCall, hAsked⟩
      · exact .inl hSame
      · exact .inr (.inl hReset)
      · exact .inr (.inr ⟨hCall,
          askedIn_mono h.trace ⟨_, hTrace⟩ hAsked⟩)
  · intro hSome
    rcases h.download hSome with hOld | ⟨hCall, _⟩
    · exact .inl hOld
    · cases hCall

/- Hearing from a peer clears its counter. -/
theorem Uncounted.cleared
    (h : Uncounted .ihave n m)
    (p : PeerRef) :
    Uncounted .ihave n (m.onConfig (BtConfig.clearBad p)) := by
  have hPeer :
      (m.onConfig (BtConfig.clearBad p)).config.peer =
        Function.update m.config.peer p
          { m.config.peer p with
            consecTimeouts := 0
            badTime := 0 } := rfl
  refine ⟨h.peers, h.trace, ?_, ?_, ?_⟩
  · intro q
    rw [hPeer]
    by_cases hq : q = p
    · rw [hq, Function.update_self]
      exact .inr rfl
    · rw [Function.update_of_ne hq]
      exact h.count q
  · intro q
    rw [hPeer]
    by_cases hq : q = p
    · rw [hq, Function.update_self]
      exact h.last p
    · rw [Function.update_of_ne hq]
      exact h.last q
  · intro hSome
    rcases h.download hSome with hOld | ⟨hCall, _⟩
    · exact .inl hOld
    · cases hCall

/- A user GET resets every listed peer. -/
theorem Uncounted.load
    (h : Uncounted .userGet n m)
    (chunkfile outputfile : Path)
    (items : List Item) :
    Uncounted .userGet n
      (m.onConfig (BtConfig.load chunkfile outputfile items)) := by
  have hPeer := load_peer chunkfile outputfile items m.config
  have hPeers :=
    (SameSending.load chunkfile outputfile items
      m.config).peers
  refine ⟨hPeers.trans h.peers, h.trace, ?_, ?_, ?_⟩
  · intro p
    rw [Node.onConfig_config, hPeer]
    split
    · exact .inr rfl
    · exact h.count p
  · intro p
    rw [Node.onConfig_config, hPeer]
    split
    · exact .inr (.inl rfl)
    · rcases h.last p with hSame | hReset | ⟨hCall, _⟩
      · exact .inl hSame
      · exact .inr (.inl hReset)
      · cases hCall
  · intro _
    refine .inr ⟨rfl, fun p hp => ?_⟩
    rw [← h.peers] at hp
    rw [Node.onConfig_config, hPeer, if_pos hp]
    exact ⟨rfl, rfl⟩

theorem Uncounted.move
    (hCall : call ≠ .timeoutCheck)
    (h : Uncounted call n m)
    (hMove : Move env call m k) :
    Uncounted call n k := by
  have hStill (l : Node) (hConfig : l.config = m.config)
      (hTrace : l.trace = m.trace) : Uncounted call n l :=
    h.quiet (by rw [hConfig])
      ⟨[], by rw [hTrace, List.append_nil]⟩
      (fun p => by rw [hConfig]; exact ⟨rfl, rfl⟩)
      (fun hSome => hConfig ▸ hSome)
  cases hMove with
  | get hGet =>
      cases hGet with
      | entered _ =>
          exact h.quiet rfl ⟨_, rfl⟩ (fun _ => ⟨rfl, rfl⟩) id
      | files g => exact hStill _ rfl rfl
      | got =>
          exact h.quiet rfl ⟨_, rfl⟩ (fun _ => ⟨rfl, rfl⟩) id
      | dropped _ =>
          exact h.frame rfl rfl rfl
            fun hSome => absurd rfl hSome
  | tick _ => exact hStill _ rfl rfl
  | whohas _ now =>
      exact h.frame rfl rfl rfl id
  | push _ d _ => exact hStill _ rfl rfl
  | counted _ cur _ _ => exact absurd rfl hCall
  | gaveUp _ cur r chunk packets now _ _ _ _ =>
      exact absurd rfl hCall
  | fetched _ p q r chunk _ _ _ _ _ _ _ =>
      exact h.fetched p r chunk _
  | cleared _ p _ => exact h.cleared p
  | announced _ r p _ _ =>
      exact h.frame rfl rfl rfl id
  | loaded _ chunkfile outputfile items _ _ =>
      exact h.load chunkfile outputfile items

/- Whatever the call is, but a pass of `timeout_check`. -/
theorem uncounted_closed
    (hCall : call ≠ .timeoutCheck) :
    Closed env call (Uncounted call n) where
  move _ _ h hMove := h.move hCall hMove
  load _ chunkfile outputfile items hUser _ h := by
    subst hUser
    exact h.load chunkfile outputfile items
  raise _ h :=
    h.frame rfl rfl rfl id
  halt _ _ h :=
    h.frame rfl rfl rfl id

/- The calls that neither count nor hear from a peer. -/
theorem step_uncounted
    {e : NodeEvent}
    (hPass : e ≠ .timeoutCheck)
    (hData : ∀ src packet, e ≠ .data src packet) :
    Uncounted (callOf e) n (n.step env e) := by
  by_cases hReceives : e.receives
  · have hCall : callOf e ≠ .timeoutCheck := by
      cases e <;> simp_all [callOf]
    exact (uncounted_closed hCall).step hReceives
      (fun src packet hIs => absurd hIs (hData src packet))
      (.refl _ n)
  · rcases step_serves env n hReceives with
      ⟨m, ⟨upload, queue, reads, rfl⟩, hEnd⟩
    have hServed :
        Uncounted (callOf e) n
          { n with
            config := { n.config with upload := upload }
            queue := queue
            reads := reads } :=
      (Uncounted.refl _ n).frame rfl rfl rfl id
    rcases hEnd with hEnd | ⟨f, hEnd⟩
    · rw [hEnd]
      exact hServed
    · rw [hEnd]
      exact hServed.frame rfl rfl rfl id

/- An IHAVE at a process that has a download. -/
theorem step_ihave_uncounted
    (env : Env)
    {src : Addr}
    {p : PeerRef}
    (packet : Packet)
    (hRun : n.fault = none)
    (hSome : n.config.download ≠ [])
    (hFound : peerWithAddr src n.config = some p) :
    Uncounted .ihave (n.onConfig (BtConfig.clearBad p))
      (n.step env (.ihave src packet)) := by
  have hClosed :
      Closed env .ihave
        (Uncounted .ihave (n.onConfig (BtConfig.clearBad p))) :=
    uncounted_closed nofun
  unfold Node.step handle
  rw [Node.exec_discard]
  apply Node.exec_of_wp
    (P := Uncounted .ihave (n.onConfig (BtConfig.clearBad p)))
  · unfold processIhave
    rw [wp_bind, wp_get, wp_ite]
    refine ⟨fun hNone => absurd hNone hSome, fun _ => ?_⟩
    rw [hFound]
    dsimp only
    rw [wp_bind, wp_modify]
    cases packet.buf with
    | nil => exact hClosed.halt _ _ (.refl _ _)
    | cons numchunks rest =>
        have hPeer : p ∈ n.config.peers :=
          mem_peers_of_peerWithAddr hFound
        exact hClosed.wp (ihaveLoop_leads env p _ _ _ _ hPeer)
          (.refl _ _)
  · intro hFault
    rw [hRun] at hFault
    cases hFault

/- The end of a fetch clears the reference time. -/
theorem Uncounted.released
    (h : Uncounted .ihave n m)
    (p : PeerRef)
    (r : ChunkRef)
    (packets : BtPackets) :
    Uncounted .ihave n (m.release p r packets) := by
  have hPeer :
      (m.release p r packets).config.peer =
        Function.update m.config.peer p
          { m.config.peer p with
            downloading := false
            lastResponse := -1
            chunk := none } := rfl
  refine ⟨h.peers, ?_, ?_, ?_, ?_⟩
  · rcases h.trace with ⟨new, hNew⟩
    refine ⟨new ++ [.finishChunk r packets], ?_⟩
    change m.trace ++ [.finishChunk r packets] = _
    rw [hNew, List.append_assoc]
  · intro q
    rw [hPeer]
    by_cases hq : q = p
    · rw [hq, Function.update_self]
      exact h.count p
    · rw [Function.update_of_ne hq]
      exact h.count q
  · intro q
    rw [hPeer]
    by_cases hq : q = p
    · rw [hq, Function.update_self]
      exact .inr (.inl rfl)
    · rw [Function.update_of_ne hq]
      rcases h.last q with hSame | hReset | ⟨hCall, _⟩
      · exact .inl hSame
      · exact .inr (.inl hReset)
      · cases hCall
  · intro hSome
    rcases h.download hSome with hOld | ⟨hCall, _⟩
    · exact .inl hOld
    · cases hCall

/- What `process_data` does before it answers. -/
theorem dataStep_uncounted
    {src : Addr}
    {packet : Packet}
    {ack : Option Int}
    {counted : Bool}
    (h : DataStep env src packet n ack counted m) :
    (∀ p r, ¬ Fetching n.config src p r) ∧ m = n ∨
      ∃ p r, Fetching n.config src p r ∧
        Uncounted .ihave (n.heard env p) m := by
  have hKept (p : PeerRef) (r : ChunkRef) (chunk : BtChunk) :
      Uncounted .ihave (n.heard env p)
        ((n.heard env p).keep r chunk) :=
    (Uncounted.refl _ _).frame rfl rfl rfl id
  have hFilled (p q : PeerRef) (r : ChunkRef)
      (chunk : BtChunk) (nodes : List BtPacket) :
      Uncounted .ihave (n.heard env p)
        (n.filled env packet p q r chunk nodes) :=
    (hKept p r _).released q r _
  cases h with
  | ignored hNone => exact .inl ⟨hNone, rfl⟩
  | refused p r hFetching _ =>
      exact .inr ⟨p, r, hFetching, .refl _ _⟩
  | stored p r chunk nodes hTaking _ =>
      exact .inr ⟨p, r, hTaking.toFetching, hKept p r _⟩
  | stopped p q r chunk nodes g f hFilling _ =>
      refine .inr ⟨p, r, hFilling.toFetching, ?_⟩
      exact (hFilled p q r chunk nodes).frame rfl rfl rfl id
  | rejected p q r chunk nodes hFilling _ =>
      refine .inr ⟨p, r, hFilling.toFetching, ?_⟩
      exact (hFilled p q r chunk nodes).quiet rfl ⟨_, rfl⟩
        (fun _ => ⟨rfl, rfl⟩) id
  | unrecorded p q r chunk nodes hFilling _ _ =>
      refine .inr ⟨p, r, hFilling.toFetching, ?_⟩
      exact (hFilled p q r chunk nodes).quiet rfl ⟨_, rfl⟩
        (fun _ => ⟨rfl, rfl⟩) id
  | recorded p q r chunk nodes id hFilling _ _ _ =>
      refine .inr ⟨p, r, hFilling.toFetching, ?_⟩
      exact (hFilled p q r chunk nodes).frame rfl rfl rfl
        fun h => h

/- DATA at a process that runs. -/
theorem step_data_uncounted
    (env : Env)
    {src : Addr}
    (packet : Packet)
    (hRun : n.fault = none) :
    (∀ p r, ¬ Fetching n.config src p r) ∧
        Uncounted .ihave n (n.step env (.data src packet)) ∨
      ∃ p r, Fetching n.config src p r ∧
        Uncounted .ihave (n.heard env p)
          (n.step env (.data src packet)) := by
  have hClosed (n' : Node) :
      Closed env .ihave (Uncounted .ihave n') :=
    uncounted_closed nofun
  have hAnswer (n' k : Node) (ackNum : Int)
      (h : Uncounted .ihave n' k) :
      Uncounted .ihave n' (k.push ⟨ackPacket ackNum, src⟩) :=
    h.frame rfl rfl rfl id
  by_cases hAny : ∃ p r, Fetching n.config src p r
  · rcases hAny with ⟨p, r, hFetching⟩
    refine .inr ⟨p, r, hFetching, ?_⟩
    have hOnly (q : PeerRef) (s : ChunkRef)
        (h : Fetching n.config src q s) : q = p :=
      Option.some.inj (h.found.symm.trans hFetching.found)
    rcases step_data_cases env src packet hRun with
      hData | ⟨f, m, hLost, hStep⟩
    · refine (hClosed _).dataRun (hAnswer _) ?_ hData
      intro ack counted k hStep
      rcases dataStep_uncounted hStep with
        ⟨hNone, _⟩ | ⟨q, s, hQ, hRest⟩
      · exact absurd hFetching (hNone p r)
      · rw [← hOnly q s hQ]
        exact hRest
    · rw [hStep]
      apply (hClosed _).halt
      rcases hLost with
        ⟨q, s, hQ, _, rfl⟩ | ⟨q, s, chunk, nodes, hQ, _, rfl⟩
      · rw [hOnly q s hQ]
        exact .refl _ _
      · rw [hOnly q s hQ.toFetching]
        exact (Uncounted.refl _ _).quiet rfl ⟨_, rfl⟩
          (fun _ => ⟨rfl, rfl⟩) id
  · have hNone (p : PeerRef) (r : ChunkRef)
        (h : Fetching n.config src p r) : False :=
      hAny ⟨p, r, h⟩
    refine .inl ⟨hNone, ?_⟩
    rcases step_data_cases env src packet hRun with
      hData | ⟨f, m, hLost, hStep⟩
    · refine (hClosed _).dataRun (hAnswer _) ?_ hData
      intro ack counted k hStep
      rcases dataStep_uncounted hStep with
        ⟨_, rfl⟩ | ⟨q, s, hQ, _⟩
      · exact .refl _ _
      · exact (hNone q s hQ).elim
    · rcases hLost with
        ⟨q, s, hQ, _⟩ | ⟨q, s, chunk, nodes, hQ, _⟩
      · exact (hNone q s hQ).elim
      · exact (hNone q s hQ.toFetching).elim

end

end PeerNet
