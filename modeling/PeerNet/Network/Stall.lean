import PeerNet.Network.Transfer
import PeerNet.Sender.Windows

/-
  Progress of a single upload.

  A pass of `peer_cc` sends the next window where everything
  sent was acknowledged, which it tests by `last_acked ==
  last_sent`. A timeout sets `last_sent` back, and an ACK
  for what was sent before then overtakes it; from there the
  test fails and the upload waits for its next timeout. So
  it does, with nothing sent, where the end of the window
  is no `int` any more.

  Main declarations:
    * `Tracked`
    * `Outstanding`
    * `Stalls`
    * `Visit.outstanding_iff`
    * `outstanding_after_pass_iff`
-/

------------------------------------------------------------
-- One Visit
------------------------------------------------------------

namespace PeerNet

/- A sound upload whose two counters are in its array. -/
structure Tracked
    (s : BtSender) : Prop
    extends Sound s where
  few : s.numPackets < 2 ^ 31
  ackedLow : 0 ≤ s.lastAcked
  ackedHigh : s.lastAcked ≤ s.numPackets
  sentHigh : s.lastSent ≤ s.numPackets

/- The packet at an index of the upload's array. -/
def BtSender.packetAt
    (s : BtSender)
    (k : Int) : Option Packet :=
  ((s.packets.getD [])[k.toNat]?).join

/-
  A packet is outstanding after a pass; and if all that was
  sent before had been acknowledged, the pass queued the
  next one.
-/
structure Outstanding
    (s t : BtSender)
    (queued : List Packet) : Prop where
  behind : t.lastAcked < t.lastSent
  within : t.lastSent ≤ t.numPackets
  next :
    s.lastSent ≤ s.lastAcked →
      ∃ packet ∈ queued,
        s.packetAt s.lastAcked = some packet

/- An ACK is ahead of what was sent since the last timeout. -/
structure Overtaken
    (s : BtSender) : Prop where
  ahead : s.lastSent < s.lastAcked
  unfinished : s.lastAcked < s.numPackets

/- The next window would end behind the range of `int`. -/
structure Overflows
    (s : BtSender) : Prop where
  all : s.lastAcked = s.lastSent
  unfinished : s.lastAcked < s.numPackets
  wraps :
    wrapInt (s.lastAcked + s.windowSize) ≤ s.lastAcked

/- Without a loss nothing is sent, and nothing outstanding. -/
def Stalls
    (s : BtSender) : Prop :=
  Overtaken s ∨ Overflows s

section

variable {env : Env} {reads : Nat} {s t : BtSender}
variable {v : CcVisit}

/- The first packet of a window is the one behind the ACK. -/
theorem head_of_window
    {packets : List Packet}
    (hPackets : s.packets = some (packets.map some))
    (hLow : 0 ≤ s.lastAcked)
    (hHigh : s.lastAcked < packets.length)
    {count : Nat}
    (hCount : 0 < count) :
    ∃ packet ∈
        (packets.drop s.lastAcked.toNat).take count,
      s.packetAt s.lastAcked = some packet := by
  have hLt : s.lastAcked.toNat < packets.length := by omega
  refine ⟨packets[s.lastAcked.toNat], ?_, ?_⟩
  · cases count with
    | zero => omega
    | succ count =>
        rw [← List.getElem_cons_drop hLt,
          List.take_succ_cons]
        exact List.mem_cons_self
  · unfold BtSender.packetAt
    rw [hPackets]
    simp [hLt]

/- After a retransmission one packet is outstanding. -/
theorem Tracked.resent
    (h : Tracked s)
    (hOpen : Open env reads s) :
    Tracked (resend env reads s).sender ∧
      (resend env reads s).sender.lastAcked <
        (resend env reads s).sender.lastSent ∧
      (resend env reads s).inRange = true ∧
      ∃ packet ∈ (resend env reads s).queued,
        s.packetAt s.lastAcked = some packet := by
  have hSound := h.toSound.resent hOpen
  have hLow := h.ackedLow
  have hHigh := h.ackedHigh
  have hUnfinished := hOpen.unfinished
  rcases h.resend_eq env reads hLow with
    ⟨packets, hPackets, hCount, hEq⟩
  have hFew := h.few
  have hNext : wrapInt (s.lastAcked + 1) = s.lastAcked + 1 :=
    wrapInt_eq ⟨by omega, by omega⟩
  rw [hNext] at hEq
  rw [hEq] at hSound ⊢
  refine ⟨⟨hSound, hFew, hLow, hHigh, ?_⟩, ?_, rfl, ?_⟩
  · exact min_le_right _ _
  · dsimp only [collapseWindow, charged]
    omega
  · exact head_of_window hPackets hLow (by omega) (by omega)

/- The next window is outstanding, unless it overflows. -/
theorem Tracked.sentNext
    (h : Tracked s)
    (hOpen : Open env reads s)
    (hAcked : s.lastAcked = s.lastSent) :
    Tracked (sendNext env reads s).sender ∧
      (sendNext env reads s).inRange = true ∧
      (Outstanding s (sendNext env reads s).sender
          (sendNext env reads s).queued ↔
        ¬ Overflows s) := by
  have hSound := h.toSound.sentNext hOpen
  have hLow := h.ackedLow
  have hHigh := h.ackedHigh
  have hUnfinished := hOpen.unfinished
  rcases h.sendNext_eq env reads hLow with
    ⟨packets, hPackets, hCount, hEq⟩
  rw [hEq] at hSound ⊢
  refine ⟨⟨hSound, h.few, hLow, hHigh, ?_⟩, rfl, ?_⟩
  · exact min_le_right _ _
  constructor
  · intro hOut hOver
    have hBehind :
        s.lastAcked <
          min (wrapInt (s.lastAcked + s.windowSize))
            s.numPackets :=
      hOut.behind
    have hWraps := hOver.wraps
    omega
  · intro hNone
    have hAhead :
        s.lastAcked <
          wrapInt (s.lastAcked + s.windowSize) := by
      by_contra hNot
      exact hNone ⟨hAcked, by omega, not_lt.mp hNot⟩
    refine ⟨?_, min_le_right _ _, fun _ => ?_⟩
    · dsimp only [charged]
      omega
    · exact head_of_window hPackets hLow (by omega)
        (by omega)

/-
  An upload that stays in the list has a packet outstanding,
  unless it stalls and no loss was detected.
-/
theorem Visit.outstanding_iff
    (hWay : Visit env reads s v)
    (h : Tracked s)
    (hHang : v.ending ≠ .fault .hang) :
    ((v.ending = .finished ∨ v.ending = .dead) ∧
        (Stalls s → Lost env reads s)) ∨
      ∃ t, v.ending = .kept t ∧ Tracked t ∧
        (Outstanding s t v.queued ↔
          (Stalls s → Lost env reads s)) := by
  induction hWay with
  | hang reads s => exact absurd rfl hHang
  | finished reads s hAll =>
      refine .inl ⟨.inl rfl, ?_⟩
      rintro (hOver | hOver)
      · have hUnfinished := hOver.unfinished
        omega
      · have hUnfinished := hOver.unfinished
        omega
  | dead reads s _ hDead =>
      refine .inl ⟨.inr rfl, fun _ => ?_⟩
      rw [h.charged_dropped] at hDead
      have hAlive := h.alive
      exact lossCharges_pos_iff.mp (by omega)
  | resent reads s v hOpen hLost hIn hRest ih =>
      rcases h.resent hOpen with ⟨hNext, hBehind, _, hFirst⟩
      rcases ih hNext hHang with
        ⟨hEnd, _⟩ | ⟨t, hEnd, hTracked, hIff⟩
      · exact .inl ⟨hEnd, fun _ => hLost⟩
      · refine .inr ⟨t, hEnd, hTracked, ?_⟩
        have hNot :
            ¬ Stalls (resend env reads s).sender := by
          rintro (hOver | hOver)
          · have hAhead := hOver.ahead
            omega
          · have hAll := hOver.all
            omega
        have hLater := hIff.mpr fun hStalls =>
          absurd hStalls hNot
        rcases hFirst with ⟨packet, hPacket, hAt⟩
        constructor
        · exact fun _ _ => hLost
        · intro _
          exact ⟨hLater.behind, hLater.within, fun _ =>
            ⟨packet, List.mem_append_left _ hPacket, hAt⟩⟩
  | resentOut reads s hOpen _ hOut =>
      rcases h.resent hOpen with ⟨_, _, hIn, _⟩
      rw [hIn] at hOut
      cases hOut
  | sent reads s hOpen hQuiet hAcked _ =>
      rcases h.sentNext hOpen hAcked with ⟨hNext, _, hIff⟩
      refine .inr ⟨_, rfl, hNext, hIff.trans ?_⟩
      constructor
      · rintro hNone (hOver | hOver)
        · have hAhead := hOver.ahead
          omega
        · exact absurd hOver hNone
      · intro hSeen hOver
        exact hQuiet (hSeen (.inr hOver))
  | sentOut reads s hOpen _ hAcked hOut =>
      rcases h.sentNext hOpen hAcked with ⟨_, hIn, _⟩
      rw [hIn] at hOut
      cases hOut
  | waiting reads s hOpen hQuiet hDiffer =>
      have hTracked : Tracked (charged env reads s) :=
        ⟨h.toSound.tested hOpen, h.few, h.ackedLow,
          h.ackedHigh, h.sentHigh⟩
      refine .inr ⟨_, rfl, hTracked, ?_⟩
      constructor
      · rintro hOut (hOver | hOver)
        · have hAhead := hOver.ahead
          have hBehind : s.lastAcked < s.lastSent :=
            hOut.behind
          omega
        · exact absurd hOver.all hDiffer
      · intro hSeen
        have hBehind : s.lastAcked < s.lastSent := by
          by_contra hNot
          have hUnfinished := hOpen.unfinished
          have hHigh := h.ackedHigh
          exact hQuiet (hSeen (.inl ⟨by omega, by omega⟩))
        exact ⟨hBehind, h.sentHigh, fun hAll => by omega⟩

end

end PeerNet

------------------------------------------------------------
-- One Upload in the List
------------------------------------------------------------

namespace PeerNet

section

variable {env : Env} {n : Node} {s : BtSender}

theorem ccPass_single
    (reads : Nat) :
    ccPass env reads [s] =
      [(s, ccVisit env ccFuel reads s)] := by
  unfold ccPass
  dsimp only
  split
  · rfl
  · rfl

/- A pass over no upload does nothing. -/
theorem step_peerCc_nil
    (env : Env)
    (hRun : n.fault = none)
    (hNone : n.config.upload = []) :
    ∃ reads, n.step env .peerCc = n.pass [] [] reads none := by
  rcases step_peerCc env hRun with
    ⟨uploads, sent, reads, fault, hStep, hPassed⟩
  rw [hNone, ccPass] at hPassed
  have hFault : fault = none := by
    by_contra hNot
    rcases hPassed.broken hNot with ⟨sv, hVisit, _⟩
    cases hVisit
  subst hFault
  have hSent := hPassed.all rfl
  rcases hPassed.left with hLeft | ⟨_, hNot⟩
  · rw [hStep, hLeft, hSent]
    exact ⟨reads, rfl⟩
  · exact absurd rfl hNot

/- A pass over one tracked upload runs to its end. -/
theorem step_peerCc_single
    (env : Env)
    (hRun : n.fault = none)
    (hOne : n.config.upload = [s])
    (hTracked : Tracked s)
    (hWhole : ∀ packet, s.Carries packet → packet.Whole) :
    ∃ reads,
      n.step env .peerCc =
        n.pass
          (ccVisit env ccFuel n.reads
            s).ending.remaining.toList
          (datagrams n.config
            (s, ccVisit env ccFuel n.reads s))
          reads none := by
  have hWay := visit_ccVisit env ccFuel n.reads s
  rcases step_peerCc env hRun with
    ⟨uploads, sent, reads, fault, hStep, hPassed⟩
  rw [hOne, ccPass_single] at hPassed
  have hFault : fault = none := by
    by_contra hNot
    rcases hPassed.broken hNot with ⟨sv, hVisit, hWhich⟩
    rw [List.mem_singleton] at hVisit
    subst hVisit
    rcases hWhich with ⟨f, hFault⟩ | ⟨packet, hPacket, hTorn⟩
    · rcases hWay.outstanding_iff hTracked
          hTracked.ccVisit_not_hang with
        ⟨hEnd | hEnd, _⟩ | ⟨t, hEnd, _⟩
      · rw [hEnd] at hFault
        cases hFault
      · rw [hEnd] at hFault
        cases hFault
      · rw [hEnd] at hFault
        cases hFault
    · exact hTorn (hWhole packet (hWay.queued hPacket))
  subst hFault
  have hSent := hPassed.all rfl
  rcases hPassed.left with hLeft | ⟨_, hNot⟩
  · refine ⟨reads, ?_⟩
    rw [hStep, hLeft, hSent, List.flatMap_singleton]
    unfold leftUploads
    cases hEnd : (ccVisit env ccFuel n.reads s).ending with
    | kept t => simp [hEnd, CcEnd.remaining]
    | finished => simp [hEnd, CcEnd.remaining]
    | dead => simp [hEnd, CcEnd.remaining]
    | fault f => simp [hEnd, CcEnd.remaining]
  · exact absurd rfl hNot

end

end PeerNet

------------------------------------------------------------
-- Runs of a Single Upload
------------------------------------------------------------

namespace PeerNet

open Reassembly Runs PeerNet.System

/- The only upload of `a` has just been made for `b`. -/
structure SingleStart
    (chunk : Bytes)
    (a b : Addr)
    (p : PeerRef)
    (r : ChunkRef)
    (σ : System) : Prop
    extends TransferStart chunk a b p r σ where
  serving : (σ.node a).fault = none
  single : ∃ s, (σ.node a).config.upload = [s] ∧
    (σ.node a).config.sendsTo b s

/- At most one upload is left, and it is tracked. -/
structure SingleInv
    (b : Addr)
    (n : Node) : Prop where
  running : n.fault = none
  single :
    n.config.upload = [] ∨
      ∃ s, n.config.upload = [s] ∧
        n.config.sendsTo b s ∧ Tracked s

/- After a pass every upload has a packet outstanding. -/
def Busy
    (n m : Node) : Prop :=
  ∀ s ∈ n.config.upload, ∀ t ∈ m.config.upload,
    Outstanding s t (m.queue.map Datagram.packet)

/- An upload that would stall has just lost a packet. -/
def SeesStalled
    (env : Env)
    (n : Node) : Prop :=
  ∀ s ∈ n.config.upload, Stalls s → Lost env n.reads s

section

variable {env : Addr → Env} {chunk : Bytes} {a b : Addr}
variable {p : PeerRef} {r : ChunkRef} {σ₀ σ : System}
variable {slots : List (Option Bytes)} {s : BtSender}

/- What the transfer says about the upload's counters. -/
theorem Serving.tracked
    (h : Serving chunk slots s)
    (hFits : Fits slots (chunkParts chunk))
    (hSound : Sound s)
    (hHigh : s.lastSent ≤ s.numPackets) :
    Tracked s where
  toSound := hSound
  few := by
    rw [h.count, length_chunkParts]
    decide
  ackedLow := h.low
  ackedHigh := by
    have hAcked := h.acked
    have hLength := (firstGap_le_length slots).trans hFits.1
    rw [h.count]
    omega
  sentHigh := hHigh

/- A new upload is tracked. -/
theorem tracked_newSender
    (hash : Hash)
    {packets : List Packet}
    (peer : PeerRef)
    (hFew : (packets.length : Int) < 2 ^ 31) :
    Tracked
      (newSender hash (some (packets.map some))
        packets.length peer) where
  toSound := sound_newSender hash packets peer
  few := hFew
  ackedLow := Int.le_refl _
  ackedHigh := Int.natCast_nonneg _
  sentHigh := Int.natCast_nonneg _

theorem SingleStart.inv
    (h : SingleStart chunk a b p r σ) :
    SingleInv b (σ.node a) where
  running := h.serving
  single := by
    right
    rcases h.single with ⟨s, hOne, hTo⟩
    refine ⟨s, hOne, hTo, ?_⟩
    have hLength :
        (dataPackets chunk btChunkSize).length =
          numPackets btChunkSize := by
      rw [dataPackets_eq h.size.ge, length_numbered,
        length_parts]
    have hNew := h.upload s hTo
    rw [← hLength] at hNew
    rw [hNew]
    apply tracked_newSender
    rw [hLength]
    decide

/- What the upload carries is whole, and queued as it is. -/
theorem Serving.whole
    (h : Serving chunk slots s)
    {packet : Packet}
    (hCarries : s.Carries packet) :
    packet.Whole ∧ packet.copy = packet := by
  have hPacket := mem_chunkPackets (h.carries hCarries)
  exact ⟨hPacket.2.1.whole, hPacket.2.2.1⟩

/- A pass keeps the upload tracked, or drops it. -/
theorem SingleInv.pass
    {n : Node}
    (env : Env)
    (h : SingleInv b n)
    (hServing :
      ∀ s, n.config.sendsTo b s → Serving chunk slots s) :
    SingleInv b (n.step env .peerCc) := by
  rcases h.single with hNone | ⟨s, hOne, hTo, hTracked⟩
  · rcases step_peerCc_nil env h.running hNone with
      ⟨reads, hStep⟩
    rw [hStep]
    exact ⟨rfl, .inl rfl⟩
  · rcases step_peerCc_single env h.running hOne
        hTracked
        (fun packet hCarries =>
          ((hServing s hTo).whole hCarries).1) with
      ⟨reads, hStep⟩
    have hWay := visit_ccVisit env ccFuel n.reads s
    rw [hStep]
    rcases hWay.outstanding_iff hTracked
        hTracked.ccVisit_not_hang with
      ⟨hEnd | hEnd, _⟩ | ⟨t, hEnd, hNext, _⟩
    · rw [hEnd]
      exact ⟨rfl, .inl rfl⟩
    · rw [hEnd]
      exact ⟨rfl, .inl rfl⟩
    · rw [hEnd]
      refine ⟨rfl, .inr ⟨t, rfl, ⟨?_, ?_⟩, hNext⟩⟩
      · exact List.mem_cons_self
      · rw [← hTo.2, ← (hWay.kept hEnd).1.peer]
        rfl

/- An ACK leaves one upload one upload. -/
theorem ackedUploads_single
    {c : BtConfig}
    (hOne : c.upload = [s])
    (src : Addr)
    (ackNum : UInt32) :
    ackedUploads c src ackNum = [s] ∨
      ackedUploads c src ackNum = [ackSender ackNum s] := by
  unfold ackedUploads
  rw [hOne]
  split
  · exact .inl rfl
  · unfold updateFirst
    split
    · exact .inr rfl
    · exact .inl rfl

/- An ACK keeps it tracked. -/
theorem SingleInv.ack
    {n : Node}
    (env : Env)
    (src : Addr)
    (packet : Packet)
    (h : SingleInv b n)
    (hFits : Fits slots (chunkParts chunk))
    (hServing :
      ∀ s, (n.step env (.ack src packet)).config.sendsTo b s →
        Serving chunk slots s) :
    SingleInv b (n.step env (.ack src packet)) := by
  rw [step_ack env h.running] at hServing ⊢
  refine ⟨h.running, ?_⟩
  dsimp only
  rcases h.single with hNone | ⟨s, hOne, hTo, hTracked⟩
  · left
    unfold ackedUploads
    rw [hNone]
    split <;> rfl
  · right
    rcases ackedUploads_single hOne src
        packet.header.ackNum with hSame | hAcked
    · rw [hSame]
      exact ⟨s, rfl, ⟨List.mem_cons_self, hTo.2⟩, hTracked⟩
    · rw [hAcked] at hServing ⊢
      have hTo' :
          BtConfig.sendsTo
            { n.config with
              upload :=
                [ackSender packet.header.ackNum s] }
            b (ackSender packet.header.ackNum s) := by
        refine ⟨List.mem_cons_self, ?_⟩
        rw [ackSender_peer]
        exact hTo.2
      refine ⟨_, rfl, hTo', ?_⟩
      apply (hServing _ hTo').tracked hFits
      · exact hTracked.toSound.acked _
      · rw [ackSender_lastSent, ackSender_numPackets]
        exact hTracked.sentHigh

/- Only the queue is taken when messages go out. -/
theorem SingleInv.emptied
    {n : Node}
    (h : SingleInv b n) :
    SingleInv b { n with queue := [] } :=
  ⟨h.running, h.single⟩

theorem SingleInv.step
    {e : SystemEvent}
    (h : SingleInv b (σ.node a))
    (hInv : TransferInv env chunk a b p r σ₀ σ slots)
    (hApart : a ≠ b)
    (hSize : chunk.length = btChunkSize)
    (hAllow : TransferStep a b σ e) :
    SingleInv b ((System.step env σ e).node a) := by
  have hNext := hInv.step hApart hSize hAllow
  cases e with
  | userGet _ _ _ => exact hAllow.elim
  | timeoutCheck _ => exact hAllow.elim
  | getAllTheThingz _ => exact hAllow.elim
  | peerCc x =>
      have hx : x = a := hAllow
      subst hx
      have hNode := step_node env σ
        (show nodeEvent (.peerCc x) = some .peerCc from rfl)
      have hPlace : place (.peerCc x) = x := rfl
      rw [hPlace] at hNode
      rw [hNode]
      exact (h.pass (env x) hInv.uploads).emptied
  | ihave _ _ _ => exact hAllow.elim
  | deliver m =>
      rcases hAllow with
        ⟨_, ⟨_, hDest, _⟩ | ⟨_, hDest, hType⟩⟩
      · have hPlace : place (.deliver m) = b := hDest
        rw [step_node_of_ne]
        · exact h
        · rw [hPlace]
          exact hApart
      · have hPlace : place (.deliver m) = a := hDest
        have hNode := step_node env σ (nodeEvent_ack hType)
        have hUploads := hNext.uploads
        rw [hPlace] at hNode
        rw [hNode] at hUploads ⊢
        exact (h.ack (env a) m.src m.packet hNext.fits
          hUploads).emptied

/- What one pass does to the only upload. -/
theorem SingleInv.busy_iff
    {n : Node}
    (env : Env)
    (h : SingleInv b n)
    (hEmpty : n.queue = [])
    (hServing :
      ∀ s, n.config.sendsTo b s → Serving chunk slots s) :
    Busy n (n.step env .peerCc) ↔ SeesStalled env n := by
  rcases h.single with hNone | ⟨s, hOne, hTo, hTracked⟩
  · unfold Busy SeesStalled
    rw [hNone]
    simp
  · rcases step_peerCc_single env h.running hOne
        hTracked
        (fun packet hCarries =>
          ((hServing s hTo).whole hCarries).1) with
      ⟨reads, hStep⟩
    have hWay := visit_ccVisit env ccFuel n.reads s
    have hQueued :
        (datagrams n.config
            (s, ccVisit env ccFuel n.reads s)).map
            Datagram.packet =
          (ccVisit env ccFuel n.reads s).queued := by
      unfold datagrams
      rw [List.map_map, List.map_congr_left, List.map_id]
      intro packet hPacket
      exact ((hServing s hTo).whole (hWay.queued hPacket)).2
    unfold Busy SeesStalled
    rw [hStep, hOne]
    simp only [Node.pass_config, Node.pass_queue, hEmpty,
      List.nil_append, hQueued, List.forall_mem_singleton]
    rcases hWay.outstanding_iff hTracked
        hTracked.ccVisit_not_hang with
      ⟨hEnd | hEnd, hSeen⟩ | ⟨t, hEnd, _, hIff⟩
    · rw [hEnd]
      simpa [CcEnd.remaining] using hSeen
    · rw [hEnd]
      simpa [CcEnd.remaining] using hSeen
    · rw [hEnd]
      simpa [CcEnd.remaining] using hIff

/-
  In every state of a transfer, a pass leaves the upload with
  a packet outstanding if and only if no ACK overtook it and
  the next window does not overflow, or the pass detects a
  loss.
-/
theorem outstanding_after_pass_iff
    (hStart : SingleStart chunk a b p r σ₀)
    (hRun :
      Reaches (System.step env) (TransferStep a b) σ₀ σ) :
    Busy (σ.node a) ((σ.node a).step (env a) .peerCc) ↔
      SeesStalled (env a) (σ.node a) := by
  have hBoth :
      ∃ slots,
        TransferInv env chunk a b p r σ₀ σ slots ∧
          SingleInv b (σ.node a) := by
    apply hRun.invariant
      (I := fun τ => ∃ slots,
        TransferInv env chunk a b p r σ₀ τ slots ∧
          SingleInv b (τ.node a))
    · exact ⟨[], hStart.toTransferStart.inv, hStart.inv⟩
    · intro τ e hτ hAllow
      rcases hτ with ⟨slots, hInv, hSingle⟩
      exact ⟨stepSlots slots e,
        hInv.step hStart.apart hStart.size hAllow,
        hSingle.step hInv hStart.apart hStart.size hAllow⟩
  rcases hBoth with ⟨slots, hInv, hSingle⟩
  exact hSingle.busy_iff (env a) hInv.sent hInv.uploads

end

end PeerNet

------------------------------------------------------------
-- A Late ACK
------------------------------------------------------------

namespace PeerNet

open Runs PeerNet.System

/- A clock that stands still but for one jump. -/
def jumpEnv : Env :=
  { stillEnv with
    clock := fun k => if k < 4 then 1000 else 10000 }

theorem servingSystem_single :
    SingleStart zeroChunk ⟨1, 1⟩ ⟨2, 2⟩ 0 0
      servingSystem where
  toTransferStart := servingSystem_start
  serving := rfl
  single := ⟨_, rfl, List.mem_cons_self, rfl⟩

/- The first packet is sent. -/
def onePassSystem : System :=
  foldSteps (step fun _ => jumpEnv) servingSystem
    [.peerCc ⟨1, 1⟩]

theorem outstanding_after_pass_iff_zeros :
    Busy (onePassSystem.node ⟨1, 1⟩)
        ((onePassSystem.node ⟨1, 1⟩).step jumpEnv .peerCc) ↔
      SeesStalled jumpEnv (onePassSystem.node ⟨1, 1⟩) := by
  have hRun :
      Reaches (step fun _ => jumpEnv)
        (TransferStep ⟨1, 1⟩ ⟨2, 2⟩) servingSystem
        onePassSystem :=
    reaches_foldSteps ⟨rfl, trivial⟩
  have hIff :=
    outstanding_after_pass_iff servingSystem_single hRun
  exact hIff

def dataMessage
    (i : Int) : Message where
  src := ⟨1, 1⟩
  dest := ⟨2, 2⟩
  packet :=
    dataPacket i (List.replicate maxDataSize 0)
  tag := 0

def ackMessage
    (k : Int) : Message where
  src := ⟨2, 2⟩
  dest := ⟨1, 1⟩
  packet := ackPacket k
  tag := 0

/-
  Packets 2 and 3 are sent in one window; a timeout sets
  `last_sent` back to 2, and then the ACK of 3 comes.
-/
def lateAck : List SystemEvent :=
  [.peerCc ⟨1, 1⟩, .deliver (dataMessage 1),
    .deliver (ackMessage 1), .peerCc ⟨1, 1⟩,
    .deliver (dataMessage 2), .deliver (dataMessage 3),
    .peerCc ⟨1, 1⟩, .deliver (ackMessage 3)]

def lateSystem : System :=
  foldSteps (step fun _ => jumpEnv) servingSystem lateAck

theorem lateSystem_run :
    Reaches (step fun _ => jumpEnv)
      (TransferStep ⟨1, 1⟩ ⟨2, 2⟩) servingSystem
      lateSystem := by
  have hData : ∀ i : Int,
      (dataMessage i).src = ⟨1, 1⟩ ∧
        (dataMessage i).dest = ⟨2, 2⟩ ∧
        (dataMessage i).packet.header.type = typeData :=
    fun _ => ⟨rfl, rfl, rfl⟩
  have hAck : ∀ k : Int,
      (ackMessage k).src = ⟨2, 2⟩ ∧
        (ackMessage k).dest = ⟨1, 1⟩ ∧
        (ackMessage k).packet.header.type = typeAck :=
    fun _ => ⟨rfl, rfl, rfl⟩
  apply reaches_foldSteps
  refine ⟨rfl, ⟨?_, .inl (hData 1)⟩, ⟨?_, .inr (hAck 1)⟩, rfl,
    ⟨?_, .inl (hData 2)⟩, ⟨?_, .inl (hData 3)⟩, rfl,
    ⟨?_, .inr (hAck 3)⟩, trivial⟩
  · decide +kernel
  · decide +kernel
  · decide +kernel
  · decide +kernel
  · decide +kernel

/- The next pass waits, and nothing is outstanding. -/
theorem late_ack_stalls :
    ¬ ∀ (env : Addr → Env) (chunk : Bytes) (a b : Addr)
        (p : PeerRef) (r : ChunkRef) (σ₀ σ : System),
      SingleStart chunk a b p r σ₀ →
        Reaches (step env) (TransferStep a b) σ₀ σ →
          Busy (σ.node a)
            ((σ.node a).step (env a) .peerCc) := by
  intro hClaim
  have hBusy :
      Busy (lateSystem.node ⟨1, 1⟩)
        ((lateSystem.node ⟨1, 1⟩).step jumpEnv .peerCc) :=
    hClaim (fun _ => jumpEnv) zeroChunk ⟨1, 1⟩ ⟨2, 2⟩ 0 0
      servingSystem _ servingSystem_single lateSystem_run
  have hBefore :
      0 < (lateSystem.node ⟨1, 1⟩).config.upload.length := by
    decide +kernel
  have hAfter :
      ((lateSystem.node ⟨1, 1⟩).step jumpEnv
        .peerCc).config.upload.any
        (fun t => t.lastSent ≤ t.lastAcked) = true := by
    decide +kernel
  rcases List.exists_mem_of_length_pos hBefore with ⟨s, hs⟩
  rcases List.any_eq_true.mp hAfter with ⟨t, ht, hLe⟩
  have hBehind := (hBusy s hs t ht).behind
  exact absurd hBehind
    (Int.not_lt.mpr (of_decide_eq_true hLe))

end PeerNet
