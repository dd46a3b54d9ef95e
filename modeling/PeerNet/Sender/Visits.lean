import PeerNet.Receiver.Steps

/-
  What the sending side does to uploads and the queue.

  A pass of `peer_cc` visits every upload once. A visit
  leaves the packets, the peer and `last_acked` of an upload
  alone and queues only packets the upload carries; an
  upload is `finished` only where all its packets are
  acknowledged. An ACK changes one upload's counters.

  Main declarations:
    * `SameUpload`
    * `Visit`
    * `visit_ccVisit`
    * `step_peerCc`
    * `step_ack`
-/

------------------------------------------------------------
-- One Upload
------------------------------------------------------------

namespace PeerNet

/- What no pass changes in an upload. -/
structure SameUpload
    (s t : BtSender) : Prop where
  hash : t.hash = s.hash
  packets : t.packets = s.packets
  numPackets : t.numPackets = s.numPackets
  lastAcked : t.lastAcked = s.lastAcked
  peer : t.peer = s.peer

theorem SameUpload.refl
    (s : BtSender) :
    SameUpload s s :=
  ⟨rfl, rfl, rfl, rfl, rfl⟩

theorem SameUpload.trans
    {s t u : BtSender}
    (h : SameUpload s t)
    (h' : SameUpload t u) :
    SameUpload s u where
  hash := h'.hash.trans h.hash
  packets := h'.packets.trans h.packets
  numPackets := h'.numPackets.trans h.numPackets
  lastAcked := h'.lastAcked.trans h.lastAcked
  peer := h'.peer.trans h.peer

/- The packet is one of the upload's. -/
def BtSender.Carries
    (s : BtSender)
    (packet : Packet) : Prop :=
  ∃ packets, s.packets = some packets ∧
    some packet ∈ packets

theorem SameUpload.carries
    {s t : BtSender}
    (h : SameUpload s t)
    {packet : Packet}
    (hCarries : t.Carries packet) :
    s.Carries packet := by
  unfold BtSender.Carries at hCarries ⊢
  rw [← h.packets]
  exact hCarries

/- `packet_sender` sends packets of its array. -/
theorem mem_sendPackets
    {packets : List (Option Packet)}
    {count : Nat}
    {i : Int}
    {packet : Packet}
    (hSent : packet ∈ (sendPackets packets count i).1) :
    some packet ∈ packets := by
  induction count generalizing i with
  | zero => simp [sendPackets] at hSent
  | succ count ih =>
      unfold sendPackets at hSent
      split at hSent
      · simp at hSent
      · split at hSent
        · simp at hSent
        · simp at hSent
        · next first hFirst =>
            rcases List.mem_cons.mp hSent with hHead | hTail
            · rw [hHead]
              exact List.mem_of_getElem? hFirst
            · exact ih hTail

section

variable {env : Env} {reads fuel : Nat} {s t : BtSender}
variable {start : Int} {packet : Packet}

theorem packetSender_same :
    SameUpload s (packetSender env reads s start).sender := by
  unfold packetSender
  split
  · exact .refl s
  · dsimp only
    split
    · exact .refl s
    · exact .refl s
    · exact ⟨rfl, rfl, rfl, rfl, rfl⟩

theorem packetSender_queued
    (hQueued :
      packet ∈ (packetSender env reads s start).queued) :
    s.Carries packet := by
  unfold packetSender at hQueued
  split at hQueued
  · simp at hQueued
  · next packets hPackets =>
      refine ⟨packets, hPackets, ?_⟩
      dsimp only at hQueued
      split at hQueued
      · exact mem_sendPackets hQueued
      · exact mem_sendPackets hQueued
      · exact mem_sendPackets hQueued

end

end PeerNet

------------------------------------------------------------
-- One Visit
------------------------------------------------------------

namespace PeerNet

/- The upload after the two loss tests. -/
def charged
    (env : Env)
    (reads : Nat)
    (s : BtSender) : BtSender :=
  { s with dropped := chargedDropped env reads s }

/- A loss was detected. -/
def Lost
    (env : Env)
    (reads : Nat)
    (s : BtSender) : Prop :=
  lostPacket s ∨ timedOut env reads s

/- The retransmission for a loss. -/
def resend
    (env : Env)
    (reads : Nat)
    (s : BtSender) : SendResult :=
  packetSender env (reads + 1)
    (collapseWindow (charged env reads s))
    (wrapInt (s.lastAcked + 1))

/- The next window. -/
def sendNext
    (env : Env)
    (reads : Nat)
    (s : BtSender) : SendResult :=
  packetSender env (reads + 1) (charged env reads s)
    (wrapInt (s.lastAcked + 1))

/- The loop goes past its test for a finished upload. -/
structure Open
    (env : Env)
    (reads : Nat)
    (s : BtSender) : Prop where
  unfinished : s.numPackets ≠ s.lastAcked
  alive : ¬ 5 < (charged env reads s).dropped

/- The ways through the loop of `peer_cc` on one upload. -/
inductive Visit
    (env : Env) : Nat → BtSender → CcVisit → Prop
| hang (reads : Nat) (s : BtSender) :
    Visit env reads s ⟨.fault .hang, reads, [], 0, 0⟩
| finished (reads : Nat) (s : BtSender) :
    s.numPackets = s.lastAcked →
    Visit env reads s ⟨.finished, reads, [], 0, 0⟩
| dead (reads : Nat) (s : BtSender) :
    s.numPackets ≠ s.lastAcked →
    5 < (charged env reads s).dropped →
    Visit env reads s
      ⟨.dead, reads + 1, [], lossCharges env reads s, 0⟩
| resent (reads : Nat) (s : BtSender) (v : CcVisit) :
    Open env reads s →
    Lost env reads s →
    (resend env reads s).inRange = true →
    Visit env (resend env reads s).reads
      (resend env reads s).sender v →
    Visit env reads s
      (v.after (resend env reads s).queued
        (lossCharges env reads s) 1)
| resentOut (reads : Nat) (s : BtSender) :
    Open env reads s →
    Lost env reads s →
    (resend env reads s).inRange = false →
    Visit env reads s
      ⟨.fault .packetIndex, (resend env reads s).reads,
        (resend env reads s).queued,
        lossCharges env reads s, 1⟩
| sent (reads : Nat) (s : BtSender) :
    Open env reads s →
    ¬ Lost env reads s →
    s.lastAcked = s.lastSent →
    (sendNext env reads s).inRange = true →
    Visit env reads s
      ⟨.kept (sendNext env reads s).sender,
        (sendNext env reads s).reads,
        (sendNext env reads s).queued, 0, 0⟩
| sentOut (reads : Nat) (s : BtSender) :
    Open env reads s →
    ¬ Lost env reads s →
    s.lastAcked = s.lastSent →
    (sendNext env reads s).inRange = false →
    Visit env reads s
      ⟨.fault .packetIndex, (sendNext env reads s).reads,
        (sendNext env reads s).queued, 0, 0⟩
| waiting (reads : Nat) (s : BtSender) :
    Open env reads s →
    ¬ Lost env reads s →
    s.lastAcked ≠ s.lastSent →
    Visit env reads s
      ⟨.kept (charged env reads s), reads + 1, [], 0, 0⟩

/- `ccVisit` takes one of these ways. -/
theorem visit_ccVisit
    (env : Env)
    (fuel reads : Nat)
    (s : BtSender) :
    Visit env reads s (ccVisit env fuel reads s) := by
  induction fuel generalizing reads s with
  | zero => exact .hang reads s
  | succ fuel ih =>
      unfold ccVisit
      split
      · next hAll => exact .finished reads s hAll
      next hUnfinished =>
      dsimp only
      split
      · next hDead => exact .dead reads s hUnfinished hDead
      next hAlive =>
      have hOpen : Open env reads s := ⟨hUnfinished, hAlive⟩
      split
      · next hLost =>
          split
          · next hIn =>
              exact .resent reads s _ hOpen hLost hIn
                (ih _ _)
          · next hOut =>
              exact .resentOut reads s hOpen hLost
                (Bool.eq_false_iff.mpr hOut)
      next hQuiet =>
      split
      · next hAcked =>
          split
          · next hIn =>
              exact .sent reads s hOpen hQuiet hAcked hIn
          · next hOut =>
              exact .sentOut reads s hOpen hQuiet hAcked
                (Bool.eq_false_iff.mpr hOut)
      · next hBehind =>
          exact .waiting reads s hOpen hQuiet hBehind

section

variable {env : Env} {reads : Nat} {s t : BtSender}
variable {v : CcVisit} {packet : Packet}

theorem charged_same :
    SameUpload s (charged env reads s) :=
  ⟨rfl, rfl, rfl, rfl, rfl⟩

theorem resend_same :
    SameUpload s (resend env reads s).sender := by
  have hCollapse :
      SameUpload s
        (collapseWindow (charged env reads s)) :=
    ⟨rfl, rfl, rfl, rfl, rfl⟩
  exact hCollapse.trans packetSender_same

theorem sendNext_same :
    SameUpload s (sendNext env reads s).sender :=
  charged_same.trans packetSender_same

/- An upload that stays is not finished, and is the same. -/
theorem Visit.kept
    (h : Visit env reads s v)
    (hEnd : v.ending = .kept t) :
    SameUpload s t ∧ s.numPackets ≠ s.lastAcked := by
  induction h with
  | hang => cases hEnd
  | finished => cases hEnd
  | dead => cases hEnd
  | resent reads s v hOpen _ _ _ ih =>
      exact ⟨resend_same.trans (ih hEnd).1,
        hOpen.unfinished⟩
  | resentOut => cases hEnd
  | sent reads s hOpen =>
      rw [← CcEnd.kept.inj hEnd]
      exact ⟨sendNext_same, hOpen.unfinished⟩
  | sentOut => cases hEnd
  | waiting reads s hOpen =>
      rw [← CcEnd.kept.inj hEnd]
      exact ⟨charged_same, hOpen.unfinished⟩

/- A finished upload has every packet acknowledged. -/
theorem Visit.finished_acked
    (h : Visit env reads s v)
    (hEnd : v.ending = .finished) :
    s.numPackets = s.lastAcked := by
  induction h with
  | hang => cases hEnd
  | finished reads s hAll => exact hAll
  | dead => cases hEnd
  | resent reads s v _ _ _ _ ih =>
      rw [← resend_same.numPackets, ih hEnd,
        resend_same.lastAcked]
  | resentOut => cases hEnd
  | sent => cases hEnd
  | sentOut => cases hEnd
  | waiting => cases hEnd

/- A visit queues only what the upload carries. -/
theorem Visit.queued
    (h : Visit env reads s v)
    (hQueued : packet ∈ v.queued) :
    s.Carries packet := by
  have hResend :
      ∀ reads s, packet ∈ (resend env reads s).queued →
        s.Carries packet := by
    intro reads s hRound
    have hSame :
        SameUpload s
          (collapseWindow (charged env reads s)) :=
      ⟨rfl, rfl, rfl, rfl, rfl⟩
    exact hSame.carries (packetSender_queued hRound)
  have hNext :
      ∀ reads s, packet ∈ (sendNext env reads s).queued →
        s.Carries packet := by
    intro reads s hRound
    exact charged_same.carries (packetSender_queued hRound)
  induction h with
  | hang => cases hQueued
  | finished => cases hQueued
  | dead => cases hQueued
  | resent reads s v _ _ _ _ ih =>
      rcases List.mem_append.mp hQueued with hRound | hLater
      · exact hResend reads s hRound
      · exact resend_same.carries (ih hLater)
  | resentOut reads s => exact hResend reads s hQueued
  | sent reads s => exact hNext reads s hQueued
  | sentOut reads s => exact hNext reads s hQueued
  | waiting => cases hQueued

end

/- A pass visits the uploads it was given. -/
theorem mem_ccPass
    {env : Env}
    {reads : Nat}
    {uploads : List BtSender}
    {sv : BtSender × CcVisit}
    (hVisit : sv ∈ ccPass env reads uploads) :
    sv.1 ∈ uploads ∧
      ∃ reads', Visit env reads' sv.1 sv.2 := by
  induction uploads generalizing reads with
  | nil => simp [ccPass] at hVisit
  | cons s uploads ih =>
      unfold ccPass at hVisit
      dsimp only at hVisit
      split at hVisit
      · rw [List.mem_singleton] at hVisit
        subst hVisit
        exact ⟨List.mem_cons_self, reads,
          visit_ccVisit env ccFuel reads s⟩
      · rcases List.mem_cons.mp hVisit with rfl | hRest
        · exact ⟨List.mem_cons_self, reads,
            visit_ccVisit env ccFuel reads s⟩
        · rcases ih hRest with ⟨hMem, hIs⟩
          exact ⟨List.mem_cons_of_mem _ hMem, hIs⟩

end PeerNet

------------------------------------------------------------
-- A Pass at a Process
------------------------------------------------------------

namespace PeerNet

open Prog

/- What a visit queues. -/
def datagrams
    (c : BtConfig)
    (sv : BtSender × CcVisit) : List Datagram :=
  sv.2.queued.map fun packet =>
    ⟨packet.copy, (c.peer sv.1.peer).addr⟩

/- A visit stops at a fault or queues a torn packet. -/
def Broken
    (visits : List (BtSender × CcVisit)) : Prop :=
  ∃ sv ∈ visits,
    (∃ f, sv.2.ending = .fault f) ∨
      ∃ packet ∈ sv.2.queued, ¬ packet.Whole

/- The queue of a process, with more datagrams. -/
def Node.enqueue
    (new : List Datagram)
    (n : Node) : Node :=
  { n with queue := n.queue ++ new }

theorem Node.enqueue_append
    (new new' : List Datagram)
    (n : Node) :
    n.enqueue (new ++ new') = (n.enqueue new).enqueue new' := by
  simp [Node.enqueue]

/- The loop over the packets of one visit. -/
theorem queueVisit_spec
    (c : BtConfig)
    (sv : BtSender × CcVisit)
    (n : Node) :
    wp (queueVisit c sv)
      (fun _ m => m = n.enqueue (datagrams c sv))
      (fun _ m => Broken [sv] ∧
        ∃ new, m = n.enqueue new ∧
          ∀ d ∈ new, d ∈ datagrams c sv) n := by
  have hLoop :=
    wp_forM_done (s := n)
      (I := fun done m =>
        m = n.enqueue (done.map fun packet =>
          ⟨packet.copy, (c.peer sv.1.peer).addr⟩) ∧
          ∀ packet ∈ done, packet ∈ sv.2.queued)
      (f := fun packet =>
        packetNew packet (c.peer sv.1.peer).addr)
      (E := fun _ m => Broken [sv] ∧
        ∃ new, m = n.enqueue new ∧
          ∀ d ∈ new, d ∈ datagrams c sv)
      sv.2.queued
  have hStart := hLoop ?_ [] ⟨by simp [Node.enqueue], by simp⟩
  · apply wp_mono hStart
    · intro _ m hm
      exact hm.1
    · exact fun _ _ h => h
  · intro done packet hPacket m hm
    rcases hm with ⟨rfl, hDone⟩
    have hTorn : ¬ packet.Whole →
        Broken [sv] ∧
          ∃ new,
            n.enqueue (done.map fun packet =>
                ⟨packet.copy, (c.peer sv.1.peer).addr⟩) =
              n.enqueue new ∧
            ∀ d ∈ new, d ∈ datagrams c sv := by
      intro hNot
      refine ⟨⟨sv, List.mem_cons_self, .inr
        ⟨packet, hPacket, hNot⟩⟩, _, rfl, ?_⟩
      intro d hd
      rcases List.mem_map.mp hd with ⟨q, hq, rfl⟩
      exact List.mem_map_of_mem (hDone q hq)
    apply wp_packetNew_copy
    · intro _
      refine ⟨?_, ?_⟩
      · simp [Node.enqueue, Node.push]
      · intro q hq
        rcases List.mem_append.mp hq with hOld | hLast
        · exact hDone q hOld
        · rw [List.mem_singleton.mp hLast]
          exact hPacket
    · exact hTorn
    · exact hTorn

/- The loop over the visits. -/
theorem queueVisits_spec
    (c : BtConfig)
    (visits : List (BtSender × CcVisit))
    (n : Node) :
    wp (visits.forM (queueVisit c))
      (fun _ m =>
        m = n.enqueue (visits.flatMap (datagrams c)))
      (fun _ m => Broken visits ∧
        ∃ new, m = n.enqueue new ∧
          ∀ d ∈ new, d ∈ visits.flatMap (datagrams c))
      n := by
  have hLoop :=
    wp_forM_done (s := n)
      (I := fun done m =>
        m = n.enqueue (done.flatMap (datagrams c)) ∧
          ∀ sv ∈ done, sv ∈ visits)
      (f := queueVisit c)
      (E := fun _ m => Broken visits ∧
        ∃ new, m = n.enqueue new ∧
          ∀ d ∈ new, d ∈ visits.flatMap (datagrams c))
      visits
  have hStart := hLoop ?_ [] ⟨by simp [Node.enqueue], by simp⟩
  · apply wp_mono hStart
    · intro _ m hm
      exact hm.1
    · exact fun _ _ h => h
  · intro done sv hVisit m hm
    rcases hm with ⟨rfl, hDone⟩
    apply wp_mono (queueVisit_spec c sv _)
    · intro _ m hm
      refine ⟨?_, ?_⟩
      · rw [hm, List.flatMap_append, Node.enqueue_append,
          List.flatMap_singleton]
      · intro tv htv
        rcases List.mem_append.mp htv with hOld | hLast
        · exact hDone tv hOld
        · rw [List.mem_singleton.mp hLast]
          exact hVisit
    · intro f m hm
      rcases hm with ⟨hBroken, new, hm, hNew⟩
      rcases hBroken with ⟨tv, htv, hWhich⟩
      rw [List.mem_singleton] at htv
      refine ⟨⟨tv, htv ▸ hVisit, hWhich⟩,
        done.flatMap (datagrams c) ++ new, ?_, ?_⟩
      · rw [hm, Node.enqueue_append]
      · intro d hd
        rw [List.mem_flatMap]
        rcases List.mem_append.mp hd with hOld | hLast
        · rcases List.mem_flatMap.mp hOld with
            ⟨uv, huv, hMem⟩
          exact ⟨uv, hDone uv huv, hMem⟩
        · exact ⟨sv, hVisit, hNew d hLast⟩

/- The uploads that are left after a pass. -/
def leftUploads
    (visits : List (BtSender × CcVisit)) : List BtSender :=
  visits.filterMap (·.2.ending.remaining)

/- What a pass makes of a process. -/
structure Passed
    (c : BtConfig)
    (visits : List (BtSender × CcVisit))
    (uploads : List BtSender)
    (sent : List Datagram)
    (fault : Option Fault) : Prop where
  left :
    uploads = leftUploads visits ∨
      uploads = c.upload ∧ fault ≠ none
  sound : ∀ d ∈ sent, d ∈ visits.flatMap (datagrams c)
  all :
    fault = none → sent = visits.flatMap (datagrams c)
  broken : fault ≠ none → Broken visits

/- A process after a pass. -/
@[simps config queue trace fault]
def Node.pass
    (uploads : List BtSender)
    (new : List Datagram)
    (reads : Nat)
    (fault : Option Fault)
    (n : Node) : Node :=
  { n with
    config := { n.config with upload := uploads }
    queue := n.queue ++ new
    reads := reads
    fault := fault }

theorem peerCc_spec
    (env : Env)
    (n : Node) :
    wp (peerCc env)
      (fun _ m => ∃ reads,
        m =
          n.pass
            (leftUploads
              (ccPass env n.reads n.config.upload))
            ((ccPass env n.reads
              n.config.upload).flatMap
              (datagrams n.config))
            reads n.fault)
      (fun _ m => ∃ uploads new reads,
        m = n.pass uploads new reads n.fault ∧
          (uploads =
              leftUploads
                (ccPass env n.reads n.config.upload) ∨
            uploads = n.config.upload) ∧
          (∀ d ∈ new,
            d ∈ (ccPass env n.reads
              n.config.upload).flatMap
              (datagrams n.config)) ∧
          Broken (ccPass env n.reads n.config.upload))
      n := by
  unfold peerCc
  rw [wp_bind, wp_get]
  dsimp only
  rw [wp_bind]
  apply wp_mono (queueVisits_spec n.config _ n)
  · intro _ m hm
    rw [hm, wp_bind, wp_modify]
    split
    · next hLast =>
        refine ⟨_, _, _, rfl, .inl rfl, fun d hd => hd, ?_⟩
        exact ⟨_, List.mem_of_getLast? hLast, .inl ⟨_, rfl⟩⟩
    · exact ⟨_, rfl⟩
  · intro f m hm
    rcases hm with ⟨hBroken, new, hm, hNew⟩
    exact ⟨_, new, n.reads, hm, .inr rfl, hNew, hBroken⟩

/- `peer_cc` changes uploads, the queue and the clock. -/
theorem step_peerCc
    (env : Env)
    {n : Node}
    (hRun : n.fault = none) :
    ∃ uploads new reads fault,
      n.step env .peerCc = n.pass uploads new reads fault ∧
        Passed n.config (ccPass env n.reads n.config.upload)
          uploads new fault := by
  have hSpec := peerCc_spec env n
  unfold Node.step handle Node.exec
  simp only [hRun, Option.isSome_none, Bool.false_eq_true,
    if_false]
  unfold wp at hSpec
  cases hResult : peerCc env n with
  | ok a m =>
      rw [hResult] at hSpec
      rcases hSpec with ⟨reads, hm⟩
      refine ⟨_, _, reads, none, ?_, .inl rfl,
        fun d hd => hd, fun _ => rfl, fun h => absurd rfl h⟩
      rw [← hRun]
      exact hm
  | error f m =>
      rw [hResult] at hSpec
      rcases hSpec with
        ⟨uploads, new, reads, hm, hUploads, hNew, hBroken⟩
      refine ⟨uploads, new, reads, some f, ?_, ?_, hNew,
        fun h => (by cases h), fun _ => hBroken⟩
      · simp only
        rw [hm]
        rfl
      · rcases hUploads with hLeft | hSame
        · exact .inl hLeft
        · exact .inr ⟨hSame, by simp⟩

end PeerNet

------------------------------------------------------------
-- An ACK at a Process
------------------------------------------------------------

namespace PeerNet

open Prog

theorem updateFirst_of_find?
    {α : Type}
    {p : α → Bool}
    {f : α → α}
    {xs : List α}
    (hNone : xs.find? p = none) :
    updateFirst p f xs = xs := by
  induction xs with
  | nil => rfl
  | cons x xs ih =>
      rw [List.find?_cons] at hNone
      cases hx : p x with
      | true => simp [hx] at hNone
      | false =>
          simp only [hx] at hNone
          simp [updateFirst, hx, ih hNone]

/- An updated entry comes from one of the list. -/
theorem mem_updateFirst
    {α : Type}
    {p : α → Bool}
    {f : α → α}
    {xs : List α}
    {y : α}
    (hy : y ∈ updateFirst p f xs) :
    y ∈ xs ∨ ∃ x ∈ xs, p x = true ∧ y = f x := by
  induction xs with
  | nil => cases hy
  | cons x xs ih =>
      unfold updateFirst at hy
      split at hy
      · next hx =>
          rcases List.mem_cons.mp hy with hHead | hTail
          · exact .inr ⟨x, List.mem_cons_self, hx, hHead⟩
          · exact .inl (List.mem_cons_of_mem _ hTail)
      · rcases List.mem_cons.mp hy with hHead | hTail
        · exact .inl (hHead ▸ List.mem_cons_self)
        · rcases ih hTail with hOld | ⟨z, hz, hpz, hEq⟩
          · exact .inl (List.mem_cons_of_mem _ hOld)
          · exact .inr
              ⟨z, List.mem_cons_of_mem _ hz, hpz, hEq⟩

section

variable (ackNum : UInt32) (s : BtSender)

@[simp] theorem growWindow_lastAcked :
    (growWindow s).lastAcked = s.lastAcked := by
  unfold growWindow
  split
  · rfl
  · split <;> rfl

@[simp] theorem growWindow_packets :
    (growWindow s).packets = s.packets := by
  unfold growWindow
  split
  · rfl
  · split <;> rfl

@[simp] theorem growWindow_numPackets :
    (growWindow s).numPackets = s.numPackets := by
  unfold growWindow
  split
  · rfl
  · split <;> rfl

@[simp] theorem growWindow_peer :
    (growWindow s).peer = s.peer := by
  unfold growWindow
  split
  · rfl
  · split <;> rfl

theorem growWindow_dropped :
    (growWindow s).dropped = s.dropped := by
  unfold growWindow
  split
  · rfl
  · split <;> rfl

theorem growWindow_lastSent :
    (growWindow s).lastSent = s.lastSent := by
  unfold growWindow
  split
  · rfl
  · split <;> rfl

/- The window never shrinks with an ACK. -/
theorem ackSender_windowSize :
    s.windowSize ≤ (ackSender ackNum s).windowSize := by
  have hSame : (countAck ackNum s).windowSize = s.windowSize := by
    unfold countAck
    split
    · rfl
    · split <;> rfl
  unfold ackSender growWindow
  rw [hSame]
  split
  · dsimp only
    omega
  · split
    · dsimp only
      omega
    · exact Int.le_refl _

theorem ackSender_lastSent :
    (ackSender ackNum s).lastSent = s.lastSent := by
  unfold ackSender countAck
  rw [growWindow_lastSent]
  split
  · rfl
  · split <;> rfl

@[simp] theorem ackSender_packets :
    (ackSender ackNum s).packets = s.packets := by
  unfold ackSender countAck
  rw [growWindow_packets]
  split
  · rfl
  · split <;> rfl

@[simp] theorem ackSender_numPackets :
    (ackSender ackNum s).numPackets = s.numPackets := by
  unfold ackSender countAck
  rw [growWindow_numPackets]
  split
  · rfl
  · split <;> rfl

@[simp] theorem ackSender_peer :
    (ackSender ackNum s).peer = s.peer := by
  unfold ackSender countAck
  rw [growWindow_peer]
  split
  · rfl
  · split <;> rfl

/- An ACK raises `last_acked` to its number, or not at all. -/
theorem ackSender_lastAcked :
    (ackSender ackNum s).lastAcked =
      if toUInt32 s.lastAcked < ackNum.toNat then
        toInt32 ackNum
      else
        s.lastAcked := by
  unfold ackSender countAck
  rw [growWindow_lastAcked]
  by_cases hSame : toUInt32 s.lastAcked = ackNum.toNat
  · simp only [hSame, if_true, Nat.lt_irrefl, if_false]
  · simp only [hSame, if_false]
    by_cases hLess : toUInt32 s.lastAcked < ackNum.toNat
    · simp only [hLess, if_true]
    · simp only [hLess, if_false]

end

/- The uploads after an ACK. -/
def ackedUploads
    (c : BtConfig)
    (src : Addr)
    (ackNum : UInt32) : List BtSender :=
  match peerWithAddr src c with
  | none => c.upload
  | some peer =>
      updateFirst (c.uploadsTo peer) (ackSender ackNum)
        c.upload

/- `process_ack` changes nothing else. -/
theorem step_ack
    (env : Env)
    {n : Node}
    {src : Addr}
    {packet : Packet}
    (hRun : n.fault = none) :
    n.step env (.ack src packet) =
      { n with
        config :=
          { n.config with
            upload :=
              ackedUploads n.config src
                packet.header.ackNum } } := by
  have hSpec :
      wp (processAck src packet)
        (fun _ m =>
          m =
            { n with
              config :=
                { n.config with
                  upload :=
                    ackedUploads n.config src
                      packet.header.ackNum } })
        (fun _ _ => False) n := by
    unfold processAck ackedUploads
    rw [wp_bind, wp_get]
    dsimp only
    cases peerWithAddr src n.config with
    | none => rfl
    | some peer =>
        dsimp only
        cases hFind : findSenderList n.config peer with
        | none =>
            rw [updateFirst_of_find? hFind]
            rfl
        | some s => rfl
  unfold Node.step handle
  rw [Node.exec_discard]
  unfold Node.exec
  simp only [hRun, Option.isSome_none, Bool.false_eq_true,
    if_false]
  unfold wp at hSpec
  cases hResult : processAck src packet n with
  | ok a m =>
      rw [hResult] at hSpec
      rw [← hRun]
      exact hSpec
  | error f m =>
      rw [hResult] at hSpec
      exact hSpec.elim

end PeerNet

------------------------------------------------------------
-- Uploads to One Address
------------------------------------------------------------

namespace PeerNet

/- An upload goes to an address. -/
def BtConfig.sendsTo
    (c : BtConfig)
    (dest : Addr)
    (s : BtSender) : Prop :=
  s ∈ c.upload ∧ (c.peer s.peer).addr = dest

section

variable {env : Env} {n : Node} {dest src : Addr}
variable {t : BtSender} {packet : Packet} {d : Datagram}

/- An upload that is left after a pass was there before. -/
theorem step_peerCc_uploads
    (h : (n.step env .peerCc).config.sendsTo dest t) :
    ∃ s, n.config.sendsTo dest s ∧ SameUpload s t := by
  cases hRun : n.fault with
  | some f =>
      rw [step_of_fault _ _ hRun] at h
      exact ⟨t, h, .refl t⟩
  | none =>
      rcases step_peerCc env hRun with
        ⟨uploads, new, reads, fault, hStep, hPassed⟩
      rw [hStep] at h
      rcases h with ⟨hMem, hDest⟩
      simp only [Node.pass_config] at hMem hDest
      rcases hPassed.left with hLeft | ⟨hAll, _⟩
      · rw [hLeft, leftUploads, List.mem_filterMap] at hMem
        rcases hMem with ⟨sv, hVisit, hLeftOver⟩
        rcases mem_ccPass hVisit with ⟨hOld, _, hWay⟩
        have hEnd : sv.2.ending = .kept t := by
          cases hIs : sv.2.ending with
          | kept u => simpa [hIs, CcEnd.remaining] using hLeftOver
          | finished => simp [hIs, CcEnd.remaining] at hLeftOver
          | dead => simp [hIs, CcEnd.remaining] at hLeftOver
          | fault f => simp [hIs, CcEnd.remaining] at hLeftOver
        have hSame := (hWay.kept hEnd).1
        refine ⟨sv.1, ⟨hOld, ?_⟩, hSame⟩
        rw [← hSame.peer]
        exact hDest
      · rw [hAll] at hMem
        exact ⟨t, ⟨hMem, hDest⟩, .refl t⟩

/- What a pass queues belongs to an upload. -/
theorem step_peerCc_queue
    (h : d ∈ (n.step env .peerCc).queue) :
    d ∈ n.queue ∨
      ∃ s packet, n.config.sendsTo d.destAddr s ∧
        s.Carries packet ∧ d.packet = packet.copy := by
  cases hRun : n.fault with
  | some f =>
      rw [step_of_fault _ _ hRun] at h
      exact .inl h
  | none =>
      rcases step_peerCc env hRun with
        ⟨uploads, new, reads, fault, hStep, hPassed⟩
      rw [hStep] at h
      rcases List.mem_append.mp h with hOld | hNew
      · exact .inl hOld
      · right
        rcases List.mem_flatMap.mp (hPassed.sound d hNew) with
          ⟨sv, hVisit, hSent⟩
        rcases List.mem_map.mp hSent with
          ⟨packet, hPacket, rfl⟩
        rcases mem_ccPass hVisit with ⟨hMem, _, hWay⟩
        exact ⟨sv.1, packet, ⟨hMem, rfl⟩,
          hWay.queued hPacket, rfl⟩

/-
  After an ACK an upload is as before, or acknowledged: it
  goes to a peer with the id of the one that answered.
-/
theorem step_ack_uploads
    (h :
      (n.step env (.ack src packet)).config.sendsTo dest t) :
    ∃ s, n.config.sendsTo dest s ∧
      (t = s ∨
        (t = ackSender packet.header.ackNum s ∧
          ∃ p, peerWithAddr src n.config = some p ∧
            n.config.uploadsTo p s = true)) := by
  cases hRun : n.fault with
  | some f =>
      rw [step_of_fault _ _ hRun] at h
      exact ⟨t, h, .inl rfl⟩
  | none =>
      rw [step_ack env hRun] at h
      rcases h with ⟨hMem, hDest⟩
      dsimp only at hMem hDest
      unfold ackedUploads at hMem
      split at hMem
      · exact ⟨t, ⟨hMem, hDest⟩, .inl rfl⟩
      · next p hFound =>
        rcases mem_updateFirst hMem with
          hOld | ⟨s, hs, hTo, hAcked⟩
        · exact ⟨t, ⟨hOld, hDest⟩, .inl rfl⟩
        · refine ⟨s, ⟨hs, ?_⟩,
            .inr ⟨hAcked, p, hFound, hTo⟩⟩
          rw [← hDest, hAcked, ackSender_peer]

theorem step_ack_queue :
    (n.step env (.ack src packet)).queue = n.queue := by
  cases hRun : n.fault with
  | some f => rw [step_of_fault _ _ hRun]
  | none => rw [step_ack env hRun]

end

end PeerNet
