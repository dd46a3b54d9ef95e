import PeerNet.Sender.Charges

/-
  The life of one upload.

  `send_data` makes an upload, ACKs from its peer count on
  it, and passes of `peer_cc` send for it until they take it
  out of the list. Here this is a machine of its own: ACKs
  bring any number, and each pass reads a clock of its own.
  Every upload of a process is in a state of this machine.

  An ACK number is taken as it comes, also from 2^31 on,
  where `last_acked` turns negative; a loss then makes
  `packet_sender` read before its array, and so does the
  next window, where `last_sent` has overflowed before.

  A timeout cuts the window but not `recvd`, which is only
  ever compared with the window by equality. Where it is
  above the new threshold, the window never grows again.

  Main declarations:
    * `uploadStep`
    * `upload_of_run`
    * `reads_in_range_iff`
    * `avoidance_progresses`
    * `outgrown_stalls`
-/

------------------------------------------------------------
-- The Machine
------------------------------------------------------------

namespace PeerNet

open Runs

/- What happens to an upload. -/
inductive UploadEvent where
  | ack (ackNum : UInt32)
  | pass (env : Env) (reads : Nat)

/- An upload in the list, or `none` once it is taken out. -/
def uploadStep
    (u : Option BtSender) :
    UploadEvent → Option BtSender
| .ack ackNum => u.map (ackSender ackNum)
| .pass env reads =>
    u.bind fun s =>
      (ccVisit env ccFuel reads s).ending.remaining

/- The upload that `send_data` makes of its packets. -/
def madeUpload
    (hash : Hash)
    (packets : List Packet)
    (peer : PeerRef) : BtSender :=
  newSender hash (some (packets.map some)) packets.length
    peer

/- The states an upload goes through. -/
def Lives
    (s : BtSender) : Prop :=
  ∃ hash packets peer,
    Reaches uploadStep (fun _ _ => True)
      (some (madeUpload hash packets peer)) (some s)

section

variable {env : Env} {n n₀ : Node} {s t : BtSender}
variable {src : Addr} {packet : Packet}

theorem Lives.ack
    (h : Lives s)
    (ackNum : UInt32) :
    Lives (ackSender ackNum s) := by
  rcases h with ⟨hash, packets, peer, hRun⟩
  have hLast := hRun.step (.ack ackNum) trivial
  exact ⟨hash, packets, peer, hLast⟩

theorem Lives.pass
    (h : Lives s)
    {reads : Nat}
    (hEnd : (ccVisit env ccFuel reads s).ending = .kept t) :
    Lives t := by
  rcases h with ⟨hash, packets, peer, hRun⟩
  have hLast := hRun.step (.pass env reads) trivial
  simp only [uploadStep, Option.bind_some, hEnd,
    CcEnd.remaining] at hLast
  exact ⟨hash, packets, peer, hLast⟩

/- A GET makes an upload in its first state. -/
theorem Uploaded.lives
    (h : Uploaded env n src packet s) :
    Lives s := by
  rcases h.entry with ⟨filechunk, readBytes, hRead, hIs⟩
  have hFits : readBytes ≤ filechunk.length := by
    rw [hRead.length]
    exact hRead.fits
  have hCount :
      ((numPackets readBytes : Nat) : Int) =
        (dataPackets filechunk readBytes).length := by
    rw [dataPackets_eq hFits, length_numbered, length_parts]
  rw [hCount] at hIs
  have hMade :
      s =
        madeUpload (hashOfBytes packet.buf)
          (dataPackets filechunk readBytes) s.peer :=
    hIs
  rw [hMade]
  exact ⟨_, _, _, .refl⟩

/- Every event of a process moves its uploads this way. -/
theorem lives_step
    (env : Env)
    (hLives : ∀ s ∈ n.config.upload, Lives s)
    (e : NodeEvent) :
    ∀ s ∈ (n.step env e).config.upload, Lives s := by
  intro t ht
  by_cases hReceives : e.receives
  · have hSame := (sameSending_step env n hReceives).upload
    rw [hSame] at ht
    exact hLives t ht
  cases hRun : n.fault with
  | some f =>
      rw [step_of_fault _ _ hRun] at ht
      exact hLives t ht
  | none =>
  cases e with
  | get src packet =>
      rcases step_get env n src packet with
        ⟨fault, hStep⟩ | ⟨s, hUploaded, hStep⟩
      · rw [hStep] at ht
        exact hLives t ht
      · rw [hStep] at ht
        rcases List.mem_cons.mp ht with rfl | hOld
        · exact hUploaded.lives
        · exact hLives t hOld
  | ack src packet =>
      rw [step_ack env hRun] at ht
      rcases mem_ackedUploads ht with ⟨s, hs, rfl | rfl⟩
      · exact hLives t hs
      · exact (hLives s hs).ack _
  | peerCc =>
      rcases step_peerCc env hRun with
        ⟨uploads, new, reads, fault, hStep, hPassed⟩
      rw [hStep, Node.pass_config] at ht
      rcases hPassed.left with hLeft | ⟨hAll, _⟩
      · rw [hLeft] at ht
        rcases mem_leftUploads ht with ⟨start, hStart, hEnd⟩
        have hOld := mem_of_mem_visitStarts hStart
        exact (hLives _ hOld).pass hEnd
      · rw [hAll] at ht
        exact hLives t ht
  | userGet _ _ => exact absurd trivial hReceives
  | timeoutCheck => exact absurd trivial hReceives
  | getAllTheThingz => exact absurd trivial hReceives
  | ihave _ _ => exact absurd trivial hReceives
  | data _ _ => exact absurd trivial hReceives

/- Every upload of a process lives the machine's life. -/
theorem upload_of_run
    (hStart : n₀.config.upload = [])
    (hRun : Reaches (Node.step env) (fun _ _ => True) n₀ n) :
    ∀ s ∈ n.config.upload, Lives s := by
  apply hRun.invariant
    (I := fun n => ∀ s ∈ n.config.upload, Lives s)
  · rw [hStart]
    exact List.forall_mem_nil _
  · intro m e hLives _
    exact lives_step env hLives e

end

end PeerNet

------------------------------------------------------------
-- Array Indices
------------------------------------------------------------

namespace PeerNet

open Runs

/- A pass reads no packet from outside of the array. -/
def ReadsInRange
    (u : Option BtSender) :
    UploadEvent → Prop
| .ack _ => True
| .pass env reads =>
    ∀ s, u = some s →
      (ccVisit env ccFuel reads s).ending ≠
        .fault .packetIndex

/-
  The loop comes to an upload whose `last_acked` is negative
  and is about to send for it: the packet it takes for lost,
  or the next window, where that ends behind `last_acked`.
-/
structure ReadsBefore
    (env : Env)
    (reads : Nat)
    (s : BtSender) : Prop where
  packets : s.packets ≠ none
  negative : s.lastAcked < 0
  sends :
    Lost env reads s ∧
        s.dropped + lossCharges env reads s ≤ 5 ∨
      ¬ Lost env reads s ∧ s.lastAcked = s.lastSent ∧
        s.lastAcked < wrapInt (s.lastAcked + s.windowSize)

/- The pass does not come to such an upload. -/
def SendsInside
    (u : Option BtSender) :
    UploadEvent → Prop
| .ack _ => True
| .pass env reads =>
    ∀ s, u = some s → ¬ ReadsBefore env reads s

section

variable {env : Env} {reads : Nat} {s t : BtSender}
variable {v : CcVisit} {u : Option BtSender}

/- An upload whose sending stays inside has none of this. -/
theorem ReadsBefore.not_inside
    (h : ReadsBefore env reads s) :
    ¬ (s.packets = none ∨ 0 ≤ s.lastAcked) := by
  have hNeg := h.negative
  rintro (hNone | hLow)
  · exact h.packets hNone
  · omega

/- A visit leaves the array in this case only. -/
theorem Visit.outside_iff
    (h : Visit env reads s v)
    (hArrayed : Arrayed s)
    (hEnd : v.ending ≠ .fault .hang) :
    v.ending = .fault .packetIndex ↔
      ReadsBefore env reads s := by
  induction h with
  | hang => exact absurd rfl hEnd
  | finished reads s hAll =>
      refine ⟨fun hFault => (by cases hFault), fun hBefore => ?_⟩
      have hNeg := hBefore.negative
      rcases Option.ne_none_iff_exists'.mp hBefore.packets
        with ⟨packets, hPackets⟩
      have hCount := hArrayed.array packets hPackets
      omega
  | dead reads s _ hDead =>
      rw [hArrayed.toAlive.charged_dropped] at hDead
      have hAlive := hArrayed.alive
      refine ⟨fun hFault => (by cases hFault), fun hBefore => ?_⟩
      rcases hBefore.sends with ⟨_, hFew⟩ | ⟨hQuiet, _⟩
      · omega
      · have hNone := lossCharges_pos_iff.not.mpr hQuiet
        omega
  | resent reads s v hOpen hLost hIn _ ih =>
      have hInside :=
        (hArrayed.resend_inside_iff env reads).mp hIn
      have hNext := ih (hArrayed.resent hOpen) hEnd
      constructor
      · intro hFault
        have hLater := (hNext.mp hFault).not_inside
        rw [resend_same.packets, resend_same.lastAcked]
          at hLater
        exact absurd hInside hLater
      · intro hBefore
        exact absurd hInside hBefore.not_inside
  | resentOut reads s hOpen hLost hOut =>
      have hOutside :
          ¬ (s.packets = none ∨ 0 ≤ s.lastAcked) := by
        rw [← hArrayed.resend_inside_iff env reads, hOut]
        exact Bool.false_ne_true
      have hAlive := hOpen.alive
      rw [hArrayed.toAlive.charged_dropped] at hAlive
      refine ⟨fun _ => ?_, fun _ => rfl⟩
      exact
        { packets := fun hNone => hOutside (.inl hNone)
          negative :=
            not_le.mp fun hLow => hOutside (.inr hLow)
          sends := .inl ⟨hLost, by omega⟩ }
  | sent reads s _ hQuiet _ hIn =>
      refine ⟨fun hFault => (by cases hFault), fun hBefore => ?_⟩
      rcases hBefore.sends with ⟨hLost, _⟩ | ⟨_, _, hWindow⟩
      · exact absurd hLost hQuiet
      · have hNeg := hBefore.negative
        rcases (hArrayed.sendNext_inside_iff env reads).mp hIn
          with hNone | hLow | hShut
        · exact absurd hNone hBefore.packets
        · omega
        · omega
  | sentOut reads s _ hQuiet hAcked hOut =>
      have hOutside :
          ¬ (s.packets = none ∨ 0 ≤ s.lastAcked ∨
            wrapInt (s.lastAcked + s.windowSize) ≤
              s.lastAcked) := by
        rw [← hArrayed.sendNext_inside_iff env reads, hOut]
        exact Bool.false_ne_true
      refine ⟨fun _ => ?_, fun _ => rfl⟩
      exact
        { packets := fun hNone => hOutside (.inl hNone)
          negative :=
            not_le.mp fun hLow =>
              hOutside (.inr (.inl hLow))
          sends := .inr ⟨hQuiet, hAcked,
            not_le.mp fun hShut =>
              hOutside (.inr (.inr hShut))⟩ }
  | waiting reads s _ hQuiet hBehind =>
      refine ⟨fun hFault => (by cases hFault), fun hBefore => ?_⟩
      rcases hBefore.sends with ⟨hLost, _⟩ | ⟨_, hAcked, _⟩
      · exact absurd hLost hQuiet
      · exact absurd hAcked hBehind

/- The life of an upload, in terms of its last state. -/
def InLife
    (P : BtSender → Prop)
    (u : Option BtSender) : Prop :=
  ∀ s, u = some s → P s

theorem inLife_sound
    {e : UploadEvent}
    (h : InLife Sound u) :
    InLife Sound (uploadStep u e) := by
  intro t ht
  cases e with
  | ack ackNum =>
      rcases Option.map_eq_some_iff.mp ht with ⟨s, hs, rfl⟩
      exact (h s hs).acked ackNum
  | pass env reads =>
      rcases Option.bind_eq_some_iff.mp ht with
        ⟨s, hs, hLeft⟩
      have hKept := CcEnd.remaining_eq_some.mp hLeft
      exact
        ((visit_ccVisit env ccFuel reads s).kept_dropped
          (h s hs) hKept).1

/-
  Every pass of a run stays in the array exactly where none
  of them is about to send before it.
-/
theorem reads_in_range_iff
    (hash : Hash)
    (packets : List Packet)
    (peer : PeerRef)
    (events : List UploadEvent) :
    AllAllowed uploadStep ReadsInRange
        (some (madeUpload hash packets peer)) events ↔
      AllAllowed uploadStep SendsInside
        (some (madeUpload hash packets peer)) events := by
  have hPass :
      ∀ (u : Option BtSender) (e : UploadEvent),
        InLife Sound u →
          (ReadsInRange u e ↔ SendsInside u e) := by
    intro u e h
    cases e with
    | ack _ => exact Iff.rfl
    | pass env reads =>
        constructor
        · intro hIn s hs hBefore
          apply hIn s hs
          exact
            ((visit_ccVisit env ccFuel reads s).outside_iff
              (h s hs).toArrayed
              (h s hs).ccVisit_not_hang).mpr hBefore
        · intro hInside s hs hFault
          apply hInside s hs
          exact
            ((visit_ccVisit env ccFuel reads s).outside_iff
              (h s hs).toArrayed
              (h s hs).ccVisit_not_hang).mp hFault
  have hAll :
      ∀ (events : List UploadEvent) (u : Option BtSender),
        InLife Sound u →
          (AllAllowed uploadStep ReadsInRange u events ↔
            AllAllowed uploadStep SendsInside u events) := by
    intro events
    induction events with
    | nil => exact fun _ _ => Iff.rfl
    | cons e events ih =>
        intro u h
        exact and_congr (hPass u e h)
          (ih (uploadStep u e) (inLife_sound h))
  apply hAll
  intro s hs
  rw [← Option.some.inj hs]
  exact sound_newSender hash packets peer

end

/- One packet is sent; its peer acknowledges 2^32 - 1 thrice. -/
theorem reads_before_array :
    ¬ ∀ (hash : Hash) (packets : List Packet)
        (peer : PeerRef) (events : List UploadEvent),
      AllAllowed uploadStep ReadsInRange
        (some (madeUpload hash packets peer)) events := by
  intro hClaim
  have hAll :=
    hClaim (Vector.replicate 20 0) [dataPacket 1 [0]] 0
      [.pass stillEnv 0, .ack 4294967295, .ack 4294967295,
        .ack 4294967295, .pass stillEnv 2]
  have hLast := hAll.2.2.2.2.1
  have hBefore :
      foldSteps uploadStep
          (some
            (madeUpload (Vector.replicate 20 0)
              [dataPacket 1 [0]] 0))
          [.pass stillEnv 0, .ack 4294967295,
            .ack 4294967295, .ack 4294967295] =
        some
          { madeUpload (Vector.replicate 20 0)
              [dataPacket 1 [0]] 0 with
            lastAcked := -1
            lastSent := 1
            windowSize := 4
            retransmit := 2 } := by
    decide
  apply hLast _ hBefore
  decide

end PeerNet

------------------------------------------------------------
-- Congestion Avoidance
------------------------------------------------------------

namespace PeerNet

open Runs

/- The phase of an upload agrees with its window. -/
structure Windowed
    (s : BtSender) : Prop
    extends Sound s where
  received : 0 ≤ s.recvd
  threshold : 2 ≤ s.ssthresh
  phase : s.state = .start ↔ s.windowSize ≤ s.ssthresh

/- `recvd` has not outgrown the window it is compared with. -/
structure Paced
    (s : BtSender) : Prop
    extends Windowed s where
  slow : s.state = .start → s.recvd ≤ s.ssthresh
  steady : s.state = .avoid → s.recvd < s.windowSize

/-
  Between two readings and the next two, the clock moves past
  the timeout `k` times in a row.
-/
def JumpsFor
    (env : Env)
    (reads : Nat)
    (k : Nat) : Prop :=
  (∀ i < k, Jumps env (reads + 2 * i)) ∧
    ¬ Jumps env (reads + 2 * k)

/- `ssthresh` after `k + 1` losses in one pass. -/
def collapsedThresh
    (k : Nat)
    (windowSize : Int) : Int :=
  if k = 0 then max (Int.tdiv windowSize 2) 2 else 2

/- A timeout, and the upload is retried `k + 1` times. -/
structure TimesOut
    (env : Env)
    (reads : Nat)
    (s : BtSender)
    (k : Nat) : Prop where
  counted : 0 ≤ s.lastAcked
  unfinished : s.numPackets ≠ s.lastAcked
  single : lostPacket s = false
  timeout : timedOut env reads s = true
  alive : s.dropped + 1 + k ≤ 5
  jumps : JumpsFor env (reads + 1) k

/- A timeout finds more counted than the new threshold. -/
def Outgrown
    (env : Env)
    (reads : Nat)
    (s : BtSender) : Prop :=
  ∃ k, TimesOut env reads s k ∧
    collapsedThresh k s.windowSize < s.recvd

/- The pass does not find an outgrown counter. -/
def InPace
    (u : Option BtSender) :
    UploadEvent → Prop
| .ack _ => True
| .pass env reads =>
    ∀ s, u = some s → ¬ Outgrown env reads s

/- The congestion-control fields of two uploads agree. -/
structure SamePace
    (s t : BtSender) : Prop where
  windowSize : t.windowSize = s.windowSize
  recvd : t.recvd = s.recvd
  ssthresh : t.ssthresh = s.ssthresh
  state : t.state = s.state

/- The congestion-control fields after losses in one pass. -/
structure Collapsed
    (k : Nat)
    (s t : BtSender) : Prop where
  windowSize : t.windowSize = 1
  recvd : t.recvd = s.recvd
  ssthresh : t.ssthresh = collapsedThresh k s.windowSize
  state : t.state = .start

section

variable {env : Env} {reads k : Nat} {s t : BtSender}
variable {v : CcVisit} {u : Option BtSender}

theorem SamePace.windowed
    (h : SamePace s t)
    (hWindowed : Windowed s)
    (hSound : Sound t) :
    Windowed t where
  toSound := hSound
  received := by
    rw [h.recvd]
    exact hWindowed.received
  threshold := by
    rw [h.ssthresh]
    exact hWindowed.threshold
  phase := by
    rw [h.state, h.windowSize, h.ssthresh]
    exact hWindowed.phase

theorem collapsedThresh_low
    (k : Nat)
    (windowSize : Int) :
    2 ≤ collapsedThresh k windowSize := by
  unfold collapsedThresh
  split <;> omega

theorem Collapsed.windowed
    (h : Collapsed k s t)
    (hWindowed : Windowed s)
    (hSound : Sound t) :
    Windowed t where
  toSound := hSound
  received := by
    rw [h.recvd]
    exact hWindowed.received
  threshold := by
    rw [h.ssthresh]
    exact collapsedThresh_low k _
  phase := by
    have hLow := collapsedThresh_low k s.windowSize
    rw [h.state, h.windowSize, h.ssthresh]
    exact ⟨fun _ => by omega, fun _ => rfl⟩

/- `packet_sender` leaves congestion control alone. -/
theorem packetSender_pace
    (env : Env)
    (reads : Nat)
    (s : BtSender)
    (start : Int) :
    SamePace s (packetSender env reads s start).sender := by
  unfold packetSender
  split
  · exact ⟨rfl, rfl, rfl, rfl⟩
  · dsimp only
    split
    · exact ⟨rfl, rfl, rfl, rfl⟩
    · exact ⟨rfl, rfl, rfl, rfl⟩
    · exact ⟨rfl, rfl, rfl, rfl⟩

/- One round for a loss collapses the window. -/
theorem resend_pace
    (env : Env)
    (reads : Nat)
    (s : BtSender) :
    Collapsed 0 s (resend env reads s).sender := by
  have hPace :=
    packetSender_pace env (reads + 1)
      (collapseWindow (charged env reads s))
      (wrapInt (s.lastAcked + 1))
  exact ⟨hPace.windowSize, hPace.recvd, hPace.ssthresh,
    hPace.state⟩

/- What a loss round leaves of `retransmit`. -/
theorem resend_lostPacket
    (env : Env)
    (reads : Nat)
    (s : BtSender) :
    lostPacket (resend env reads s).sender = lostPacket s := by
  unfold resend lostPacket
  rw [packetSender_retransmit]
  rfl

/- The retried upload times out again with the clock's jump. -/
theorem Sound.resend_timedOut
    (h : Sound s)
    (hLow : 0 ≤ s.lastAcked) :
    timedOut env (resend env reads s).reads
        (resend env reads s).sender = true ↔
      Jumps env (reads + 1) := by
  rcases h.resend_eq env reads hLow with ⟨_, _, _, hIs⟩
  rw [hIs]
  unfold timedOut Jumps
  simp

theorem Sound.resend_reads
    (h : Sound s)
    (hLow : 0 ≤ s.lastAcked) :
    (resend env reads s).reads = reads + 2 := by
  rcases h.resend_eq env reads hLow with ⟨_, _, _, hIs⟩
  rw [hIs]

/- A single loss is one charge. -/
theorem TimesOut.charges
    (h : TimesOut env reads s k) :
    lossCharges env reads s = 1 := by
  simp [lossCharges, h.single, h.timeout]

/- The first retry, and the others after it. -/
theorem TimesOut.next
    (h : TimesOut env reads s (k + 1))
    (hSound : Sound s) :
    TimesOut env (resend env reads s).reads
      (resend env reads s).sender k where
  counted := by
    rw [resend_same.lastAcked]
    exact h.counted
  unfinished := by
    rw [resend_same.numPackets, resend_same.lastAcked]
    exact h.unfinished
  single := by
    rw [resend_lostPacket]
    exact h.single
  timeout := by
    rw [hSound.resend_timedOut h.counted]
    exact h.jumps.1 0 (by omega)
  alive := by
    have hAlive := h.alive
    rw [hSound.resend_dropped, h.charges]
    push_cast at hAlive ⊢
    omega
  jumps := by
    rw [hSound.resend_reads h.counted]
    constructor
    · intro i hi
      have hJump := h.jumps.1 (i + 1) (by omega)
      rw [show reads + 2 + 1 + 2 * i =
        reads + 1 + 2 * (i + 1) by omega]
      exact hJump
    · have hStays := h.jumps.2
      rw [show reads + 2 + 1 + 2 * k =
        reads + 1 + 2 * (k + 1) by omega]
      exact hStays

/- A visit without a loss leaves the window alone. -/
theorem Visit.quiet_pace
    (h : Visit env reads s v)
    (hQuiet : ¬ Lost env reads s)
    (hEnd : v.ending = .kept t) :
    SamePace s t := by
  cases h with
  | hang => cases hEnd
  | finished => cases hEnd
  | dead => cases hEnd
  | resent _ _ _ _ hLost => exact absurd hLost hQuiet
  | resentOut => cases hEnd
  | sent =>
      rw [← CcEnd.kept.inj hEnd]
      have hPace :=
        packetSender_pace env (reads + 1)
          (charged env reads s) (wrapInt (s.lastAcked + 1))
      exact ⟨hPace.windowSize, hPace.recvd, hPace.ssthresh,
        hPace.state⟩
  | sentOut => cases hEnd
  | waiting =>
      rw [← CcEnd.kept.inj hEnd]
      exact ⟨rfl, rfl, rfl, rfl⟩

theorem Collapsed.same
    {s' : BtSender}
    (h : Collapsed k s s')
    (hSame : SamePace s' t) :
    Collapsed k s t where
  windowSize := hSame.windowSize.trans h.windowSize
  recvd := hSame.recvd.trans h.recvd
  ssthresh := hSame.ssthresh.trans h.ssthresh
  state := hSame.state.trans h.state

theorem Collapsed.again
    {s' : BtSender}
    (h : Collapsed 0 s s')
    (hNext : Collapsed k s' t) :
    Collapsed (k + 1) s t where
  windowSize := hNext.windowSize
  recvd := hNext.recvd.trans h.recvd
  ssthresh := by
    rw [hNext.ssthresh, h.windowSize]
    unfold collapsedThresh
    split <;> simp
  state := hNext.state

/- A loss that is not two duplicate ACKs is a timeout. -/
theorem Lost.timedOut
    (h : Lost env reads s)
    (hSingle : lostPacket s = false) :
    timedOut env reads s = true := by
  rcases h with hTwice | hTimeout
  · rw [hSingle] at hTwice
    cases hTwice
  · exact hTimeout

/- One retry, where nothing is lost after it. -/
theorem Sound.timesOut_zero
    (h : Sound s)
    (hOpen : Open env reads s)
    (hLost : Lost env reads s)
    (hLow : 0 ≤ s.lastAcked)
    (hQuiet :
      ¬ Lost env (resend env reads s).reads
        (resend env reads s).sender) :
    TimesOut env reads s 0 := by
  have hAlive := hOpen.alive
  rw [h.charged_dropped] at hAlive
  rw [h.lost_again_iff env reads hLow, not_or] at hQuiet
  have hSingle : lostPacket s = false := by
    simpa using hQuiet.1
  have hTimeout := hLost.timedOut hSingle
  have hPos := lossCharges_pos_iff.mpr hLost
  exact
    { counted := hLow
      unfinished := hOpen.unfinished
      single := hSingle
      timeout := hTimeout
      alive := by
        push_cast
        omega
      jumps := ⟨nofun, hQuiet.2⟩ }

/- One more retry, before those the clock makes necessary. -/
theorem Sound.timesOut_succ
    (h : Sound s)
    (hOpen : Open env reads s)
    (hLost : Lost env reads s)
    (hLow : 0 ≤ s.lastAcked)
    (hNext :
      TimesOut env (resend env reads s).reads
        (resend env reads s).sender k) :
    TimesOut env reads s (k + 1) := by
  have hSingle : lostPacket s = false := by
    rw [← resend_lostPacket env reads s]
    exact hNext.single
  have hTimeout := hLost.timedOut hSingle
  have hJump := (h.resend_timedOut hLow).mp hNext.timeout
  have hAlive := hNext.alive
  have hPos := lossCharges_pos_iff.mpr hLost
  rw [h.resend_dropped] at hAlive
  have hJumps := hNext.jumps
  rw [h.resend_reads hLow] at hJumps
  refine ⟨hLow, hOpen.unfinished, hSingle, hTimeout, ?_, ?_,
    ?_⟩
  · push_cast
    omega
  · intro i hi
    cases i with
    | zero => exact hJump
    | succ i =>
        have hLater := hJumps.1 i (by omega)
        rw [show reads + 1 + 2 * (i + 1) =
          reads + 2 + 1 + 2 * i by omega]
        exact hLater
  · have hStays := hJumps.2
    rw [show reads + 1 + 2 * (k + 1) =
      reads + 2 + 1 + 2 * k by omega]
    exact hStays

/-
  What a pass leaves of congestion control: nothing was lost,
  or timeouts alone have collapsed the window.
-/
theorem Visit.kept_pace
    (h : Visit env reads s v)
    (hSound : Sound s)
    (hEnd : v.ending = .kept t) :
    (¬ Lost env reads s ∧ SamePace s t) ∨
      ∃ k, TimesOut env reads s k ∧ Collapsed k s t := by
  induction h with
  | hang => cases hEnd
  | finished => cases hEnd
  | dead => cases hEnd
  | resent reads s v hOpen hLost hIn _ ih =>
      right
      have hLow := hSound.resend_inRange.mp hIn
      have hFirst := resend_pace env reads s
      rcases ih (hSound.resent hOpen) hEnd with
        ⟨hQuiet, hSame⟩ | ⟨k, hNext, hLater⟩
      · exact ⟨0,
          hSound.timesOut_zero hOpen hLost hLow hQuiet,
          hFirst.same hSame⟩
      · exact ⟨k + 1,
          hSound.timesOut_succ hOpen hLost hLow hNext,
          hFirst.again hLater⟩
  | resentOut => cases hEnd
  | sent reads s hOpen hQuiet hAcked hIn =>
      exact .inl ⟨hQuiet,
        (Visit.sent reads s hOpen hQuiet hAcked
          hIn).quiet_pace hQuiet hEnd⟩
  | sentOut => cases hEnd
  | waiting reads s hOpen hQuiet hBehind =>
      exact .inl ⟨hQuiet,
        (Visit.waiting reads s hOpen hQuiet
          hBehind).quiet_pace hQuiet hEnd⟩

/- Where nothing is lost behind a count, the upload stays. -/
theorem Visit.quiet_kept
    (h : Visit env reads s v)
    (hSound : Sound s)
    (hEnd : v.ending ≠ .fault .hang)
    (hQuiet : ¬ Lost env reads s)
    (hUnfinished : s.numPackets ≠ s.lastAcked)
    (hLow : 0 ≤ s.lastAcked) :
    ∃ t, v.ending = .kept t := by
  cases h with
  | hang => exact absurd rfl hEnd
  | finished _ _ hAll => exact absurd hAll hUnfinished
  | dead _ _ _ hDead =>
      have hAlive := hSound.alive
      rw [hSound.charged_dropped,
        lossCharges_of_not_lost hQuiet] at hDead
      omega
  | resent _ _ _ _ hLost => exact absurd hLost hQuiet
  | resentOut _ _ _ hLost => exact absurd hLost hQuiet
  | sent => exact ⟨_, rfl⟩
  | sentOut _ _ _ _ _ hOut =>
      rcases hSound.sendNext_eq env reads hLow with
        ⟨_, _, _, hIs⟩
      rw [hIs] at hOut
      cases hOut
  | waiting => exact ⟨_, rfl⟩

/- A timeout that leaves the upload alive is retried. -/
theorem Visit.timesOut_resent
    (h : Visit env reads s v)
    (hSound : Sound s)
    (hEnd : v.ending ≠ .fault .hang)
    (hTimes : TimesOut env reads s k) :
    Open env reads s ∧ (resend env reads s).inRange = true ∧
      ∃ w, Visit env (resend env reads s).reads
          (resend env reads s).sender w ∧
        w.ending = v.ending := by
  have hLost : Lost env reads s := .inr hTimes.timeout
  have hAlive := hTimes.alive
  cases h with
  | hang => exact absurd rfl hEnd
  | finished _ _ hAll => exact absurd hAll hTimes.unfinished
  | dead _ _ _ hDead =>
      rw [hSound.charged_dropped, hTimes.charges]
        at hDead
      push_cast at hDead
      omega
  | resent _ _ w hOpen _ hIn hRest =>
      exact ⟨hOpen, hIn, w, hRest, rfl⟩
  | resentOut _ _ _ _ hOut =>
      rw [hSound.resend_inRange.mpr hTimes.counted]
        at hOut
      cases hOut
  | sent _ _ _ hQuiet => exact absurd hLost hQuiet
  | sentOut _ _ _ hQuiet => exact absurd hLost hQuiet
  | waiting _ _ _ hQuiet => exact absurd hLost hQuiet

/- A timeout with a few jumps leaves the upload collapsed. -/
theorem Visit.timesOut_kept
    (h : Visit env reads s v)
    (hSound : Sound s)
    (hEnd : v.ending ≠ .fault .hang)
    (hTimes : TimesOut env reads s k) :
    ∃ t, v.ending = .kept t ∧ Collapsed k s t := by
  induction k generalizing reads s v with
  | zero =>
      rcases h.timesOut_resent hSound hEnd hTimes with
        ⟨hOpen, hIn, w, hRest, hSame⟩
      have hQuiet :
          ¬ Lost env (resend env reads s).reads
            (resend env reads s).sender := by
        rw [hSound.lost_again_iff env reads
          hTimes.counted, not_or, hTimes.single]
        exact ⟨nofun, hTimes.jumps.2⟩
      rcases hRest.quiet_kept (hSound.resent hOpen)
          (hSame ▸ hEnd) hQuiet
          (by
            rw [resend_same.numPackets,
              resend_same.lastAcked]
            exact hTimes.unfinished)
          (by
            rw [resend_same.lastAcked]
            exact hTimes.counted) with
        ⟨t, hKept⟩
      exact ⟨t, hSame ▸ hKept,
        (resend_pace env reads s).same
          (hRest.quiet_pace hQuiet hKept)⟩
  | succ k ih =>
      rcases h.timesOut_resent hSound hEnd hTimes with
        ⟨hOpen, hIn, w, hRest, hSame⟩
      rcases ih hRest (hSound.resent hOpen)
          (hSame ▸ hEnd) (hTimes.next hSound) with
        ⟨t, hKept, hLater⟩
      exact ⟨t, hSame ▸ hKept,
        (resend_pace env reads s).again hLater⟩

/- For congestion control an ACK's number does not matter. -/
theorem ackSender_pace
    (ackNum : UInt32)
    (s : BtSender) :
    SamePace (growWindow s) (ackSender ackNum s) := by
  have hSplit :
      ∀ t : BtSender, SamePace s t →
        SamePace (growWindow s) (growWindow t) := by
    intro t h
    unfold growWindow
    rw [h.state, h.recvd, h.windowSize, h.ssthresh]
    split
    · exact ⟨rfl, rfl, rfl, rfl⟩
    · split
      · exact ⟨rfl, rfl, rfl, rfl⟩
      · exact ⟨rfl, rfl, rfl, rfl⟩
  apply hSplit
  unfold countAck
  split
  · exact ⟨rfl, rfl, rfl, rfl⟩
  · split
    · exact ⟨rfl, rfl, rfl, rfl⟩
    · exact ⟨rfl, rfl, rfl, rfl⟩

/- In slow start an ACK widens the window by one. -/
theorem growWindow_start
    (hState : s.state = .start) :
    (growWindow s).windowSize = s.windowSize + 1 ∧
      (growWindow s).recvd = s.recvd ∧
      (growWindow s).ssthresh = s.ssthresh ∧
      ((growWindow s).state = .start ↔
        s.windowSize + 1 ≤ s.ssthresh) := by
  unfold growWindow
  rw [hState]
  refine ⟨rfl, rfl, rfl, ?_⟩
  dsimp only
  split
  · simp
    omega
  · simp
    omega

/- In congestion avoidance an ACK is counted. -/
theorem growWindow_avoid
    (hState : s.state = .avoid) :
    (growWindow s).windowSize =
        (if s.recvd + 1 = s.windowSize then s.windowSize + 1
          else s.windowSize) ∧
      (growWindow s).recvd =
        (if s.recvd + 1 = s.windowSize then 0
          else s.recvd + 1) ∧
      (growWindow s).ssthresh = s.ssthresh ∧
      (growWindow s).state = .avoid := by
  unfold growWindow
  rw [hState]
  dsimp only
  split
  · exact ⟨rfl, rfl, rfl, rfl⟩
  · exact ⟨rfl, rfl, rfl, rfl⟩

theorem CcState.eq_avoid
    {state : CcState}
    (hNot : state ≠ .start) :
    state = .avoid := by
  cases state with
  | start => exact absurd rfl hNot
  | avoid => rfl

/- ACKs keep the phase and the window together. -/
theorem Windowed.acked
    (h : Windowed s)
    (ackNum : UInt32) :
    Windowed (ackSender ackNum s) := by
  have hPhase := h.phase
  have hReceived := h.received
  have hThreshold := h.threshold
  have hSame := ackSender_pace ackNum s
  refine ⟨h.toSound.acked ackNum, ?_, ?_, ?_⟩
  all_goals
    simp only [hSame.recvd, hSame.ssthresh, hSame.state,
      hSame.windowSize]
    by_cases hState : s.state = .start
  · rw [(growWindow_start hState).2.1]
    exact hReceived
  · rw [(growWindow_avoid (CcState.eq_avoid hState)).2.1]
    split <;> omega
  · rw [(growWindow_start hState).2.2.1]
    exact hThreshold
  · rw [(growWindow_avoid (CcState.eq_avoid hState)).2.2.1]
    exact hThreshold
  · rcases growWindow_start hState with
      ⟨hWindow, _, hThresh, hNext⟩
    rw [hWindow, hThresh]
    exact hNext
  · rcases growWindow_avoid (CcState.eq_avoid hState) with
      ⟨hWindow, _, hThresh, hNext⟩
    have hWide := hPhase.not.mp hState
    rw [hWindow, hThresh, hNext]
    simp only [reduceCtorEq, false_iff]
    split <;> omega

theorem Paced.acked
    (h : Paced s)
    (ackNum : UInt32) :
    Paced (ackSender ackNum s) := by
  have hSame := ackSender_pace ackNum s
  refine ⟨h.toWindowed.acked ackNum, ?_, ?_⟩
  · intro hNext
    rw [hSame.recvd, hSame.ssthresh]
    rw [hSame.state] at hNext
    by_cases hState : s.state = .start
    · rcases growWindow_start hState with
        ⟨_, hRecvd, hThresh, _⟩
      rw [hRecvd, hThresh]
      exact h.slow hState
    · rw [(growWindow_avoid (CcState.eq_avoid hState)).2.2.2]
        at hNext
      cases hNext
  · intro hNext
    rw [hSame.recvd, hSame.windowSize]
    rw [hSame.state] at hNext
    by_cases hState : s.state = .start
    · -- slow start ends above the threshold
      rcases growWindow_start hState with
        ⟨hWindow, hRecvd, _, hStays⟩
      have hSlow := h.slow hState
      have hLeft : ¬ s.windowSize + 1 ≤ s.ssthresh := by
        rw [← hStays, hNext]
        exact nofun
      rw [hWindow, hRecvd]
      omega
    · have hAvoid := CcState.eq_avoid hState
      rcases growWindow_avoid hAvoid with
        ⟨hWindow, hRecvd, _, _⟩
      have hSteady := h.steady hAvoid
      have hReceived := h.received
      rw [hWindow, hRecvd]
      split <;> omega

theorem paced_madeUpload
    (hash : Hash)
    (packets : List Packet)
    (peer : PeerRef) :
    Paced (madeUpload hash packets peer) where
  toSound := sound_newSender hash packets peer
  received := Int.le_refl _
  threshold := by simp [madeUpload, newSender, ssthreshInit]
  phase := by simp [madeUpload, newSender, ssthreshInit]
  slow := by simp [madeUpload, newSender]
  steady := by simp [madeUpload, newSender]

/- A pass keeps the phase and the window together, too. -/
theorem Windowed.passed
    (h : Windowed s)
    (hEnd : (ccVisit env ccFuel reads s).ending = .kept t) :
    Windowed t := by
  have hWay := visit_ccVisit env ccFuel reads s
  have hSound := (hWay.kept_dropped h.toSound hEnd).1
  rcases hWay.kept_pace h.toSound hEnd with
    ⟨_, hSame⟩ | ⟨k, _, hCollapsed⟩
  · exact hSame.windowed h hSound
  · exact hCollapsed.windowed h hSound

theorem Paced.passed
    (h : Paced s)
    (hInPace : ¬ Outgrown env reads s)
    (hEnd : (ccVisit env ccFuel reads s).ending = .kept t) :
    Paced t := by
  have hWay := visit_ccVisit env ccFuel reads s
  refine ⟨h.toWindowed.passed hEnd, ?_, ?_⟩
  · intro hState
    rcases hWay.kept_pace h.toSound hEnd with
      ⟨_, hSame⟩ | ⟨k, hTimes, hCollapsed⟩
    · rw [hSame.recvd, hSame.ssthresh]
      exact h.slow (hSame.state ▸ hState)
    · rw [hCollapsed.recvd, hCollapsed.ssthresh]
      by_contra hOver
      exact hInPace ⟨k, hTimes, by omega⟩
  · intro hState
    rcases hWay.kept_pace h.toSound hEnd with
      ⟨_, hSame⟩ | ⟨k, _, hCollapsed⟩
    · rw [hSame.recvd, hSame.windowSize]
      exact h.steady (hSame.state ▸ hState)
    · rw [hCollapsed.state] at hState
      cases hState

/- Every run in pace keeps `recvd` below the window. -/
theorem paced_of_run
    {hash : Hash}
    {packets : List Packet}
    {peer : PeerRef}
    (hRun :
      Reaches uploadStep InPace
        (some (madeUpload hash packets peer)) u) :
    InLife Paced u := by
  apply hRun.invariant
  · intro s hs
    rw [← Option.some.inj hs]
    exact paced_madeUpload hash packets peer
  · intro u e h hAllow t ht
    cases e with
    | ack ackNum =>
        rcases Option.map_eq_some_iff.mp ht with ⟨s, hs, rfl⟩
        exact (h s hs).acked ackNum
    | pass env reads =>
        rcases Option.bind_eq_some_iff.mp ht with
          ⟨s, hs, hLeft⟩
        exact (h s hs).passed (hAllow s hs)
          (CcEnd.remaining_eq_some.mp hLeft)

/- An upload after some ACKs. -/
def ackAll
    (acks : List UInt32)
    (s : BtSender) : BtSender :=
  acks.foldl (fun s ackNum => ackSender ackNum s) s

/- ACKs alone are a run, and in pace. -/
theorem reaches_ackAll
    (acks : List UInt32)
    (s : BtSender) :
    Reaches uploadStep InPace (some s)
      (some (ackAll acks s)) := by
  induction acks generalizing s with
  | nil => exact .refl
  | cons ackNum acks ih =>
      have hFirst :
          Reaches uploadStep InPace (some s)
            (some (ackSender ackNum s)) :=
        .step (UploadEvent.ack ackNum) .refl trivial
      exact hFirst.trans (ih (ackSender ackNum s))

/- The window grows with the ACK that fills it, and by one. -/
theorem ackAll_windowSize
    (acks : List UInt32)
    (hState : s.state = .avoid)
    (hSteady : s.recvd < s.windowSize)
    (hFew : acks.length ≤ s.windowSize - s.recvd) :
    (ackAll acks s).windowSize =
      if acks.length = s.windowSize - s.recvd then
        s.windowSize + 1
      else
        s.windowSize := by
  induction acks generalizing s with
  | nil =>
      rw [if_neg]
      · rfl
      · rw [List.length_nil]
        push_cast
        omega
  | cons ackNum acks ih =>
      have hSame := ackSender_pace ackNum s
      rcases growWindow_avoid hState with
        ⟨hWindow, hRecvd, _, hNext⟩
      rw [List.length_cons] at hFew
      push_cast at hFew
      by_cases hLast : s.recvd + 1 = s.windowSize
      · have hNone : acks = [] := by
          apply List.eq_nil_of_length_eq_zero
          omega
        subst hNone
        rw [if_pos hLast] at hWindow
        rw [if_pos (by
          rw [List.length_singleton]
          push_cast
          omega)]
        exact hSame.windowSize.trans hWindow
      · rw [if_neg hLast] at hWindow hRecvd
        have hLater :=
          ih (s := ackSender ackNum s)
            (hSame.state.trans hNext)
            (by
              rw [hSame.recvd, hSame.windowSize, hWindow,
                hRecvd]
              omega)
            (by
              rw [hSame.recvd, hSame.windowSize, hWindow,
                hRecvd]
              omega)
        rw [hSame.recvd, hSame.windowSize, hWindow, hRecvd]
          at hLater
        rw [List.length_cons]
        push_cast
        unfold ackAll at hLater ⊢
        rw [List.foldl_cons, hLater]
        congr 1
        apply propext
        constructor <;> intro h <;> omega

/-
  In congestion avoidance, `recvd` is below the window, and
  as many ACKs as are missing widen it by one.
-/
theorem avoidance_progresses
    {hash : Hash}
    {packets : List Packet}
    {peer : PeerRef}
    (hRun :
      Reaches uploadStep InPace
        (some (madeUpload hash packets peer)) (some s))
    (hState : s.state = .avoid) :
    0 ≤ s.recvd ∧ s.recvd < s.windowSize ∧
      ∀ acks : List UInt32,
        acks.length ≤ s.windowSize - s.recvd →
          (ackAll acks s).windowSize =
            if acks.length = s.windowSize - s.recvd then
              s.windowSize + 1
            else
              s.windowSize := by
  have hPaced := paced_of_run hRun s rfl
  have hSteady := hPaced.steady hState
  exact ⟨hPaced.received, hSteady, fun acks hFew =>
    ackAll_windowSize acks hState hSteady hFew⟩

/- A pass during which the clock stands at one time. -/
def envAt
    (time : Int) : Env :=
  { stillEnv with clock := fun _ => time }

theorem not_jumps_envAt
    (time : Int)
    (reads : Nat) :
    ¬ Jumps (envAt time) reads := by
  unfold Jumps timeSeconds envAt
  simp [ccTimeout]

/- A new upload has nothing on the way. -/
theorem timedOut_madeUpload
    (env : Env)
    (reads : Nat)
    (hash : Hash)
    (packets : List Packet)
    (peer : PeerRef) :
    timedOut env reads (madeUpload hash packets peer) =
      false := by
  simp [timedOut, madeUpload, newSender]

/- An upload of many packets, the first of them sent. -/
def sentUpload : BtSender :=
  { madeUpload (Vector.replicate 20 0)
      (List.replicate 354 (dataPacket 1 [0])) 0 with
    sentTime := 1
    lastSent := 1 }

/- The packet goes out in the first pass. -/
theorem reaches_sentUpload :
    Reaches uploadStep InPace
      (some
        (madeUpload (Vector.replicate 20 0)
          (List.replicate 354 (dataPacket 1 [0])) 0))
      (some sentUpload) := by
  have hSent :
      uploadStep
          (some
            (madeUpload (Vector.replicate 20 0)
              (List.replicate 354 (dataPacket 1 [0])) 0))
          (.pass (envAt 1000) 0) =
        some sentUpload := by
    decide +kernel
  rw [← hSent]
  apply Reaches.step _ .refl
  rintro s hs ⟨k, hTimes, -⟩
  rw [← Option.some.inj hs] at hTimes
  have hFirst := hTimes.timeout
  rw [timedOut_madeUpload] at hFirst
  cases hFirst

/- Past slow start, and 9 ACKs counted in the window of 65. -/
def earlyUpload : BtSender :=
  ackAll ((List.range' 1 73).map UInt32.ofNat) sentUpload

/- It times out and sends its next packet again. -/
def retriedUpload : BtSender :=
  { earlyUpload with
    state := .start
    windowSize := 1
    ssthresh := 32
    dropped := 1
    sentTime := 10
    lastSent := 74 }

/- Slow start ends once more, and 9 ACKs are still counted. -/
def wideUpload : BtSender :=
  ackAll ((List.range' 74 32).map UInt32.ofNat) retriedUpload

theorem reaches_wideUpload :
    Reaches uploadStep InPace
      (some
        (madeUpload (Vector.replicate 20 0)
          (List.replicate 354 (dataPacket 1 [0])) 0))
      (some wideUpload) := by
  have hRetried :
      uploadStep (some earlyUpload) (.pass (envAt 10000) 0) =
        some retriedUpload := by
    decide +kernel
  have hEarly :
      Reaches uploadStep InPace _ (some earlyUpload) :=
    reaches_sentUpload.trans (reaches_ackAll _ _)
  have hNext := hEarly.step (.pass (envAt 10000) 0) (by
    rintro s hs ⟨k, hTimes, hOver⟩
    rw [← Option.some.inj hs] at hTimes hOver
    cases k with
    | zero => exact absurd hOver (by decide +kernel)
    | succ k =>
        exact not_jumps_envAt _ _
          (hTimes.jumps.1 0 (Nat.succ_pos k)))
  rw [hRetried] at hNext
  exact hNext.trans (reaches_ackAll _ _)

theorem avoidance_progresses_wide :
    (wideUpload.windowSize = 33 ∧ wideUpload.recvd = 9) ∧
      0 ≤ wideUpload.recvd ∧
      wideUpload.recvd < wideUpload.windowSize ∧
      ∀ acks : List UInt32,
        acks.length ≤
            wideUpload.windowSize - wideUpload.recvd →
          (ackAll acks wideUpload).windowSize =
            if acks.length =
                wideUpload.windowSize - wideUpload.recvd then
              wideUpload.windowSize + 1
            else
              wideUpload.windowSize :=
  ⟨by decide +kernel,
    avoidance_progresses reaches_wideUpload
      (by decide +kernel)⟩

/- Slow start ends one above the threshold. -/
theorem ackAll_start
    (h : Windowed s)
    (hState : s.state = .start) :
    ∃ acks,
      (ackAll acks s).state = .avoid ∧
        (ackAll acks s).windowSize = s.ssthresh + 1 ∧
        (ackAll acks s).recvd = s.recvd := by
  have hWays :
      ∀ (n : Nat) (s : BtSender), Windowed s →
        s.state = .start → s.ssthresh - s.windowSize = n →
          ∃ acks,
            (ackAll acks s).state = .avoid ∧
              (ackAll acks s).windowSize = s.ssthresh + 1 ∧
              (ackAll acks s).recvd = s.recvd := by
    intro n
    induction n with
    | zero =>
        intro s h hState hRoom
        have hSame := ackSender_pace 0 s
        rcases growWindow_start hState with
          ⟨hWindow, hRecvd, _, hNext⟩
        refine ⟨[0], ?_, ?_, ?_⟩
        · apply CcState.eq_avoid
          intro hStart
          have hLow :=
            hNext.mp (hSame.state.symm.trans hStart)
          omega
        · have hLast := hSame.windowSize.trans hWindow
          unfold ackAll
          rw [List.foldl_cons, List.foldl_nil, hLast]
          omega
        · exact hSame.recvd.trans hRecvd
    | succ n ih =>
        intro s h hState hRoom
        push_cast at hRoom
        have hSame := ackSender_pace 0 s
        rcases growWindow_start hState with
          ⟨hWindow, hRecvd, hThresh, hNext⟩
        have hStill : (ackSender 0 s).state = .start :=
          hSame.state.trans (hNext.mpr (by omega))
        rcases ih (ackSender 0 s) (h.acked 0) hStill
            (by
              rw [hSame.ssthresh, hSame.windowSize, hWindow,
                hThresh]
              omega) with
          ⟨acks, hLast, hWide, hKept⟩
        refine ⟨0 :: acks, hLast, ?_, ?_⟩
        · exact hWide.trans (by rw [hSame.ssthresh, hThresh])
        · exact hKept.trans (hSame.recvd.trans hRecvd)
  have hPhase := h.phase.mp hState
  exact hWays (s.ssthresh - s.windowSize).toNat s h hState
    (by omega)

/-
  An outgrown counter never meets the window again: ACKs
  bring the upload to where it is not below it.
-/
theorem outgrown_stalls
    (h : Windowed s)
    (hOutgrown : Outgrown env reads s) :
    ∃ t acks,
      (ccVisit env ccFuel reads s).ending = .kept t ∧
        (ackAll acks t).state = .avoid ∧
        (ackAll acks t).windowSize ≤ (ackAll acks t).recvd := by
  rcases hOutgrown with ⟨k, hTimes, hOver⟩
  have hWay := visit_ccVisit env ccFuel reads s
  rcases hWay.timesOut_kept h.toSound
      h.toSound.ccVisit_not_hang hTimes with
    ⟨t, hEnd, hCollapsed⟩
  rcases ackAll_start (h.passed hEnd) hCollapsed.state with
    ⟨acks, hAvoid, hWide, hKept⟩
  refine ⟨t, acks, hEnd, hAvoid, ?_⟩
  rw [hWide, hKept, hCollapsed.recvd, hCollapsed.ssthresh]
  omega

/- Past slow start, and 40 ACKs counted in the window of 65. -/
def countingUpload : BtSender :=
  ackAll ((List.range' 1 104).map UInt32.ofNat) sentUpload

/- The peer falls silent there, and then acknowledges again. -/
theorem avoidance_stalls :
    ¬ ∀ (hash : Hash) (packets : List Packet)
        (peer : PeerRef) (s : BtSender),
      Reaches uploadStep (fun _ _ => True)
          (some (madeUpload hash packets peer)) (some s) →
        s.state = .avoid → s.recvd < s.windowSize := by
  intro hClaim
  have hPaced :
      Reaches uploadStep InPace
        (some
          (madeUpload (Vector.replicate 20 0)
            (List.replicate 354 (dataPacket 1 [0])) 0))
        (some countingUpload) :=
    reaches_sentUpload.trans (reaches_ackAll _ _)
  have hOutgrown :
      Outgrown (envAt 10000) 0 countingUpload :=
    ⟨0,
      { counted := by decide +kernel
        unfinished := by decide +kernel
        single := by decide +kernel
        timeout := by decide +kernel
        alive := by decide +kernel
        jumps := ⟨nofun, not_jumps_envAt _ _⟩ },
      by decide +kernel⟩
  have hWindowed := paced_of_run hPaced countingUpload rfl
  rcases outgrown_stalls hWindowed.toWindowed hOutgrown with
    ⟨t, acks, hEnd, hAvoid, hOver⟩
  have hBefore :
      Reaches uploadStep (fun _ _ => True) _
        (some countingUpload) :=
    hPaced.mono fun _ _ _ => trivial
  have hFree :=
    hBefore.step (.pass (envAt 10000) 0) trivial
  simp only [uploadStep, Option.bind_some, hEnd,
    CcEnd.remaining] at hFree
  have hLast :=
    hFree.trans
      ((reaches_ackAll acks t).mono fun _ _ _ => trivial)
  have hBelow := hClaim _ _ _ _ hLast hAvoid
  omega

end

end PeerNet
