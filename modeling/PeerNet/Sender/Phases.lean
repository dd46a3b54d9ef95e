import PeerNet.Sender.Lifetime

/-
  Slow start and congestion avoidance.

  The flag `state` of an upload tells on which side of its
  threshold the window is. `process_ack` raises the window
  and sets the flag, the loss branch of `peer_cc` cuts the
  window and clears it, and nothing else touches either. A
  loss may be handled several times in one pass: `Head` has
  the states in which the loop comes back to the upload.

  Main declarations:
    * `Head`
    * `Phased`
    * `Phased.acked`
    * `Phased.resent`
    * `phases_of_run`
-/

------------------------------------------------------------
-- The Loop Comes Back
------------------------------------------------------------

namespace PeerNet

/-
  The loop of `peer_cc` comes to an upload at `reads`, and
  again after each loss that it handles.
-/
inductive Head
    (env : Env)
    (reads : Nat)
    (s : BtSender) : Nat → BtSender → Prop
| first : Head env reads s reads s
| again (reads' : Nat) (t : BtSender) :
    Head env reads s reads' t →
    Open env reads' t →
    Lost env reads' t →
    (resend env reads' t).inRange = true →
    Head env reads s (resend env reads' t).reads
      (resend env reads' t).sender

section

variable {env : Env} {reads reads' : Nat}
variable {s t : BtSender} {v : CcVisit}

/- A visit that goes on after a loss is at its second head. -/
theorem Head.of_resent
    (hOpen : Open env reads s)
    (hLost : Lost env reads s)
    (hIn : (resend env reads s).inRange = true)
    (h :
      Head env (resend env reads s).reads
        (resend env reads s).sender reads' t) :
    Head env reads s reads' t := by
  induction h with
  | first => exact .again reads s .first hOpen hLost hIn
  | again reads' t _ hOpen hLost hIn ih =>
      exact .again reads' t ih hOpen hLost hIn

/- What holds at the first head and is kept by a loss. -/
theorem Head.invariant
    {I : BtSender → Prop}
    (h : Head env reads s reads' t)
    (hStart : I s)
    (hStep :
      ∀ reads t, I t → Open env reads t →
        Lost env reads t →
          (resend env reads t).inRange = true →
            I (resend env reads t).sender) :
    I t := by
  induction h with
  | first => exact hStart
  | again reads' t _ hOpen hLost hIn ih =>
      exact hStep reads' t ih hOpen hLost hIn

/- Without a loss the loop does not come back. -/
theorem Head.of_quiet
    (h : Head env reads s reads' t)
    (hQuiet : ¬ Lost env reads s) :
    reads' = reads ∧ t = s := by
  induction h with
  | first => exact ⟨rfl, rfl⟩
  | again reads' t _ _ hLost _ ih =>
      rw [ih.1, ih.2] at hLost
      exact absurd hLost hQuiet

/- An upload that stays left its last head without a loss. -/
theorem Visit.kept_head
    (h : Visit env reads s v)
    (hEnd : v.ending = .kept t) :
    ∃ reads' u, Head env reads s reads' u ∧
      Open env reads' u ∧ ¬ Lost env reads' u ∧
        (t = (sendNext env reads' u).sender ∨
          t = charged env reads' u) := by
  induction h with
  | hang => cases hEnd
  | finished => cases hEnd
  | dead => cases hEnd
  | resent reads s v hOpen hLost hIn _ ih =>
      rcases ih hEnd with ⟨reads', u, hHead, hLeft⟩
      exact ⟨reads', u, hHead.of_resent hOpen hLost hIn,
        hLeft⟩
  | resentOut => cases hEnd
  | sent reads s hOpen hQuiet =>
      exact ⟨reads, s, .first, hOpen, hQuiet,
        .inl (CcEnd.kept.inj hEnd).symm⟩
  | sentOut => cases hEnd
  | waiting reads s hOpen hQuiet =>
      exact ⟨reads, s, .first, hOpen, hQuiet,
        .inr (CcEnd.kept.inj hEnd).symm⟩

end

end PeerNet

------------------------------------------------------------
-- Flag and Threshold
------------------------------------------------------------

namespace PeerNet

open Runs

/- The flag tells whether the window passed the threshold. -/
structure Phased
    (s : BtSender) : Prop where
  window : 1 ≤ s.windowSize
  threshold : 2 ≤ s.ssthresh
  phase : s.state = .start ↔ s.windowSize ≤ s.ssthresh

/- The upload after the loss branch. -/
structure Cut
    (s t : BtSender) : Prop where
  windowSize : t.windowSize = 1
  ssthresh : t.ssthresh = max (s.windowSize / 2) 2
  state : t.state = .start

section

variable {env : Env} {reads reads' : Nat}
variable {s t : BtSender} {u : Option BtSender}

theorem phased_newSender
    (hash : Hash)
    (packets : Option (List (Option Packet)))
    (numPackets : Int)
    (peer : PeerRef) :
    Phased (newSender hash packets numPackets peer) where
  window := Int.le_refl _
  threshold := by simp [newSender, ssthreshInit]
  phase := by simp [newSender, ssthreshInit]

theorem Phased.same
    (h : Phased s)
    (hSame : SamePace s t) :
    Phased t where
  window := by
    rw [hSame.windowSize]
    exact h.window
  threshold := by
    rw [hSame.ssthresh]
    exact h.threshold
  phase := by
    rw [hSame.state, hSame.windowSize, hSame.ssthresh]
    exact h.phase

/- An ACK raises the window by one at most. -/
theorem ackSender_windowSize_le
    (ackNum : UInt32)
    (s : BtSender) :
    (ackSender ackNum s).windowSize ≤ s.windowSize + 1 := by
  rw [(ackSender_pace ackNum s).windowSize]
  by_cases hState : s.state = .start
  · rw [(growWindow_start hState).1]
  · rw [(growWindow_avoid (CcState.eq_avoid hState)).1]
    split <;> omega

theorem Phased.acked
    (h : Phased s)
    (ackNum : UInt32) :
    Phased (ackSender ackNum s) := by
  have hPhase := h.phase
  have hThreshold := h.threshold
  have hWindow := h.window
  have hGrown : Phased (growWindow s) := by
    by_cases hState : s.state = .start
    · -- slow start: the window may pass the threshold
      rcases growWindow_start hState with
        ⟨hWide, _, hThresh, hNext⟩
      constructor
      · rw [hWide]
        omega
      · rw [hThresh]
        exact hThreshold
      · rw [hWide, hThresh]
        exact hNext
    · rcases growWindow_avoid (CcState.eq_avoid hState) with
        ⟨hWide, _, hThresh, hNext⟩
      have hPast := hPhase.not.mp hState
      constructor
      · rw [hWide]
        split <;> omega
      · rw [hThresh]
        exact hThreshold
      · rw [hWide, hThresh, hNext]
        simp only [reduceCtorEq, false_iff]
        split <;> omega
  exact hGrown.same (ackSender_pace ackNum s)

/- The loss branch, whatever `packet_sender` then does. -/
theorem Phased.cut
    (h : Phased s)
    (env : Env)
    (reads : Nat) :
    Cut s (resend env reads s).sender := by
  have hCollapsed := resend_pace env reads s
  refine ⟨hCollapsed.windowSize, ?_, hCollapsed.state⟩
  have hWindow := h.window
  rw [hCollapsed.ssthresh, collapsedThresh, if_pos rfl,
    Int.tdiv_eq_ediv_of_nonneg (by omega)]

theorem Cut.phased
    (h : Cut s t) :
    Phased t := by
  constructor
  · rw [h.windowSize]
  · rw [h.ssthresh]
    exact Int.le_max_right _ _
  · rw [h.state, h.windowSize, h.ssthresh]
    have hLow := Int.le_max_right (s.windowSize / 2) 2
    exact ⟨fun _ => by omega, fun _ => rfl⟩

theorem Phased.head
    (h : Phased s)
    (hHead : Head env reads s reads' t) :
    Phased t := by
  apply hHead.invariant h
  intro reads t hPhased _ _ _
  exact (hPhased.cut env reads).phased

/- Past its last head an upload keeps its window. -/
theorem kept_pace
    (hEnd : (ccVisit env ccFuel reads s).ending = .kept t) :
    ∃ reads' u, Head env reads s reads' u ∧
      ¬ Lost env reads' u ∧ SamePace u t := by
  rcases (visit_ccVisit env ccFuel reads s).kept_head hEnd
    with ⟨reads', u, hHead, _, hQuiet, hLeft⟩
  refine ⟨reads', u, hHead, hQuiet, ?_⟩
  rcases hLeft with rfl | rfl
  · have hSent := packetSender_pace env (reads' + 1)
      (charged env reads' u) (wrapInt (u.lastAcked + 1))
    exact ⟨hSent.windowSize, hSent.recvd, hSent.ssthresh,
      hSent.state⟩
  · exact ⟨rfl, rfl, rfl, rfl⟩

theorem Phased.passed
    (h : Phased s)
    (hEnd : (ccVisit env ccFuel reads s).ending = .kept t) :
    Phased t := by
  rcases kept_pace hEnd with ⟨_, u, hHead, _, hSame⟩
  exact (h.head hHead).same hSame

/- A window falls in the loss branch only. -/
theorem lost_of_narrowed
    (hEnd : (ccVisit env ccFuel reads s).ending = .kept t)
    (hLess : t.windowSize < s.windowSize) :
    Lost env reads s := by
  by_contra hQuiet
  rcases kept_pace hEnd with ⟨reads', u, hHead, _, hSame⟩
  rw [hSame.windowSize, (hHead.of_quiet hQuiet).2] at hLess
  exact Int.lt_irrefl _ hLess

/- How the window of an upload moves, in any state. -/
structure Steered
    (s : BtSender) : Prop where
  phased : Phased s
  acked : ∀ ackNum,
    s.windowSize ≤ (ackSender ackNum s).windowSize ∧
      (ackSender ackNum s).windowSize ≤ s.windowSize + 1
  head : ∀ env reads reads' t,
    Head env reads s reads' t → Phased t
  cut : ∀ env reads reads' t,
    Head env reads s reads' t →
      Open env reads' t → Lost env reads' t →
        Cut t (resend env reads' t).sender
  kept : ∀ env reads t,
    (ccVisit env ccFuel reads s).ending = .kept t →
      ∃ reads' u, Head env reads s reads' u ∧
        ¬ Lost env reads' u ∧ SamePace u t
  narrowed : ∀ env reads t,
    (ccVisit env ccFuel reads s).ending = .kept t →
      t.windowSize < s.windowSize → Lost env reads s

theorem Phased.steered
    (h : Phased s) :
    Steered s where
  phased := h
  acked := fun ackNum =>
    ⟨ackSender_windowSize ackNum s,
      ackSender_windowSize_le ackNum s⟩
  head := fun _ _ _ _ hHead => h.head hHead
  cut := fun env _ reads' _ hHead _ _ =>
    (h.head hHead).cut env reads'
  kept := fun _ _ _ hEnd => kept_pace hEnd
  narrowed := fun _ _ _ hEnd hLess =>
    lost_of_narrowed hEnd hLess

theorem inLife_phased
    {e : UploadEvent}
    (h : InLife Phased u) :
    InLife Phased (uploadStep u e) := by
  intro t ht
  cases e with
  | ack ackNum =>
      rcases Option.map_eq_some_iff.mp ht with ⟨s, hs, rfl⟩
      exact (h s hs).acked ackNum
  | pass env reads =>
      rcases Option.bind_eq_some_iff.mp ht with
        ⟨s, hs, hLeft⟩
      exact (h s hs).passed (CcEnd.remaining_eq_some.mp hLeft)

/-
  In every state of every upload the flag agrees with the
  window, ACKs widen it by one at most, and it is cut in the
  loss branch only.
-/
theorem phases_of_run
    (hash : Hash)
    (packets : Option (List (Option Packet)))
    (numPackets : Int)
    (peer : PeerRef)
    (hRun :
      Reaches uploadStep (fun _ _ => True)
        (some (newSender hash packets numPackets peer))
        (some s)) :
    Steered s := by
  have hPhased : InLife Phased (some s) := by
    apply hRun.invariant
    · intro t ht
      rw [← Option.some.inj ht]
      exact phased_newSender hash packets numPackets peer
    · intro u e h _
      exact inLife_phased h
  exact (hPhased s rfl).steered

/- A pass, ACKs past slow start, a timeout and more ACKs. -/
theorem phases_of_run_wide :
    Steered wideUpload :=
  phases_of_run (Vector.replicate 20 0) _ _ 0
    (reaches_wideUpload.mono fun _ _ _ => trivial)

end

end PeerNet
