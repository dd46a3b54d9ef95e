import PeerNet.Receiver.Frame
import PeerNet.Receiver.Links
import PeerNet.Sender.Serving

/-
  How often a pass of `peer_cc` charges an upload.

  The loss branch does not move the cursor and clears
  neither `retransmit` nor, when both tests fire, the second
  charge, so one pass may charge an upload until it is dead.
  `OneLoss` is exactly when it charges at most once. In runs
  whose passes meet it, an upload is dead only after six
  passes that each detected a loss, with no ACK advancing
  in between: `Watched` counts them beside the process.

  Main declarations:
    * `OneLoss`
    * `Visit.one_iff`
    * `Watched`
    * `Charged.step`
    * `one_charge_per_loss`
-/

------------------------------------------------------------
-- One Visit
------------------------------------------------------------

namespace PeerNet

/- The clock moves past the timeout at its next reading. -/
def Jumps
    (env : Env)
    (reads : Nat) : Prop :=
  ccTimeout <
      timeSeconds env (reads + 1) - timeSeconds env reads ∧
    timeSeconds env reads ≠ 0

/-
  Where the loop handles at most one loss: the upload is
  finished, or nothing is lost, or one test alone fires and
  the loop does not come back to it.
-/
def OneLoss
    (env : Env)
    (reads : Nat)
    (s : BtSender) : Prop :=
  s.numPackets = s.lastAcked ∨
    ¬ Lost env reads s ∨
    (¬ (lostPacket s ∧ timedOut env reads s) ∧
      (5 ≤ s.dropped ∨ s.lastAcked < 0 ∨
        (¬ lostPacket s ∧ ¬ Jumps env (reads + 1))))

instance
    (env : Env)
    (reads : Nat) :
    Decidable (Jumps env reads) :=
  inferInstanceAs (Decidable (_ ∧ _))

instance
    (env : Env)
    (reads : Nat)
    (s : BtSender) :
    Decidable (Lost env reads s) :=
  inferInstanceAs (Decidable (_ ∨ _))

instance
    (env : Env)
    (reads : Nat)
    (s : BtSender) :
    Decidable (OneLoss env reads s) :=
  inferInstanceAs (Decidable (_ ∨ _ ∨ _))

section

variable {env : Env} {reads : Nat} {s t : BtSender}
variable {v : CcVisit}

theorem lossCharges_le_one_iff
    (env : Env)
    (reads : Nat)
    (s : BtSender) :
    lossCharges env reads s ≤ 1 ↔
      ¬ (lostPacket s ∧ timedOut env reads s) := by
  unfold lossCharges
  cases lostPacket s <;> cases timedOut env reads s <;> simp

theorem lossCharges_of_not_lost
    (hQuiet : ¬ Lost env reads s) :
    lossCharges env reads s = 0 :=
  Nat.eq_zero_of_not_pos fun hPos =>
    hQuiet (lossCharges_pos_iff.mp hPos)

/- Without a loss nothing is charged. -/
theorem Visit.quiet
    (h : Visit env reads s v)
    (hQuiet : ¬ Lost env reads s) :
    v.charges = 0 ∧ v.resent = 0 := by
  cases h with
  | hang => exact ⟨rfl, rfl⟩
  | finished => exact ⟨rfl, rfl⟩
  | dead => exact ⟨lossCharges_of_not_lost hQuiet, rfl⟩
  | resent _ _ _ _ hLost => exact absurd hLost hQuiet
  | resentOut _ _ _ hLost => exact absurd hLost hQuiet
  | sent => exact ⟨rfl, rfl⟩
  | sentOut => exact ⟨rfl, rfl⟩
  | waiting => exact ⟨rfl, rfl⟩

/- A loss is charged. -/
theorem Visit.lost
    (h : Visit env reads s v)
    (hEnd : v.ending ≠ .fault .hang)
    (hUnfinished : s.numPackets ≠ s.lastAcked)
    (hLost : Lost env reads s) :
    0 < v.charges := by
  have hPos := lossCharges_pos_iff.mpr hLost
  cases h with
  | hang => exact absurd rfl hEnd
  | finished _ _ hAll => exact absurd hAll hUnfinished
  | dead => exact hPos
  | resent => exact Nat.add_pos_left hPos _
  | resentOut => exact hPos
  | sent _ _ _ hQuiet => exact absurd hLost hQuiet
  | sentOut _ _ _ hQuiet => exact absurd hLost hQuiet
  | waiting _ _ _ hQuiet => exact absurd hLost hQuiet

/- Only an unfinished upload with a loss is charged. -/
theorem Visit.charged_lost
    (h : Visit env reads s v)
    (hCharged : 0 < v.charges) :
    s.numPackets ≠ s.lastAcked ∧ Lost env reads s := by
  constructor
  · intro hAll
    cases h with
    | hang => exact absurd hCharged (Nat.lt_irrefl 0)
    | finished => exact absurd hCharged (Nat.lt_irrefl 0)
    | dead _ _ hUnfinished => exact hUnfinished hAll
    | resent _ _ _ hOpen => exact hOpen.unfinished hAll
    | resentOut _ _ hOpen => exact hOpen.unfinished hAll
    | sent _ _ hOpen => exact hOpen.unfinished hAll
    | sentOut _ _ hOpen => exact hOpen.unfinished hAll
    | waiting _ _ hOpen => exact hOpen.unfinished hAll
  · by_contra hQuiet
    rw [(h.quiet hQuiet).1] at hCharged
    exact Nat.lt_irrefl 0 hCharged

/- The retransmission succeeds where `last_acked` is a count. -/
theorem Sound.resend_inRange
    (h : Sound s) :
    (resend env reads s).inRange = true ↔
      0 ≤ s.lastAcked := by
  rcases h.packets with ⟨packets, hPackets, _⟩
  rw [h.toArrayed.resend_inside_iff, hPackets]
  simp

/- When the loop comes back, it may detect a loss again. -/
theorem Sound.lost_again_iff
    (env : Env)
    (reads : Nat)
    (h : Sound s)
    (hLow : 0 ≤ s.lastAcked) :
    Lost env (resend env reads s).reads
        (resend env reads s).sender ↔
      lostPacket s ∨ Jumps env (reads + 1) := by
  rcases h.resend_eq env reads hLow with ⟨_, _, _, hIs⟩
  rw [hIs]
  unfold Lost Jumps lostPacket timedOut collapseWindow charged
  simp

/- When one visit charges and resends at most once. -/
theorem Visit.one_iff
    (h : Visit env reads s v)
    (hSound : Sound s)
    (hEnd : v.ending ≠ .fault .hang) :
    v.charges ≤ 1 ∧ v.resent ≤ 1 ↔
      OneLoss env reads s := by
  have hAlive := hSound.alive
  have hOnce := lossCharges_le_one_iff env reads s
  cases h with
  | hang => exact absurd rfl hEnd
  | finished _ _ hAll =>
      simp [OneLoss, hAll]
  | dead _ _ hUnfinished hDead =>
      rw [hSound.charged_dropped] at hDead
      have hLost : Lost env reads s := by
        apply lossCharges_pos_iff.mp
        omega
      have hLast :
          lossCharges env reads s ≤ 1 → 5 ≤ s.dropped := by
        omega
      unfold OneLoss
      rw [← hOnce]
      constructor
      · intro hOne
        exact .inr (.inr ⟨hOne.1, .inl (hLast hOne.1)⟩)
      · intro hWhich
        rcases hWhich with hAll | hQuiet | ⟨hOne, _⟩
        · exact absurd hAll hUnfinished
        · exact absurd hLost hQuiet
        · exact ⟨hOne, Nat.zero_le 1⟩
  | resent _ _ w hOpen hLost hIn hRest =>
      have hLow := hSound.resend_inRange.mp hIn
      have hPos := lossCharges_pos_iff.mpr hLost
      have hRoom : s.dropped < 5 := by
        have hNot := hOpen.alive
        rw [hSound.charged_dropped] at hNot
        omega
      have hStill :
          (resend env reads s).sender.numPackets ≠
            (resend env reads s).sender.lastAcked := by
        rw [resend_same.numPackets, resend_same.lastAcked]
        exact hOpen.unfinished
      have hAgain := hSound.lost_again_iff env reads hLow
      unfold OneLoss
      rw [← hOnce]
      constructor
      · intro hOne
        have hQuiet :
            ¬ Lost env (resend env reads s).reads
              (resend env reads s).sender := by
          intro hMore
          have hCharged := hRest.lost hEnd hStill hMore
          have hSum :
              lossCharges env reads s + w.charges ≤ 1 :=
            hOne.1
          omega
        rw [hAgain, not_or] at hQuiet
        have hSum :
            lossCharges env reads s + w.charges ≤ 1 :=
          hOne.1
        exact .inr (.inr
          ⟨by omega, .inr (.inr hQuiet)⟩)
      · intro hWhich
        rcases hWhich with
          hAll | hQuiet | ⟨hOne, hHigh | hNeg | hQuiet⟩
        · exact absurd hAll hOpen.unfinished
        · exact absurd hLost hQuiet
        · omega
        · omega
        · rw [← not_or, ← hAgain] at hQuiet
          have hNone := hRest.quiet hQuiet
          unfold CcVisit.after
          rw [hNone.1, hNone.2]
          exact ⟨hOne, Nat.le_refl 1⟩
  | resentOut _ _ hOpen hLost hOut =>
      have hNeg : s.lastAcked < 0 := by
        by_contra hLow
        rw [hSound.resend_inRange.mpr (by omega)] at hOut
        cases hOut
      unfold OneLoss
      rw [← hOnce]
      constructor
      · intro hOne
        exact .inr (.inr ⟨hOne.1, .inr (.inl hNeg)⟩)
      · intro hWhich
        rcases hWhich with hAll | hQuiet | ⟨hOne, _⟩
        · exact absurd hAll hOpen.unfinished
        · exact absurd hLost hQuiet
        · exact ⟨hOne, Nat.le_refl 1⟩
  | sent _ _ _ hQuiet => simp [OneLoss, hQuiet]
  | sentOut _ _ _ hQuiet => simp [OneLoss, hQuiet]
  | waiting _ _ _ hQuiet => simp [OneLoss, hQuiet]

/- What stays in the list is sound, and `dropped` counts. -/
theorem Visit.kept_dropped
    (h : Visit env reads s v)
    (hSound : Sound s)
    (hEnd : v.ending = .kept t) :
    Sound t ∧ t.dropped = s.dropped + v.charges := by
  induction h with
  | hang => cases hEnd
  | finished => cases hEnd
  | dead => cases hEnd
  | resent reads s v hOpen _ _ _ ih =>
      have hRest := ih (hSound.resent hOpen) hEnd
      refine ⟨hRest.1, ?_⟩
      rw [hRest.2, hSound.resend_dropped, Int.add_assoc]
      rfl
  | resentOut => cases hEnd
  | sent reads s hOpen hQuiet =>
      rw [← CcEnd.kept.inj hEnd]
      refine ⟨hSound.sentNext hOpen, ?_⟩
      unfold sendNext
      rw [packetSender_dropped, hSound.charged_dropped,
        lossCharges_of_not_lost hQuiet]
  | sentOut => cases hEnd
  | waiting reads s hOpen hQuiet =>
      rw [← CcEnd.kept.inj hEnd]
      refine ⟨hSound.tested hOpen, ?_⟩
      rw [hSound.charged_dropped,
        lossCharges_of_not_lost hQuiet]

/- A dead upload was charged beyond five. -/
theorem Visit.dead_dropped
    (h : Visit env reads s v)
    (hSound : Sound s)
    (hEnd : v.ending = .dead) :
    5 < s.dropped + v.charges := by
  induction h with
  | hang => cases hEnd
  | finished => cases hEnd
  | dead reads s _ hDead =>
      rw [hSound.charged_dropped] at hDead
      exact hDead
  | resent reads s v hOpen _ _ _ ih =>
      have hRest := ih (hSound.resent hOpen) hEnd
      rw [hSound.resend_dropped] at hRest
      change 5 <
        s.dropped +
          ((lossCharges env reads s + v.charges : Nat) : Int)
      omega
  | resentOut => cases hEnd
  | sent => cases hEnd
  | sentOut => cases hEnd
  | waiting => cases hEnd

end

end PeerNet

------------------------------------------------------------
-- One Pass
------------------------------------------------------------

namespace PeerNet

/-
  The uploads a pass comes to, each with the number of clock
  readings before it.
-/
def visitStarts
    (env : Env) :
    Nat → List BtSender → List (Nat × BtSender)
| _, [] => []
| reads, s :: rest =>
    let v := ccVisit env ccFuel reads s
    match v.ending with
    | .fault _ => [(reads, s)]
    | _ => (reads, s) :: visitStarts env v.reads rest

/- A visit from where it starts. -/
def visitFrom
    (env : Env)
    (start : Nat × BtSender) : BtSender × CcVisit :=
  (start.2, ccVisit env ccFuel start.1 start.2)

/- Every upload a pass of the process comes to is `OneLoss`. -/
def MeetsOneLoss
    (env : Env)
    (n : Node) : Prop :=
  ∀ start ∈ visitStarts env n.reads n.config.upload,
    OneLoss env start.1 start.2

instance
    (env : Env)
    (n : Node) :
    Decidable (MeetsOneLoss env n) :=
  inferInstanceAs (Decidable (∀ start ∈ visitStarts env n.reads
    n.config.upload, OneLoss env start.1 start.2))

/-
  A pass of the process charges each upload at most once and
  resends for it at most once.
-/
def ChargesOnce
    (env : Env)
    (n : Node) : Prop :=
  ∀ sv ∈ ccPass env n.reads n.config.upload,
    sv.2.charges ≤ 1 ∧ sv.2.resent ≤ 1

section

variable {env : Env} {n : Node} {uploads : List BtSender}

theorem ccPass_eq
    (reads : Nat) :
    ccPass env reads uploads =
      (visitStarts env reads uploads).map
        (visitFrom env) := by
  induction uploads generalizing reads with
  | nil => rfl
  | cons s rest ih =>
      unfold ccPass visitStarts
      dsimp only
      cases (ccVisit env ccFuel reads s).ending with
      | fault f => rfl
      | kept t =>
          rw [ih]
          rfl
      | finished =>
          rw [ih]
          rfl
      | dead =>
          rw [ih]
          rfl

/- The uploads a pass comes to are a first part of the list. -/
theorem visitStarts_firsts
    (env : Env)
    (reads : Nat)
    (uploads : List BtSender) :
    (visitStarts env reads uploads).map Prod.snd <+:
      uploads := by
  induction uploads generalizing reads with
  | nil => exact List.prefix_refl _
  | cons s rest ih =>
      unfold visitStarts
      dsimp only
      split
      · exact List.prefix_append [s] rest
      · exact (List.prefix_cons_inj s).mpr (ih _)

theorem mem_of_mem_visitStarts
    {reads : Nat}
    {start : Nat × BtSender}
    (hStart : start ∈ visitStarts env reads uploads) :
    start.2 ∈ uploads :=
  (visitStarts_firsts env reads uploads).subset
    (List.mem_map_of_mem hStart)

/- A pass over sound uploads. -/
theorem chargesOnce_iff
    (hSound : ∀ s ∈ n.config.upload, Sound s) :
    ChargesOnce env n ↔ MeetsOneLoss env n := by
  unfold ChargesOnce MeetsOneLoss
  rw [ccPass_eq, List.forall_mem_map]
  constructor
  · intro hOnce start hStart
    have h := hSound _ (mem_of_mem_visitStarts hStart)
    exact
      ((visit_ccVisit env ccFuel start.1 start.2).one_iff h
        h.ccVisit_not_hang).mp (hOnce start hStart)
  · intro hMeets start hStart
    have h := hSound _ (mem_of_mem_visitStarts hStart)
    exact
      ((visit_ccVisit env ccFuel start.1 start.2).one_iff h
        h.ccVisit_not_hang).mpr (hMeets start hStart)

end

end PeerNet

------------------------------------------------------------
-- Passes That Detect a Loss
------------------------------------------------------------

namespace PeerNet

/- The next pass detects a loss of the upload to `p`. -/
def detects
    (env : Env)
    (n : Node)
    (p : PeerRef) : Bool :=
  n.fault = none ∧
    (visitStarts env n.reads n.config.upload).any fun start =>
      start.2.peer = p ∧
        start.2.numPackets ≠ start.2.lastAcked ∧
        (lostPacket start.2 ∨ timedOut env start.1 start.2)

/- What the upload to `p` has acknowledged. -/
def ackedOf
    (c : BtConfig)
    (p : PeerRef) : Option Int :=
  (c.upload.find? fun s => s.peer = p).map
    BtSender.lastAcked

/-
  A process, and for each peer the passes that detected a
  loss since its upload was made or last advanced.
-/
structure Watched where
  node : Node
  losses : PeerRef → Nat

/- The pass that an event is, if it detects a loss. -/
def lossesOf
    (env : Env)
    (n : Node)
    (p : PeerRef) : NodeEvent → Nat
| .peerCc => if detects env n p then 1 else 0
| _ => 0

/-
  One event. An upload that is new, or that an ACK advanced,
  starts at no losses.
-/
def Watched.step
    (env : Env)
    (w : Watched)
    (e : NodeEvent) : Watched where
  node := w.node.step env e
  losses := fun p =>
    if ackedOf (w.node.step env e).config p =
        ackedOf w.node.config p then
      w.losses p + lossesOf env w.node p e
    else
      0

/- No charge of an upload is unaccounted for. -/
def Counted
    (w : Watched) : Prop :=
  ∀ s ∈ w.node.config.upload, s.dropped ≤ w.losses s.peer

end PeerNet

------------------------------------------------------------
-- The Uploads of a Process
------------------------------------------------------------

namespace PeerNet

/- Sound uploads, each to a peer of its own. -/
structure Uploads
    (c : BtConfig) : Prop where
  sound : ∀ s ∈ c.upload, Sound s
  distinct : (c.upload.map BtSender.peer).Nodup

section

variable {env : Env} {n : Node} {w : Watched}
variable {s t : BtSender} {c c' : BtConfig}

theorem Uploads.same
    (h : Uploads c)
    (hSame : c'.upload = c.upload) :
    Uploads c' where
  sound := by
    rw [hSame]
    exact h.sound
  distinct := by
    rw [hSame]
    exact h.distinct

/- What stays in the list was left there by its visit. -/
theorem CcEnd.remaining_eq_some
    {ending : CcEnd} :
    ending.remaining = some t ↔ ending = .kept t := by
  cases ending <;> simp [CcEnd.remaining]

theorem mem_leftUploads
    {reads : Nat}
    {uploads : List BtSender}
    (ht : t ∈ leftUploads (ccPass env reads uploads)) :
    ∃ start ∈ visitStarts env reads uploads,
      (ccVisit env ccFuel start.1 start.2).ending =
        .kept t := by
  rw [ccPass_eq, leftUploads, List.mem_filterMap] at ht
  rcases ht with ⟨sv, hVisit, hLeft⟩
  rcases List.mem_map.mp hVisit with ⟨start, hStart, rfl⟩
  exact ⟨start, hStart, CcEnd.remaining_eq_some.mp hLeft⟩

/- A selection keeps the order of what it selects from. -/
theorem filterMap_sublist
    {α β γ : Type}
    {f : α → Option β}
    {g : α → γ}
    {k : β → γ}
    (hSame : ∀ x y, f x = some y → k y = g x)
    (xs : List α) :
    ((xs.filterMap f).map k).Sublist (xs.map g) := by
  induction xs with
  | nil => exact .slnil
  | cons x xs ih =>
      cases hx : f x with
      | none =>
          rw [List.filterMap_cons_none hx]
          exact ih.cons _
      | some y =>
          rw [List.filterMap_cons_some hx, List.map_cons,
            List.map_cons, hSame x y hx]
          exact ih.cons_cons _

/- A pass keeps the peers of the uploads apart. -/
theorem leftUploads_distinct
    {reads : Nat}
    {uploads : List BtSender}
    (hDistinct : (uploads.map BtSender.peer).Nodup) :
    ((leftUploads (ccPass env reads uploads)).map
      BtSender.peer).Nodup := by
  have hLeft :
      ((leftUploads (ccPass env reads uploads)).map
          BtSender.peer).Sublist
        ((visitStarts env reads uploads).map
          fun start => start.2.peer) := by
    rw [ccPass_eq, leftUploads, List.filterMap_map]
    apply filterMap_sublist
    intro start t hEnd
    have hWay := visit_ccVisit env ccFuel start.1 start.2
    exact
      (hWay.kept (CcEnd.remaining_eq_some.mp hEnd)).1.peer
  have hStarts :
      ((visitStarts env reads uploads).map
          fun start => start.2.peer).Sublist
        (uploads.map BtSender.peer) := by
    have hPrefix :=
      (visitStarts_firsts env reads uploads).sublist.map
        BtSender.peer
    rwa [List.map_map] at hPrefix
  exact hDistinct.sublist (hLeft.trans hStarts)

/- A pass that charges an upload detects its loss. -/
theorem detects_of_charged
    {start : Nat × BtSender}
    (hRun : n.fault = none)
    (hStart :
      start ∈ visitStarts env n.reads n.config.upload)
    (hCharged :
      0 < (ccVisit env ccFuel start.1 start.2).charges) :
    detects env n start.2.peer = true := by
  have hWay := visit_ccVisit env ccFuel start.1 start.2
  rcases hWay.charged_lost hCharged with
    ⟨hUnfinished, hLost⟩
  unfold detects
  simp only [hRun, true_and, Bool.decide_coe]
  rw [List.any_eq_true]
  exact ⟨start, hStart,
    decide_eq_true ⟨rfl, hUnfinished, hLost⟩⟩

/- A GET is served only for a peer without an upload. -/
theorem Uploaded.fresh_peer
    {src : Addr}
    {packet : Packet}
    (h : Uploaded env n src packet s)
    (ht : t ∈ n.config.upload) :
    t.peer ≠ s.peer := by
  intro hSame
  apply List.find?_eq_none.mp h.fresh t ht
  simp [BtConfig.uploadsTo, hSame]

theorem Uploads.get
    (env : Env)
    (h : Uploads n.config)
    (src : Addr)
    (packet : Packet) :
    Uploads (n.step env (.get src packet)).config := by
  rcases step_get env n src packet with
    ⟨fault, hStep⟩ | ⟨s, hUploaded, hStep⟩
  · apply h.same
    rw [hStep]
  rw [hStep]
  constructor
  · intro t ht
    rcases List.mem_cons.mp ht with rfl | hOld
    · exact hUploaded.sound
    · exact h.sound t hOld
  · apply List.nodup_cons.mpr
    refine ⟨fun hMem => ?_, h.distinct⟩
    rcases List.mem_map.mp hMem with ⟨t, ht, hSame⟩
    exact hUploaded.fresh_peer ht hSame

/- An ACK changes the counters of one upload. -/
theorem mem_ackedUploads
    {src : Addr}
    {ackNum : UInt32}
    (ht : t ∈ ackedUploads c src ackNum) :
    ∃ s ∈ c.upload, t = s ∨ t = ackSender ackNum s := by
  unfold ackedUploads at ht
  split at ht
  · exact ⟨t, ht, .inl rfl⟩
  · rcases mem_updateFirst ht with hOld | ⟨s, hs, _, hIs⟩
    · exact ⟨t, hOld, .inl rfl⟩
    · exact ⟨s, hs, .inr hIs⟩

theorem updateFirst_map
    {α β : Type}
    {q : α → Bool}
    {f : α → α}
    {g : α → β}
    (hSame : ∀ x, g (f x) = g x)
    (xs : List α) :
    (updateFirst q f xs).map g = xs.map g := by
  induction xs with
  | nil => rfl
  | cons x xs ih =>
      unfold updateFirst
      split
      · simp [hSame]
      · simp [ih]

theorem Uploads.ack
    (env : Env)
    (h : Uploads n.config)
    (src : Addr)
    (packet : Packet) :
    Uploads (n.step env (.ack src packet)).config := by
  cases hRun : n.fault with
  | some f =>
      rw [step_of_fault _ _ hRun]
      exact h
  | none =>
  rw [step_ack env hRun]
  constructor
  · intro t ht
    rcases mem_ackedUploads ht with ⟨s, hs, rfl | rfl⟩
    · exact h.sound t hs
    · exact (h.sound s hs).acked _
  · have hPeers :
        (ackedUploads n.config src
            packet.header.ackNum).map BtSender.peer =
          n.config.upload.map BtSender.peer := by
      unfold ackedUploads
      split
      · rfl
      · exact updateFirst_map (ackSender_peer _) _
    dsimp only
    rw [hPeers]
    exact h.distinct

theorem Uploads.pass
    (env : Env)
    (h : Uploads n.config) :
    Uploads (n.step env .peerCc).config := by
  cases hRun : n.fault with
  | some f =>
      rw [step_of_fault _ _ hRun]
      exact h
  | none =>
  rcases step_peerCc env hRun with
    ⟨uploads, new, reads, fault, hStep, hPassed⟩
  rw [hStep]
  rcases hPassed.left with hLeft | ⟨hAll, _⟩
  case inr => exact h.same hAll
  constructor
  · intro t ht
    rw [Node.pass_config, hLeft] at ht
    rcases mem_leftUploads ht with ⟨start, hStart, hEnd⟩
    have hSound :=
      h.sound _ (mem_of_mem_visitStarts hStart)
    exact
      ((visit_ccVisit env ccFuel start.1
        start.2).kept_dropped hSound hEnd).1
  · rw [Node.pass_config, hLeft]
    exact leftUploads_distinct h.distinct

/- Nothing a process does breaks its uploads. -/
theorem Uploads.step
    (env : Env)
    (h : Uploads n.config)
    (e : NodeEvent) :
    Uploads (n.step env e).config := by
  have hReceived :
      ∀ e : NodeEvent, e.receives →
        Uploads (n.step env e).config :=
    fun e hReceives =>
      h.same (sameSending_step env n hReceives).upload
  cases e with
  | peerCc => exact h.pass env
  | get src packet => exact h.get env src packet
  | ack src packet => exact h.ack env src packet
  | userGet _ _ => exact hReceived _ trivial
  | timeoutCheck => exact hReceived _ trivial
  | getAllTheThingz => exact hReceived _ trivial
  | ihave _ _ => exact hReceived _ trivial
  | data _ _ => exact hReceived _ trivial

end

end PeerNet

------------------------------------------------------------
-- The Losses of a Run
------------------------------------------------------------

namespace PeerNet

section

variable {env : Env} {n : Node} {w : Watched}
variable {s t : BtSender} {c c' : BtConfig}

/- With one upload for a peer, that upload is found. -/
theorem ackedOf_of_mem
    (hDistinct : (c.upload.map BtSender.peer).Nodup)
    (hs : s ∈ c.upload) :
    ackedOf c s.peer = some s.lastAcked := by
  unfold ackedOf
  generalize c.upload = uploads at hDistinct hs
  induction uploads with
  | nil => cases hs
  | cons u rest ih =>
      rw [List.map_cons, List.nodup_cons] at hDistinct
      rw [List.find?_cons]
      rcases List.mem_cons.mp hs with rfl | hRest
      · simp
      · have hOther : u.peer ≠ s.peer := fun hSame =>
          hDistinct.1
            (hSame ▸ List.mem_map_of_mem hRest)
        simp only [hOther, decide_false]
        exact ih hDistinct.2 hRest

/- An event after which the uploads are as before. -/
theorem Counted.same
    (h : Counted w)
    {e : NodeEvent}
    (hSame :
      (w.node.step env e).config.upload =
        w.node.config.upload) :
    Counted (w.step env e) := by
  intro s hs
  change s ∈ (w.node.step env e).config.upload at hs
  have hStill :
      ackedOf (w.node.step env e).config s.peer =
        ackedOf w.node.config s.peer := by
    unfold ackedOf
    rw [hSame]
  rw [hSame] at hs
  have hCounted := h s hs
  unfold Watched.step
  dsimp only
  rw [if_pos hStill]
  push_cast
  omega

/- A new upload was never charged. -/
theorem Counted.get
    (h : Counted w)
    (src : Addr)
    (packet : Packet) :
    Counted (w.step env (.get src packet)) := by
  rcases step_get env w.node src packet with
    ⟨fault, hStep⟩ | ⟨s, hUploaded, hStep⟩
  · apply h.same
    rw [hStep]
  have hUploads :
      (w.node.step env (.get src packet)).config.upload =
        s :: w.node.config.upload := by
    rw [hStep]
    rfl
  intro t ht
  change
    t ∈ (w.node.step env (.get src packet)).config.upload
    at ht
  rw [hUploads] at ht
  rcases List.mem_cons.mp ht with rfl | hOld
  · rw [hUploaded.dropped]
    exact Int.natCast_nonneg _
  · have hStill :
        ackedOf (w.node.step env (.get src packet)).config
            t.peer =
          ackedOf w.node.config t.peer := by
      unfold ackedOf
      rw [hUploads, List.find?_cons]
      simp [(hUploaded.fresh_peer hOld).symm]
    have hCounted := h t hOld
    unfold Watched.step
    dsimp only
    rw [if_pos hStill]
    exact hCounted

/- An ACK that leaves `last_acked` leaves `dropped`. -/
theorem ackSender_dropped_of_same
    (ackNum : UInt32)
    (hSame : (ackSender ackNum s).lastAcked = s.lastAcked) :
    (ackSender ackNum s).dropped = s.dropped := by
  rw [ackSender_lastAcked] at hSame
  rw [ackSender_dropped]
  split
  · next hLess =>
      rw [if_pos hLess] at hSame
      rw [← hSame] at hLess
      have hWire :
          toUInt32 (toInt32 ackNum) = ackNum.toNat := by
        have hLt := ackNum.toNat_lt
        unfold toUInt32 toInt32 Int.bmod
        dsimp only
        split
        · omega
        · omega
      omega
  · rfl

/- An ACK that moves `last_acked` clears `dropped`. -/
theorem ackSender_dropped_of_moved
    (ackNum : UInt32)
    (hMoved : (ackSender ackNum s).lastAcked ≠ s.lastAcked) :
    (ackSender ackNum s).dropped = 0 := by
  rw [ackSender_lastAcked] at hMoved
  rw [ackSender_dropped]
  split
  · rfl
  · next hLess =>
      rw [if_neg hLess] at hMoved
      exact absurd rfl hMoved

/- An ACK: the upload's count starts again, or stays. -/
theorem Counted.ack
    (h : Counted w)
    (hUploads : Uploads w.node.config)
    (src : Addr)
    (packet : Packet) :
    Counted (w.step env (.ack src packet)) := by
  cases hRun : w.node.fault with
  | some f =>
      apply h.same
      rw [step_of_fault _ _ hRun]
  | none =>
  have hAfter := hUploads.ack env src packet
  intro t ht
  have hNow := ackedOf_of_mem hAfter.distinct ht
  change
    t ∈ (w.node.step env (.ack src packet)).config.upload
    at ht
  rw [step_ack env hRun] at ht
  rcases mem_ackedUploads ht with ⟨s, hs, hWhich⟩
  have hPeer : t.peer = s.peer := by
    rcases hWhich with rfl | rfl
    · rfl
    · rw [ackSender_peer]
  have hBefore := ackedOf_of_mem hUploads.distinct hs
  have hCounted := h s hs
  unfold Watched.step
  dsimp only
  rw [hNow, hPeer, hBefore]
  split
  · next hStill =>
      have hDropped : t.dropped = s.dropped := by
        rcases hWhich with rfl | rfl
        · rfl
        · exact ackSender_dropped_of_same _
            (Option.some.inj hStill)
      rw [hDropped]
      exact hCounted
  · next hMoved =>
      rcases hWhich with rfl | rfl
      · exact absurd rfl hMoved
      · rw [ackSender_dropped_of_moved]
        · exact Int.le_refl 0
        · intro hSame
          exact hMoved (congrArg some hSame)

/- A pass over `OneLoss` uploads: at most one charge each. -/
theorem Counted.pass
    (h : Counted w)
    (hUploads : Uploads w.node.config)
    (hMeets : MeetsOneLoss env w.node) :
    Counted (w.step env .peerCc) := by
  cases hRun : w.node.fault with
  | some f =>
      apply h.same
      rw [step_of_fault _ _ hRun]
  | none =>
  rcases step_peerCc env hRun with
    ⟨uploads, new, reads, fault, hStep, hPassed⟩
  rcases hPassed.left with hLeft | ⟨hAll, _⟩
  case inr =>
    apply h.same
    rw [hStep]
    exact hAll
  have hAfter := hUploads.pass env
  intro t ht
  have hNow := ackedOf_of_mem hAfter.distinct ht
  change t ∈ (w.node.step env .peerCc).config.upload at ht
  rw [hStep, Node.pass_config, hLeft] at ht
  rcases mem_leftUploads ht with ⟨start, hStart, hEnd⟩
  have hOld := mem_of_mem_visitStarts hStart
  have hBefore := ackedOf_of_mem hUploads.distinct hOld
  have hCounted := h _ hOld
  have hWay := visit_ccVisit env ccFuel start.1 start.2
  have hSame := (hWay.kept hEnd).1
  have hDropped :=
    (hWay.kept_dropped (hUploads.sound _ hOld) hEnd).2
  have hDetected :
      (ccVisit env ccFuel start.1 start.2).charges ≤
        lossesOf env w.node start.2.peer .peerCc := by
    rcases Nat.eq_zero_or_pos
        (ccVisit env ccFuel start.1 start.2).charges with
      hNone | hSome
    · rw [hNone]
      exact Nat.zero_le _
    · unfold lossesOf
      rw [if_pos (detects_of_charged hRun hStart hSome)]
      have hVisit :
          visitFrom env start ∈
            ccPass env w.node.reads
              w.node.config.upload := by
        rw [ccPass_eq]
        exact List.mem_map_of_mem hStart
      have hOnce := (chargesOnce_iff hUploads.sound).mpr hMeets
      exact (hOnce _ hVisit).1
  unfold Watched.step
  dsimp only
  rw [hNow, hSame.peer, hBefore, hSame.lastAcked,
    if_pos rfl, hDropped]
  push_cast
  omega

/- Every event keeps the count, if the passes are `OneLoss`. -/
theorem Counted.step
    (h : Counted w)
    (hUploads : Uploads w.node.config)
    {e : NodeEvent}
    (hMeets : e = .peerCc → MeetsOneLoss env w.node) :
    Counted (w.step env e) := by
  have hReceived :
      ∀ e : NodeEvent, e.receives →
        Counted (w.step env e) :=
    fun e hReceives =>
      h.same (sameSending_step env w.node hReceives).upload
  cases e with
  | peerCc => exact h.pass hUploads (hMeets rfl)
  | get src packet => exact h.get src packet
  | ack src packet => exact h.ack hUploads src packet
  | userGet _ _ => exact hReceived _ trivial
  | timeoutCheck => exact hReceived _ trivial
  | getAllTheThingz => exact hReceived _ trivial
  | ihave _ _ => exact hReceived _ trivial
  | data _ _ => exact hReceived _ trivial

end

end PeerNet

------------------------------------------------------------
-- One Charge a Pass
------------------------------------------------------------

namespace PeerNet

open Runs

/- A process that serves nobody yet. -/
def Node.watched
    (n : Node) : Watched where
  node := n
  losses := fun _ => 0

/-
  Where a pass finds an upload dead, it detects a loss of it,
  and so did five passes before it, with no ACK advancing in
  between.
-/
def DeadAfterSix
    (env : Env)
    (w : Watched) : Prop :=
  ∀ sv ∈ ccPass env w.node.reads w.node.config.upload,
    sv.2.ending = .dead →
      detects env w.node sv.1.peer = true ∧
        5 < w.losses sv.1.peer + 1

section

variable {env : Env} {w : Watched} {n : Node}

theorem Counted.deadAfterSix
    (h : Counted w)
    (hUploads : Uploads w.node.config)
    (hRun : w.node.fault = none)
    (hMeets : MeetsOneLoss env w.node) :
    DeadAfterSix env w := by
  intro sv hVisit hDead
  have hOnce :=
    ((chargesOnce_iff hUploads.sound).mpr hMeets sv
      hVisit).1
  rw [ccPass_eq] at hVisit
  rcases List.mem_map.mp hVisit with ⟨start, hStart, rfl⟩
  have hOld := mem_of_mem_visitStarts hStart
  have hSound := hUploads.sound _ hOld
  have hCounted := h _ hOld
  have hCharged :=
    (visit_ccVisit env ccFuel start.1
      start.2).dead_dropped hSound hDead
  have hAlive := hSound.alive
  have hPos :
      0 < (ccVisit env ccFuel start.1 start.2).charges := by
    omega
  refine ⟨detects_of_charged hRun hStart hPos, ?_⟩
  change
    (ccVisit env ccFuel start.1 start.2).charges ≤ 1
    at hOnce
  change 5 < w.losses start.2.peer + 1
  omega

/-
  In every state that a process without uploads comes to, a
  pass charges each upload at most once if and only if it
  meets no upload that is charged again; and where no pass of
  the run does, an upload is dead only after six detected
  losses.
-/
theorem one_charge_per_loss
    (env : Env)
    (hIdle : n.config.upload = []) :
    (∀ m, Reaches (Node.step env) (fun _ _ => True) n m →
      (ChargesOnce env m ↔ MeetsOneLoss env m)) ∧
    (∀ w,
      Reaches (Watched.step env)
        (fun w e => e = .peerCc → MeetsOneLoss env w.node)
        n.watched w →
      w.node.fault = none →
      MeetsOneLoss env w.node → DeadAfterSix env w) := by
  have hNone : Uploads n.config := by
    constructor
    · intro s hs
      rw [hIdle] at hs
      cases hs
    · rw [hIdle]
      exact List.nodup_nil
  constructor
  · intro m hRun
    have hUploads : Uploads m.config :=
      hRun.invariant (I := fun m => Uploads m.config) hNone
        (fun _ e h _ => h.step env e)
    exact chargesOnce_iff hUploads.sound
  · intro w hRun hGoing hMeets
    have hBoth : Uploads w.node.config ∧ Counted w := by
      apply hRun.invariant
        (I := fun w => Uploads w.node.config ∧ Counted w)
      · refine ⟨hNone, ?_⟩
        intro s hs
        change s ∈ n.config.upload at hs
        rw [hIdle] at hs
        cases hs
      · intro w e h hAllow
        exact ⟨h.1.step env e, h.2.step h.1 hAllow⟩
    exact hBoth.2.deadAfterSix hBoth.1 hGoing hMeets

end

end PeerNet

------------------------------------------------------------
-- Two Duplicate ACKs
------------------------------------------------------------

namespace PeerNet

open Runs

/- The one peer, with three packets of data to serve. -/
def ownerNode : Node :=
  { onePeerNode with
    files :=
      { content := fun path =>
          if path = [1] then some masterText
          else if path = [2] then some oneChunkText
          else if path = [68] then
            some (List.replicate (3 * maxDataSize) 0)
          else none
        writable := fun _ => true } }

/- A GET for the chunk. -/
def zeroGet : NodeEvent :=
  .get ⟨1, 1⟩ (getPacket (Vector.replicate 20 0))

/- Three readings of the clock are equal, then 10 s pass. -/
def steppingEnv : Env :=
  { stillEnv with
    clock := fun k => 10000 * ((k + 1) / 3 + 1 : Nat) }

/- A packet is sent, and times out in each of five passes. -/
def fiveTimeouts : List NodeEvent :=
  zeroGet :: List.replicate 6 .peerCc

def fiveTimeoutsWatched : Watched :=
  foldSteps (Watched.step steppingEnv) ownerNode.watched
    fiveTimeouts

/- The sixth time the upload is dead. -/
theorem one_charge_per_loss_owner :
    (ChargesOnce steppingEnv fiveTimeoutsWatched.node ↔
        MeetsOneLoss steppingEnv fiveTimeoutsWatched.node) ∧
      (ccPass steppingEnv fiveTimeoutsWatched.node.reads
        fiveTimeoutsWatched.node.config.upload).map
          (fun sv => (sv.2.charges, sv.2.ending)) =
        [(1, .dead)] ∧
      DeadAfterSix steppingEnv fiveTimeoutsWatched := by
  have hLosses :
      ∀ k < 7,
        MeetsOneLoss steppingEnv
          (foldSteps (Watched.step steppingEnv)
            ownerNode.watched
            (fiveTimeouts.take (k + 1))).node := by
    decide +kernel
  have hDead :
      fiveTimeoutsWatched.node.fault = none ∧
        (ccPass steppingEnv fiveTimeoutsWatched.node.reads
          fiveTimeoutsWatched.node.config.upload).map
            (fun sv => (sv.2.charges, sv.2.ending)) =
          [(1, .dead)] := by
    decide +kernel
  have hRun :
      Reaches (Watched.step steppingEnv)
        (fun w e => e = .peerCc →
          MeetsOneLoss steppingEnv w.node)
        ownerNode.watched fiveTimeoutsWatched :=
    reaches_foldSteps
      ⟨nofun, fun _ => hLosses 0 (by decide),
        fun _ => hLosses 1 (by decide),
        fun _ => hLosses 2 (by decide),
        fun _ => hLosses 3 (by decide),
        fun _ => hLosses 4 (by decide),
        fun _ => hLosses 5 (by decide), trivial⟩
  have hNode :
      Reaches (Node.step steppingEnv) (fun _ _ => True)
        ownerNode fiveTimeoutsWatched.node := by
    apply hRun.invariant
      (I := fun w => Reaches (Node.step steppingEnv)
        (fun _ _ => True) ownerNode w.node)
    · exact .refl
    · exact fun w e hStart _ => .step e hStart trivial
  have hBoth :=
    one_charge_per_loss steppingEnv (n := ownerNode) rfl
  exact ⟨hBoth.1 _ hNode, hDead.2,
    hBoth.2 _ hRun hDead.1 (hLosses 6 (by decide))⟩

/- The first packet is acknowledged three times. -/
def threeAcks : List NodeEvent :=
  [zeroGet, .peerCc, .ack ⟨1, 1⟩ (ackPacket 1),
    .ack ⟨1, 1⟩ (ackPacket 1), .ack ⟨1, 1⟩ (ackPacket 1)]

def threeAcksWatched : Watched :=
  foldSteps (Watched.step stillEnv) ownerNode.watched
    threeAcks

/-
  The next pass charges the upload six times; it is dead, and
  no pass detected a loss before.
-/
theorem duplicate_acks_charge_again :
    ¬ ∀ (env : Env) (n : Node) (w : Watched),
      n.config.upload = [] →
        Reaches (Watched.step env) (fun _ _ => True)
          n.watched w →
        w.node.fault = none →
          ChargesOnce env w.node ∧ DeadAfterSix env w := by
  intro hClaim
  have hRun :
      Reaches (Watched.step stillEnv) (fun _ _ => True)
        ownerNode.watched threeAcksWatched :=
    reaches_free _ threeAcks
  have hMany :
      threeAcksWatched.node.fault = none ∧
        (ccPass stillEnv threeAcksWatched.node.reads
          threeAcksWatched.node.config.upload).any
          (fun sv => sv.2.charges = 6 ∧ sv.2.ending = .dead) =
          true := by
    decide +kernel
  have hOnce :=
    (hClaim stillEnv ownerNode threeAcksWatched rfl hRun
      hMany.1).1
  rcases List.any_eq_true.mp hMany.2 with ⟨sv, hVisit, hSix⟩
  have hOne := (hOnce sv hVisit).1
  have hCharges := (of_decide_eq_true hSix).1
  omega

end PeerNet
