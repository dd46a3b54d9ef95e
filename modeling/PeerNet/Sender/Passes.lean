import PeerNet.Sender.Phases

/-
  A pass of `peer_cc` comes to its end.

  The loss branch goes back to the same upload without
  clearing the flags that led there; only `dropped` grows,
  and past five the upload is deleted. So the loop is at an
  upload for six rounds at most, and it leaves the ones that
  stay in a round without a loss. This is so for uploads in
  any state of their counters, except for one thing: with a
  negative `last_acked` the call of `packet_sender` reads
  before the array.

  Main declarations:
    * `Entry`
    * `PassesOver`
    * `passes_over_iff`
    * `entries_of_run`
-/

------------------------------------------------------------
-- The End of a Visit
------------------------------------------------------------

namespace PeerNet

/- An upload, with any counters but those of its array. -/
structure Entry
    (s : BtSender) : Prop
    extends Arrayed s where
  whole : ∀ packet, s.Carries packet → packet.Whole

section

variable {env : Env} {reads fuel : Nat} {s t : BtSender}
variable {v : CcVisit}

theorem Entry.same
    (h : Entry s)
    (hSame : SameUpload s t)
    (hAlive : Alive t) :
    Entry t where
  toArrayed := h.toArrayed.same hSame hAlive
  whole := fun packet hCarries =>
    h.whole packet (hSame.carries hCarries)

theorem Entry.resent
    (h : Entry s)
    (hOpen : Open env reads s) :
    Entry (resend env reads s).sender :=
  h.same resend_same (h.toAlive.resent hOpen)

/- The faults of a visit. -/
theorem Visit.fault_cases
    (h : Visit env reads s v)
    {f : Fault}
    (hEnd : v.ending = .fault f) :
    f = .hang ∨ f = .packetIndex := by
  induction h with
  | hang => exact .inl (CcEnd.fault.inj hEnd).symm
  | finished => cases hEnd
  | dead => cases hEnd
  | resent _ _ _ _ _ _ _ ih => exact ih hEnd
  | resentOut => exact .inr (CcEnd.fault.inj hEnd).symm
  | sent => cases hEnd
  | sentOut => exact .inr (CcEnd.fault.inj hEnd).symm
  | waiting => cases hEnd

/- Rounds that are not needed change nothing. -/
theorem ccVisit_more
    (hEnd :
      (ccVisit env fuel reads s).ending ≠ .fault .hang) :
    ccVisit env (fuel + 1) reads s =
      ccVisit env fuel reads s := by
  induction fuel generalizing reads s with
  | zero => exact absurd rfl hEnd
  | succ fuel ih =>
      rw [ccVisit, ccVisit]
      rw [ccVisit] at hEnd
      split
      · rfl
      next hUnfinished =>
      rw [if_neg hUnfinished] at hEnd
      dsimp only at hEnd ⊢
      split
      · rfl
      next hAlive =>
      rw [if_neg hAlive] at hEnd
      split
      · next hLost =>
          rw [if_pos hLost] at hEnd
          split
          · next hIn =>
              rw [if_pos hIn] at hEnd
              rw [ih hEnd]
          · rfl
      · rfl

/- The loop is at an upload for seven rounds at most. -/
theorem Alive.ccVisit_seven
    (env : Env)
    (reads : Nat)
    (h : Alive s) :
    (ccVisit env 7 reads s).ending ≠ .fault .hang ∧
      ccVisit env ccFuel reads s = ccVisit env 7 reads s := by
  have hLow := h.undropped
  have hMore :
      ∀ more, ccVisit env (7 + more) reads s =
        ccVisit env 7 reads s := by
    intro more
    induction more with
    | zero => rfl
    | succ more ih =>
        rw [← Nat.add_assoc, ccVisit_more, ih]
        exact h.not_hang (by omega)
  exact ⟨h.not_hang (by omega), hMore 250⟩

end

end PeerNet

------------------------------------------------------------
-- The Whole Pass
------------------------------------------------------------

namespace PeerNet

open Runs

/-
  How the loop may leave an upload: it is deleted, or it
  stays after a round in which no loss was pending.
-/
inductive LeftQuiet
    (env : Env)
    (reads : Nat)
    (s : BtSender) : CcEnd → Prop
| finished : LeftQuiet env reads s .finished
| dead : LeftQuiet env reads s .dead
| kept (reads' : Nat) (u t : BtSender) :
    Head env reads s reads' u →
    ¬ Lost env reads' u →
    (t = (sendNext env reads' u).sender ∨
      t = charged env reads' u) →
    LeftQuiet env reads s (.kept t)

/- The loop is at each upload for seven rounds at most. -/
def EndsSoon
    (env : Env)
    (n : Node) : Prop :=
  ∀ start ∈ visitStarts env n.reads n.config.upload,
    (ccVisit env 7 start.1 start.2).ending ≠ .fault .hang ∧
      ccVisit env ccFuel start.1 start.2 =
        ccVisit env 7 start.1 start.2

/- A pass that comes to every upload and leaves it. -/
structure PassesOver
    (env : Env)
    (n : Node) : Prop where
  runs : (n.step env .peerCc).fault = none
  all :
    (visitStarts env n.reads n.config.upload).map Prod.snd =
      n.config.upload
  quiet :
    ∀ start ∈ visitStarts env n.reads n.config.upload,
      LeftQuiet env start.1 start.2
        (ccVisit env ccFuel start.1 start.2).ending
  left :
    (n.step env .peerCc).config.upload =
      (visitStarts env n.reads n.config.upload).filterMap
        fun start =>
          (ccVisit env ccFuel start.1
            start.2).ending.remaining

/- The pass does not come to an upload it reads before. -/
def NoReadBefore
    (env : Env)
    (n : Node) : Prop :=
  ∀ start ∈ visitStarts env n.reads n.config.upload,
    ¬ ReadsBefore env start.1 start.2

section

variable {env : Env} {reads : Nat} {n n₀ : Node}
variable {s t : BtSender} {uploads : List BtSender}
variable {src : Addr} {packet : Packet}

/- A visit that ends leaves the upload in one of these ways. -/
theorem leftQuiet_of_ends
    (hEnd :
      ∀ f, (ccVisit env ccFuel reads s).ending ≠ .fault f) :
    LeftQuiet env reads s
      (ccVisit env ccFuel reads s).ending := by
  have hWay := visit_ccVisit env ccFuel reads s
  cases hIs : (ccVisit env ccFuel reads s).ending with
  | finished => exact .finished
  | dead => exact .dead
  | fault f => exact absurd hIs (hEnd f)
  | kept t =>
      rcases hWay.kept_head hIs with
        ⟨reads', u, hHead, _, hQuiet, hLeft⟩
      exact .kept reads' u t hHead hQuiet hLeft

theorem LeftQuiet.not_fault
    {f : Fault} :
    ¬ LeftQuiet env reads s (.fault f) := by
  intro h
  cases h

/- Without a fault a pass comes to every upload. -/
theorem visitStarts_all
    (hEnds :
      ∀ start ∈ visitStarts env reads uploads,
        ∀ f, (ccVisit env ccFuel start.1 start.2).ending ≠
          .fault f) :
    (visitStarts env reads uploads).map Prod.snd =
      uploads := by
  induction uploads generalizing reads with
  | nil => rfl
  | cons s rest ih =>
      unfold visitStarts at hEnds ⊢
      dsimp only at hEnds ⊢
      split at hEnds
      · next f hFault =>
          exact absurd hFault
            (hEnds _ List.mem_cons_self f)
      · rw [List.map_cons,
          ih fun start hStart =>
            hEnds start (List.mem_cons_of_mem _ hStart)]

/- The visits of a pass over entries. -/
theorem Entry.ends_iff
    (h : Entry s) :
    (∀ f, (ccVisit env ccFuel reads s).ending ≠ .fault f) ↔
      ¬ ReadsBefore env reads s := by
  have hWay := visit_ccVisit env ccFuel reads s
  have hSeven := h.toAlive.ccVisit_seven env reads
  have hSome :
      (ccVisit env ccFuel reads s).ending ≠
        .fault .hang := by
    rw [hSeven.2]
    exact hSeven.1
  have hIff := hWay.outside_iff h.toArrayed hSome
  constructor
  · intro hEnds hBefore
    exact hEnds .packetIndex (hIff.mpr hBefore)
  · intro hInside f hFault
    rcases hWay.fault_cases hFault with rfl | rfl
    · exact hSome hFault
    · exact hInside (hIff.mp hFault)

/- A pass over entries goes wrong at such a visit only. -/
theorem not_broken_of_ends
    (hEntries : ∀ s ∈ uploads, Entry s)
    (hEnds :
      ∀ start ∈ visitStarts env reads uploads,
        ∀ f, (ccVisit env ccFuel start.1 start.2).ending ≠
          .fault f) :
    ¬ Broken (ccPass env reads uploads) := by
  rintro ⟨sv, hVisit, hWhich⟩
  have hEntry := hEntries sv.1 (mem_ccPass hVisit).1
  rw [ccPass_eq] at hVisit
  rcases List.mem_map.mp hVisit with ⟨start, hStart, rfl⟩
  rcases hWhich with ⟨f, hFault⟩ | ⟨packet, hSent, hTorn⟩
  · exact hEnds start hStart f hFault
  · have hWay := visit_ccVisit env ccFuel start.1 start.2
    exact hTorn (hEntry.whole packet (hWay.queued hSent))

/-
  The loop of `peer_cc` ends at every upload. The pass comes
  to all of them, and leaves those that stay without a loss
  pending, exactly where it finds none for which it would
  read before the array.
-/
theorem passes_over_iff
    (env : Env)
    (hRun : n.fault = none)
    (hEntries : ∀ s ∈ n.config.upload, Entry s) :
    EndsSoon env n ∧
      (PassesOver env n ↔ NoReadBefore env n) := by
  have hOld :
      ∀ start ∈ visitStarts env n.reads n.config.upload,
        Entry start.2 := by
    intro start hStart
    exact hEntries _ (mem_of_mem_visitStarts hStart)
  refine ⟨?_, ?_, ?_⟩
  · intro start hStart
    exact (hOld start hStart).toAlive.ccVisit_seven env
      start.1
  · intro hOver start hStart
    apply (hOld start hStart).ends_iff.mp
    intro f hFault
    have hQuiet := hOver.quiet start hStart
    rw [hFault] at hQuiet
    exact hQuiet.not_fault
  · intro hNone
    have hEnds :
        ∀ start ∈ visitStarts env n.reads n.config.upload,
          ∀ f,
            (ccVisit env ccFuel start.1 start.2).ending ≠
              .fault f := by
      intro start hStart
      exact (hOld start hStart).ends_iff.mpr
        (hNone start hStart)
    rcases step_peerCc env hRun with
      ⟨left, new, reads, fault, hStep, hPassed⟩
    have hGoing : fault = none := by
      by_contra hFault
      exact not_broken_of_ends hEntries hEnds
        (hPassed.broken hFault)
    constructor
    · rw [hStep]
      exact hGoing
    · exact visitStarts_all hEnds
    · intro start hStart
      exact leftQuiet_of_ends (hEnds start hStart)
    · rw [hStep]
      rcases hPassed.left with hLeft | ⟨_, hFault⟩
      · rw [Node.pass_config, hLeft, leftUploads, ccPass_eq,
          List.filterMap_map]
        rfl
      · exact absurd hGoing hFault

end

end PeerNet

------------------------------------------------------------
-- Uploads of a Run
------------------------------------------------------------

namespace PeerNet

open Runs

section

variable {env : Env} {n n₀ : Node} {s t : BtSender}
variable {src : Addr} {packet : Packet}

/- `send_data` makes an entry. -/
theorem Uploaded.made
    (h : Uploaded env n src packet s) :
    Entry s where
  toArrayed := h.sound.toArrayed
  whole := by
    rcases h.entry with ⟨filechunk, readBytes, hRead, hIs⟩
    have hFits : readBytes ≤ filechunk.length := by
      rw [hRead.length]
      exact hRead.fits
    rintro packet ⟨packets, hPackets, hMem⟩
    rw [hIs, dataPackets_eq hFits] at hPackets
    rw [← Option.some.inj hPackets, List.mem_map] at hMem
    rcases hMem with ⟨packet', hPacket, hSame⟩
    rcases mem_numbered hPacket with ⟨k, part, hPart, hMade⟩
    rw [← Option.some.inj hSame, hMade]
    exact dataPacket_whole
      (length_le_of_mem_parts (List.mem_of_getElem? hPart))

theorem Entry.acked
    (h : Entry s)
    (ackNum : UInt32) :
    Entry (ackSender ackNum s) where
  toAlive := h.toAlive.acked ackNum
  array := by
    unfold ArraySized
    rw [ackSender_packets, ackSender_numPackets]
    exact h.array
  counter := isInt_ackSender ackNum h.counter
  whole := by
    intro packet hCarries
    apply h.whole
    unfold BtSender.Carries at hCarries ⊢
    rwa [ackSender_packets] at hCarries

/- An upload that stays is still an entry. -/
theorem Visit.kept_entry
    {reads : Nat}
    {v : CcVisit}
    (h : Visit env reads s v)
    (hEntry : Entry s)
    (hEnd : v.ending = .kept t) :
    Entry t := by
  rcases h.kept_head hEnd with
    ⟨reads', u, hHead, hOpen, _, hLeft⟩
  have hLast : Entry u := by
    apply hHead.invariant hEntry
    intro reads t hEntry hOpen _ _
    exact hEntry.resent hOpen
  have hTested := hLast.toAlive.tested hOpen
  rcases hLeft with rfl | rfl
  · apply hLast.same sendNext_same
    unfold sendNext
    constructor
    · rw [packetSender_dropped]
      exact hTested.undropped
    · rw [packetSender_dropped]
      exact hTested.alive
  · exact hLast.same charged_same hTested

/- Every event of a process leaves entries. -/
theorem entries_step
    (env : Env)
    (hEntries : ∀ s ∈ n.config.upload, Entry s)
    (e : NodeEvent) :
    ∀ s ∈ (n.step env e).config.upload, Entry s := by
  intro t ht
  by_cases hReceives : e.receives
  · have hSame := (sameSending_step env n hReceives).upload
    rw [hSame] at ht
    exact hEntries t ht
  cases hRun : n.fault with
  | some f =>
      rw [step_of_fault _ _ hRun] at ht
      exact hEntries t ht
  | none =>
  cases e with
  | get src packet =>
      rcases step_get env n src packet with
        ⟨fault, hStep⟩ | ⟨s, hUploaded, hStep⟩
      · rw [hStep] at ht
        exact hEntries t ht
      · rw [hStep] at ht
        rcases List.mem_cons.mp ht with rfl | hOld
        · exact hUploaded.made
        · exact hEntries t hOld
  | ack src packet =>
      rw [step_ack env hRun] at ht
      rcases mem_ackedUploads ht with ⟨s, hs, rfl | rfl⟩
      · exact hEntries t hs
      · exact (hEntries s hs).acked _
  | peerCc =>
      rcases step_peerCc env hRun with
        ⟨uploads, new, reads, fault, hStep, hPassed⟩
      rw [hStep, Node.pass_config] at ht
      rcases hPassed.left with hLeft | ⟨hAll, _⟩
      · rw [hLeft] at ht
        rcases mem_leftUploads ht with ⟨start, hStart, hEnd⟩
        have hOld := mem_of_mem_visitStarts hStart
        exact
          (visit_ccVisit env ccFuel start.1
            start.2).kept_entry (hEntries _ hOld) hEnd
      · rw [hAll] at ht
        exact hEntries t ht
  | userGet _ _ => exact absurd trivial hReceives
  | timeoutCheck => exact absurd trivial hReceives
  | getAllTheThingz => exact absurd trivial hReceives
  | ihave _ _ => exact absurd trivial hReceives
  | data _ _ => exact absurd trivial hReceives

/- The uploads of every run are entries. -/
theorem entries_of_run
    (hStart : n₀.config.upload = [])
    (hRun : Reaches (Node.step env) (fun _ _ => True) n₀ n) :
    ∀ s ∈ n.config.upload, Entry s := by
  apply hRun.invariant
    (I := fun n => ∀ s ∈ n.config.upload, Entry s)
  · rw [hStart]
    exact List.forall_mem_nil _
  · intro m e hEntries _
    exact entries_step env hEntries e

end

/- The first pass after a GET. -/
theorem passes_over_zeros :
    EndsSoon stillEnv (ownerNode.step stillEnv zeroGet) ∧
      (PassesOver stillEnv
          (ownerNode.step stillEnv zeroGet) ↔
        NoReadBefore stillEnv
          (ownerNode.step stillEnv zeroGet)) := by
  have hRun :
      Reaches (Node.step stillEnv) (fun _ _ => True)
        ownerNode (ownerNode.step stillEnv zeroGet) :=
    .step zeroGet .refl trivial
  exact passes_over_iff stillEnv (by decide +kernel)
    (entries_of_run rfl hRun)

/- Three ACKs with the number 2^32 - 1 after the first pass. -/
def threeWrapped : Node :=
  foldSteps (Node.step stillEnv) ownerNode
    [zeroGet, .peerCc, .ack ⟨1, 1⟩ (ackPacket 4294967295),
      .ack ⟨1, 1⟩ (ackPacket 4294967295),
      .ack ⟨1, 1⟩ (ackPacket 4294967295)]

/- The next pass is not over: it reads before the array. -/
theorem pass_reads_before :
    ¬ ∀ (env : Env) (n : Node),
      n.fault = none →
        (∀ s ∈ n.config.upload, Entry s) →
          PassesOver env n := by
  intro hClaim
  have hRun :
      Reaches (Node.step stillEnv) (fun _ _ => True)
        ownerNode threeWrapped :=
    reaches_free _ _
  have hOver :=
    hClaim stillEnv threeWrapped (by decide +kernel)
      (entries_of_run rfl hRun)
  have hBefore :
      (threeWrapped.step stillEnv .peerCc).fault =
        some .packetIndex := by
    decide +kernel
  rw [hOver.runs] at hBefore
  cases hBefore

end PeerNet
