import PeerNet.Lib.Consecutive
import PeerNet.Sender.Phases

/-
  What one upload sends, and in which order.

  Three functions move the window: an ACK shifts and widens
  it, a loss cuts it to one packet, and `packet_sender` fills
  it from the last acknowledged packet on. `last_sent` goes
  back with a loss, so what was ever sent is kept beside the
  upload in `Flow`. As long as ACKs number only what was
  sent, that is `1 .. m`, and `last_acked` is at most `m`.

  Main declarations:
    * `Flow`
    * `Sends`
    * `Steady`
    * `Visit.steady`
    * `window_discipline`
-/

------------------------------------------------------------
-- An Upload and What It Sent
------------------------------------------------------------

namespace PeerNet

open Runs Consecutive

/- An upload, and the packets queued for it so far. -/
structure Flow where
  upload : Option BtSender
  sent : List Packet

/- The numbers of packets. -/
abbrev numbersOf
    (packets : List Packet) : List Int :=
  packets.map Packet.seq

/- An event, and what it queues. -/
def Flow.step
    (φ : Flow)
    (e : UploadEvent) : Flow where
  upload := uploadStep φ.upload e
  sent :=
    match φ.upload, e with
    | some s, .pass env reads =>
        φ.sent ++ (ccVisit env ccFuel reads s).queued
    | _, _ => φ.sent

/- ACKs number at most what was sent. -/
def Flow.Acks
    (φ : Flow) :
    UploadEvent → Prop
| .ack ackNum =>
    ackNum = 0 ∨
      ∃ packet ∈ φ.sent, (ackNum.toNat : Int) ≤ packet.seq
| .pass _ _ => True

/-
  The calls of `packet_sender` in a pass: the reading they
  start at, and the upload they are given.
-/
inductive Sends
    (env : Env)
    (reads : Nat)
    (s : BtSender) : Nat → BtSender → Prop
| resend (reads' : Nat) (t : BtSender) :
    Head env reads s reads' t →
    Open env reads' t →
    Lost env reads' t →
    Sends env reads s (reads' + 1)
      (collapseWindow (charged env reads' t))
| next (reads' : Nat) (t : BtSender) :
    Head env reads s reads' t →
    Open env reads' t →
    ¬ Lost env reads' t →
    t.lastAcked = t.lastSent →
    Sends env reads s (reads' + 1) (charged env reads' t)

/- The packets of one call. -/
def batch
    (env : Env)
    (reads : Nat)
    (t : BtSender) : List Packet :=
  (packetSender env reads t
    (wrapInt (t.lastAcked + 1))).queued

/- The upload has the packets, and `1 .. m` were sent. -/
structure Ready
    (pool : List Packet)
    (m : Int)
    (s : BtSender) : Prop
    extends Sound s where
  array : s.packets = some (pool.map some)
  count : s.numPackets = pool.length
  low : 0 ≤ s.lastAcked
  high : s.lastAcked ≤ m

/- And what is underway is within the window. -/
structure Steady
    (pool : List Packet)
    (m : Int)
    (s : BtSender) : Prop
    extends Ready pool m s where
  within : s.lastSent - s.lastAcked ≤ s.windowSize

/- The two calls of `packet_sender` in a round. -/
theorem batch_resend
    (env : Env)
    (reads : Nat)
    (s : BtSender) :
    batch env (reads + 1)
        (collapseWindow (charged env reads s)) =
      (resend env reads s).queued := by
  unfold batch resend
  rfl

theorem batch_sendNext
    (env : Env)
    (reads : Nat)
    (s : BtSender) :
    batch env (reads + 1) (charged env reads s) =
      (sendNext env reads s).queued := by
  unfold batch sendNext
  rfl

theorem Flow.step_pass
    (env : Env)
    (reads : Nat)
    (s : BtSender)
    (sent : List Packet) :
    Flow.step ⟨some s, sent⟩ (.pass env reads) =
      ⟨(ccVisit env ccFuel reads s).ending.remaining,
        sent ++ (ccVisit env ccFuel reads s).queued⟩ :=
  rfl

end PeerNet

------------------------------------------------------------
-- One Batch
------------------------------------------------------------

namespace PeerNet

open Consecutive

section

variable {env : Env} {reads reads' : Nat} {m m' : Int}
variable {pool sent : List Packet} {s t : BtSender}
variable {v : CcVisit}

theorem numPackets_le
    (readBytes : Nat) :
    numPackets readBytes ≤ readBytes := by
  have hData : maxDataSize = 1484 := rfl
  unfold numPackets
  rw [hData]
  dsimp only
  split
  · omega
  · omega

/- The packets of an upload, numbered from one. -/
theorem numbersOf_dataPackets
    {filechunk : Bytes}
    {readBytes : Nat}
    (hLength : filechunk.length = btChunkSize)
    (hRead : readBytes ≤ btChunkSize) :
    numbersOf (dataPackets filechunk readBytes) =
      block 0 (dataPackets filechunk readBytes).length := by
  have hMax : maxSeqnum = 524288 := by decide
  have hSize : btChunkSize = 524288 := rfl
  have hFew := numPackets_le readBytes
  rw [dataPackets_eq (by omega), numbersOf,
    numbered_seq (by omega) _ (by rw [length_parts]; omega),
    length_numbered]
  rfl

theorem numbersOf_append :
    numbersOf (pool ++ sent) =
      numbersOf pool ++ numbersOf sent :=
  List.map_append

/- Some of them, in a row. -/
theorem numbersOf_slice
    {n : Nat}
    (hNumbers : numbersOf pool = block 0 pool.length)
    (k : Nat)
    (hRange : k + n ≤ pool.length) :
    numbersOf ((pool.drop k).take n) = block k n := by
  have hSlice :
      numbersOf ((pool.drop k).take n) =
        ((block 0 pool.length).drop k).take n := by
    rw [← hNumbers, numbersOf, List.map_take, List.map_drop]
  rw [hSlice]
  apply List.ext_getElem
  · simp [block]
    omega
  · intro i hLeft hRight
    simp only [block, List.getElem_take, List.getElem_drop,
      List.getElem_map, List.getElem_range]
    push_cast
    omega

/- `packet_sender` fills the window. -/
theorem Ready.sender_eq
    (h : Ready pool m s)
    (env : Env)
    (reads : Nat) :
    packetSender env reads s
        (wrapInt (s.lastAcked + 1)) =
      ⟨{ s with
          sentTime := timeSeconds env reads
          lastSent :=
            min (wrapInt (s.lastAcked + s.windowSize))
              s.numPackets },
        reads + 1,
        (pool.drop s.lastAcked.toNat).take
          (min (wrapInt (s.lastAcked + s.windowSize))
              s.numPackets -
            s.lastAcked).toNat,
        true⟩ := by
  have hNat : (s.lastAcked.toNat : Int) = s.lastAcked :=
    Int.toNat_of_nonneg h.low
  rw [packetSender_complete env reads h.array h.count
    s.lastAcked.toNat (by rw [hNat]; exact h.counter)
    (by rw [hNat]), sendUpTo_eq, hNat]

/- With consecutive numbers. -/
theorem Ready.batch_numbers
    (h : Ready pool m s)
    (hNumbers : numbersOf pool = block 0 pool.length)
    (env : Env)
    (reads : Nat) :
    numbersOf (batch env reads s) =
      block s.lastAcked
        (min (wrapInt (s.lastAcked + s.windowSize))
            s.numPackets -
          s.lastAcked).toNat := by
  have hLow := h.low
  have hCount := h.count
  unfold batch
  rw [h.sender_eq]
  dsimp only
  rcases Nat.eq_zero_or_pos
      (min (wrapInt (s.lastAcked + s.windowSize))
          s.numPackets -
        s.lastAcked).toNat with hNone | hSome
  · rw [hNone, List.take_zero, block_zero]
    rfl
  · rw [numbersOf_slice hNumbers _ (by omega),
      Int.toNat_of_nonneg hLow]

/- Behind the batch the window is full. -/
theorem Ready.sending
    (h : Ready pool m s)
    (env : Env)
    (reads : Nat) :
    Steady pool m
      (packetSender env reads s
        (wrapInt (s.lastAcked + 1))).sender where
  toSound := h.toSound.sending _
  array := packetSender_same.packets.trans h.array
  count := packetSender_same.numPackets.trans h.count
  low := by
    rw [packetSender_same.lastAcked]
    exact h.low
  high := by
    rw [packetSender_same.lastAcked]
    exact h.high
  within := by
    have hLow := h.low
    have hWindow := h.window
    have hEnd :
        wrapInt (s.lastAcked + s.windowSize) ≤
          s.lastAcked + s.windowSize :=
      wrapInt_le (by omega)
    rw [h.sender_eq]
    dsimp only
    omega

theorem Ready.mono
    (h : Ready pool m s)
    (hLe : m ≤ m') :
    Ready pool m' s :=
  { h with high := Int.le_trans h.high hLe }

theorem Steady.mono
    (h : Steady pool m s)
    (hLe : m ≤ m') :
    Steady pool m' s :=
  { h with high := Int.le_trans h.high hLe }

theorem Steady.tested
    (h : Steady pool m s)
    (hOpen : Open env reads s) :
    Steady pool m (charged env reads s) :=
  { h with toSound := h.toSound.tested hOpen }

/- The upload that a retransmission is sent of. -/
theorem Ready.cut
    (h : Ready pool m s)
    (hOpen : Open env reads s) :
    Ready pool m (collapseWindow (charged env reads s)) :=
  { h with
    toSound := (h.toSound.tested hOpen).collapsed }

/- What is sent then is `1 .. m'` for some `m'`. -/
structure Extends
    (pool : List Packet)
    (m : Int)
    (sent : List Packet)
    (m' : Int)
    (more : List Packet) : Prop where
  gapless : Gapless (numbersOf (sent ++ more))
  upTo : UpTo (numbersOf (sent ++ more)) m'
  grown : m ≤ m'
  inside : m' ≤ pool.length

/- A batch goes behind what was sent, or repeats of it. -/
theorem Ready.extends
    (h : Ready pool m s)
    (hNumbers : numbersOf pool = block 0 pool.length)
    (hGapless : Gapless (numbersOf sent))
    (hUpTo : UpTo (numbersOf sent) m)
    (hInside : m ≤ pool.length)
    (env : Env)
    (reads : Nat) :
    ∃ m', Extends pool m sent m' (batch env reads s) := by
  have hCount := h.count
  have hBatch := hGapless.append_block hUpTo h.low h.high
    (min (wrapInt (s.lastAcked + s.windowSize))
        s.numPackets -
      s.lastAcked).toNat
  have hSame :
      numbersOf (sent ++ batch env reads s) =
        numbersOf sent ++
          block s.lastAcked
            (min (wrapInt (s.lastAcked + s.windowSize))
                s.numPackets -
              s.lastAcked).toNat := by
    rw [numbersOf_append, h.batch_numbers hNumbers]
  rw [← hSame] at hBatch
  have hHigh := h.high
  exact ⟨_, hBatch.1, hBatch.2, by omega, by omega⟩

end

end PeerNet

------------------------------------------------------------
-- One Event
------------------------------------------------------------

namespace PeerNet

open Runs Consecutive

section

variable {env : Env} {reads reads' : Nat} {m m' m'' : Int}
variable {pool sent more : List Packet} {s t : BtSender}
variable {v : CcVisit} {φ : Flow} {e : UploadEvent}

theorem Extends.none
    (hGapless : Gapless (numbersOf sent))
    (hUpTo : UpTo (numbersOf sent) m)
    (hInside : m ≤ pool.length) :
    Extends pool m sent m [] := by
  rw [← List.append_nil sent] at hGapless hUpTo
  exact ⟨hGapless, hUpTo, Int.le_refl m, hInside⟩

theorem Extends.trans
    {later : List Packet}
    (h : Extends pool m sent m' more)
    (h' : Extends pool m' (sent ++ more) m'' later) :
    Extends pool m sent m'' (more ++ later) where
  gapless := by
    rw [← List.append_assoc]
    exact h'.gapless
  upTo := by
    rw [← List.append_assoc]
    exact h'.upTo
  grown := Int.le_trans h.grown h'.grown
  inside := h'.inside

/- A visit sends on, and leaves a steady upload. -/
theorem Visit.steady
    (h : Visit env reads s v)
    (hSteady : Steady pool m s)
    (hNumbers : numbersOf pool = block 0 pool.length)
    (hGapless : Gapless (numbersOf sent))
    (hUpTo : UpTo (numbersOf sent) m)
    (hInside : m ≤ pool.length) :
    ∃ m', Extends pool m sent m' v.queued ∧
      ∀ t, v.ending = .kept t → Steady pool m' t := by
  induction h generalizing sent m with
  | hang =>
      refine ⟨m, .none hGapless hUpTo hInside, fun t ht => ?_⟩
      cases ht
  | finished =>
      refine ⟨m, .none hGapless hUpTo hInside, fun t ht => ?_⟩
      cases ht
  | dead =>
      refine ⟨m, .none hGapless hUpTo hInside, fun t ht => ?_⟩
      cases ht
  | resent reads s v hOpen hLost hIn _ ih =>
      have hCut := hSteady.toReady.cut hOpen
      rcases hCut.extends hNumbers hGapless hUpTo hInside env
        (reads + 1) with ⟨m', hFirst⟩
      rw [batch_resend] at hFirst
      have hAgain :
          Steady pool m' (resend env reads s).sender :=
        (hCut.sending env (reads + 1)).mono hFirst.grown
      rcases ih hAgain hFirst.gapless hFirst.upTo
        hFirst.inside with ⟨m'', hRest, hKept⟩
      exact ⟨m'', hFirst.trans hRest, hKept⟩
  | resentOut reads s hOpen _ hOut =>
      have hIn : (resend env reads s).inRange = true :=
        congrArg SendResult.inRange
          ((hSteady.toReady.cut hOpen).sender_eq env
            (reads + 1))
      rw [hIn] at hOut
      cases hOut
  | sent reads s hOpen _ _ _ =>
      have hTested := (hSteady.tested hOpen).toReady
      rcases hTested.extends hNumbers hGapless hUpTo hInside
        env (reads + 1) with ⟨m', hFirst⟩
      rw [batch_sendNext] at hFirst
      refine ⟨m', hFirst, fun t ht => ?_⟩
      rw [← CcEnd.kept.inj ht]
      exact (hTested.sending env (reads + 1)).mono
        hFirst.grown
  | sentOut reads s hOpen _ _ hOut =>
      have hIn : (sendNext env reads s).inRange = true :=
        congrArg SendResult.inRange
          ((hSteady.tested hOpen).toReady.sender_eq env
            (reads + 1))
      rw [hIn] at hOut
      cases hOut
  | waiting reads s hOpen =>
      refine ⟨m, .none hGapless hUpTo hInside, fun t ht => ?_⟩
      rw [← CcEnd.kept.inj ht]
      exact hSteady.tested hOpen

/- An ACK of what was sent raises `last_acked` at most to it. -/
theorem ackSender_lastAcked_max
    (ackNum : UInt32)
    (hLow : 0 ≤ s.lastAcked)
    (hFew : s.lastAcked < 2 ^ 31)
    (hSmall : ackNum.toNat < 2 ^ 31) :
    (ackSender ackNum s).lastAcked =
      max s.lastAcked ackNum.toNat := by
  have hStored : toUInt32 s.lastAcked = s.lastAcked.toNat := by
    unfold toUInt32
    rw [Int.emod_eq_of_lt hLow (by omega)]
  have hRead : toInt32 ackNum = ackNum.toNat := by
    unfold toInt32
    apply Int.bmod_eq_of_le
    · omega
    · omega
  rw [ackSender_lastAcked, hStored, hRead]
  split
  · omega
  · omega

theorem Steady.acked
    (h : Steady pool m s)
    (hFew : m < 2 ^ 31)
    {ackNum : UInt32}
    (hAck : (ackNum.toNat : Int) ≤ m) :
    Steady pool m (ackSender ackNum s) := by
  have hLow := h.low
  have hHigh := h.high
  have hWithin := h.within
  have hMax :=
    ackSender_lastAcked_max ackNum hLow (by omega)
      (by omega)
  have hWide := ackSender_windowSize ackNum s
  refine ⟨⟨h.toSound.acked ackNum, ?_, ?_, ?_, ?_⟩, ?_⟩
  · rw [ackSender_packets]
    exact h.array
  · rw [ackSender_numPackets]
    exact h.count
  · omega
  · omega
  · rw [ackSender_lastSent]
    omega

/- The upload and what was sent for it agree. -/
structure Flow.Steady
    (pool : List Packet)
    (φ : Flow) : Prop where
  gapless : Gapless (numbersOf φ.sent)
  upTo : ∃ m, UpTo (numbersOf φ.sent) m ∧ m ≤ pool.length ∧
    ∀ s, φ.upload = some s → PeerNet.Steady pool m s

/- An honest ACK numbers at most what was sent. -/
theorem Flow.Acks.le
    {ackNum : UInt32}
    (h : φ.Acks (.ack ackNum))
    (hUpTo : UpTo (numbersOf φ.sent) m) :
    (ackNum.toNat : Int) ≤ m := by
  rcases h with rfl | ⟨packet, hMem, hLe⟩
  · exact hUpTo.1
  · have hNumber := (hUpTo.2 packet.seq).mp
      (List.mem_map_of_mem hMem)
    omega

/- Every event keeps this, if the ACK is an honest one. -/
theorem Flow.Steady.step
    (h : φ.Steady pool)
    (hNumbers : numbersOf pool = block 0 pool.length)
    (hFew : pool.length < 2 ^ 31)
    (hAcks : φ.Acks e) :
    (φ.step e).Steady pool := by
  rcases φ with ⟨u, sent⟩
  rcases h with ⟨hGapless, m, hUpTo, hInside, hUpload⟩
  dsimp only at hGapless hUpTo hUpload
  cases u with
  | none =>
      cases e with
      | ack ackNum =>
          refine ⟨hGapless, m, hUpTo, hInside, fun s hs => ?_⟩
          cases hs
      | pass env reads =>
          refine ⟨hGapless, m, hUpTo, hInside, fun s hs => ?_⟩
          cases hs
  | some s =>
      have hSteady := hUpload s rfl
      cases e with
      | ack ackNum =>
          refine ⟨hGapless, m, hUpTo, hInside, fun t ht => ?_⟩
          rw [← Option.some.inj ht]
          exact hSteady.acked (by omega) (hAcks.le hUpTo)
      | pass env reads =>
          rcases (visit_ccVisit env ccFuel reads s).steady
              hSteady hNumbers hGapless hUpTo hInside with
            ⟨m', hSent, hKept⟩
          rw [Flow.step_pass]
          refine ⟨hSent.gapless, m', hSent.upTo, hSent.inside,
            fun t ht => ?_⟩
          exact hKept t (CcEnd.remaining_eq_some.mp ht)

theorem Flow.Steady.made
    {filechunk : Bytes}
    {readBytes : Nat}
    (hash : Hash)
    (peer : PeerRef) :
    Flow.Steady (dataPackets filechunk readBytes)
      ⟨some (madeUpload hash (dataPackets filechunk readBytes)
        peer), []⟩ where
  gapless := .nil
  upTo := by
    refine ⟨0, upTo_nil, by omega, fun s hs => ?_⟩
    rw [← Option.some.inj hs]
    refine ⟨⟨sound_newSender hash _ peer, rfl, rfl, ?_, ?_⟩,
      ?_⟩
    · exact Int.le_refl 0
    · exact Int.le_refl 0
    · exact Int.zero_le_ofNat 1

/- Every head of a pass is steady, as far as was sent. -/
theorem Steady.head
    (h : PeerNet.Steady pool m s)
    (hHead : Head env reads s reads' t) :
    PeerNet.Steady pool m t := by
  apply hHead.invariant h
  intro reads t hSteady hOpen _ _
  exact (hSteady.toReady.cut hOpen).sending env (reads + 1)

/- The upload that a batch is sent of. -/
theorem Sends.ready
    (h : Sends env reads s reads' t)
    (hSteady : PeerNet.Steady pool m s) :
    Ready pool m t := by
  cases h with
  | resend reads' t hHead hOpen _ =>
      exact (hSteady.head hHead).toReady.cut hOpen
  | next reads' t hHead hOpen _ _ =>
      exact ((hSteady.head hHead).tested hOpen).toReady

end

end PeerNet

------------------------------------------------------------
-- Every Run
------------------------------------------------------------

namespace PeerNet

open Runs Consecutive

/-
  How an upload is sent, in any state. Where a window ends is
  an `int` sum in the source.
-/
structure Disciplined
    (φ : Flow) : Prop where
  batches : ∀ s, φ.upload = some s →
    ∀ env reads reads' t, Sends env reads s reads' t →
      numbersOf (batch env reads' t) =
        block t.lastAcked
          (min (wrapInt (t.lastAcked + t.windowSize))
              t.numPackets -
            t.lastAcked).toNat
  unwrapped : ∀ s, φ.upload = some s →
    ∀ env reads reads' t, Sends env reads s reads' t →
      t.lastAcked + t.windowSize < 2 ^ 31 →
        numbersOf (batch env reads' t) =
          block t.lastAcked
            (min (t.lastAcked + t.windowSize) t.numPackets -
              t.lastAcked).toNat
  window : ∀ s, φ.upload = some s →
    s.lastSent - s.lastAcked ≤ s.windowSize
  heads : ∀ s, φ.upload = some s →
    ∀ env reads reads' t, Head env reads s reads' t →
      t.lastSent - t.lastAcked ≤ t.windowSize
  forward : ∀ s e t, φ.upload = some s → φ.Acks e →
    (φ.step e).upload = some t → s.lastAcked ≤ t.lastAcked
  ordered : Gapless (numbersOf φ.sent)
  initial : ∀ pre, pre <+: φ.sent →
    ∃ m, UpTo (numbersOf pre) m
  acked : ∀ s, φ.upload = some s →
    ∃ m, UpTo (numbersOf φ.sent) m ∧ s.lastAcked ≤ m

section

variable {φ : Flow}

theorem Flow.Steady.disciplined
    {pool : List Packet}
    (h : φ.Steady pool)
    (hNumbers : numbersOf pool = block 0 pool.length)
    (hFew : pool.length < 2 ^ 31) :
    Disciplined φ := by
  rcases h.upTo with ⟨m, hUpTo, hInside, hUpload⟩
  constructor
  · intro s hs env reads reads' t hSends
    exact (hSends.ready (hUpload s hs)).batch_numbers hNumbers
      env reads'
  · intro s hs env reads reads' t hSends hSum
    have hReady := hSends.ready (hUpload s hs)
    have hLow := hReady.low
    have hWindow := hReady.window
    rw [hReady.batch_numbers hNumbers,
      wrapInt_eq ⟨by omega, hSum⟩]
  · exact fun s hs => (hUpload s hs).within
  · intro s hs env reads reads' t hHead
    exact ((hUpload s hs).head hHead).within
  · intro s e t hs hAcks ht
    have hSteady := hUpload s hs
    have hUp : uploadStep (some s) e = some t := by
      rw [← hs]
      exact ht
    cases e with
    | ack ackNum =>
        have hNumber := hAcks.le hUpTo
        have hLow := hSteady.low
        have hHigh := hSteady.high
        rw [← Option.some.inj hUp,
          ackSender_lastAcked_max _ hLow (by omega) (by omega)]
        exact Int.le_max_left _ _
    | pass env reads =>
        have hKept := CcEnd.remaining_eq_some.mp hUp
        have hSame :=
          (visit_ccVisit env ccFuel reads s).kept hKept
        exact hSame.1.lastAcked.ge
  · exact h.gapless
  · rintro pre ⟨rest, hIs⟩
    have hPrefix : numbersOf pre <+: numbersOf φ.sent := by
      rw [← hIs, numbersOf_append]
      exact List.prefix_append _ _
    exact (h.gapless.of_prefix hPrefix).exists_upTo
  · exact fun s hs => ⟨m, hUpTo, (hUpload s hs).high⟩

/-
  In every run of an upload in which ACKs number only what
  was sent, the window bounds what is underway, batches are
  consecutive and no packet is sent before the lower ones.
-/
theorem window_discipline
    (hash : Hash)
    (peer : PeerRef)
    (filechunk : Bytes)
    (readBytes : Nat)
    (hLength : filechunk.length = btChunkSize)
    (hRead : readBytes ≤ btChunkSize)
    (hRun :
      Reaches Flow.step Flow.Acks
        ⟨some (madeUpload hash
          (dataPackets filechunk readBytes) peer), []⟩ φ) :
    Disciplined φ := by
  have hNumbers := numbersOf_dataPackets hLength hRead
  have hFew :
      (dataPackets filechunk readBytes).length < 2 ^ 31 := by
    have hSize : btChunkSize = 524288 := rfl
    have hCount := numPackets_le readBytes
    rw [dataPackets_eq (by omega), length_numbered,
      length_parts]
    omega
  have hSteady :
      φ.Steady (dataPackets filechunk readBytes) := by
    apply hRun.invariant (Flow.Steady.made hash peer)
    exact fun ψ e h hAcks => h.step hNumbers hFew hAcks
  exact hSteady.disciplined hNumbers hFew

/- Three packets: the first is sent, then the others. -/
theorem window_discipline_zeros :
    Disciplined
      (foldSteps Flow.step
        ⟨some (madeUpload (Vector.replicate 20 0)
          (dataPackets (List.replicate btChunkSize 0) 3000)
            0),
          []⟩
        [.pass stillEnv 0, .ack 1, .pass stillEnv 1,
          .ack 2]) := by
  apply window_discipline (Vector.replicate 20 0) 0
    (List.replicate btChunkSize 0) 3000
  · exact List.length_replicate
  · decide
  · refine reaches_foldSteps
      ⟨trivial, .inr ?_, trivial, .inr ?_, trivial⟩
    · decide
    · decide

end

end PeerNet
