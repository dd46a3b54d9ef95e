import PeerNet.Sender.Visits

/-
  The window of an upload.

  `packet_sender` counts in `int`s. From behind a count its
  sums either stay in range or leave nothing to send; with a
  negative `last_acked` it reads before its array.

  An upload that `send_data` made keeps an array without
  holes, a window of at least one packet and a `dropped` of
  at most five. For such an upload `dropped` counts without
  wrapping, and the loop of `peer_cc` leaves it after at
  most six rounds that handle a loss.

  Main declarations:
    * `sendUpTo_eq`
    * `packetSender_complete`
    * `packetSender_inside_iff`
    * `Alive`
    * `Sound`
    * `Sound.resend_eq`
    * `Alive.not_hang`
-/

------------------------------------------------------------
-- Sums of `int`
------------------------------------------------------------

namespace PeerNet

theorem wrapInt_eq
    {x : Int}
    (h : IsInt x) :
    wrapInt x = x := by
  have hLow := h.low
  have hHigh := h.high
  unfold wrapInt
  apply Int.bmod_eq_of_le
  · omega
  · omega

theorem isInt_zero :
    IsInt 0 where
  low := by decide
  high := by decide

theorem isInt_wrapInt
    (x : Int) :
    IsInt (wrapInt x) := by
  have hPos : 0 < 2 ^ 32 := by decide
  have hLow := Int.le_bmod (x := x) hPos
  have hHigh := Int.bmod_lt (x := x) hPos
  unfold wrapInt
  constructor
  · omega
  · omega

/- A sum that leaves the range at the top comes back below. -/
theorem wrapInt_le
    {x : Int}
    (hLow : 0 ≤ x) :
    wrapInt x ≤ x := by
  by_cases hHigh : x < 2 ^ 31
  · exact Int.le_of_eq (wrapInt_eq ⟨by omega, hHigh⟩)
  · have hWrapped := (isInt_wrapInt x).high
    omega

/- A number of the wire is an `int` when it is stored. -/
theorem isInt_toInt32
    (x : UInt32) :
    IsInt (toInt32 x) :=
  isInt_wrapInt x.toNat

/- An `int` comes back from the wire as it was sent. -/
theorem toInt32_ofInt_of_isInt
    {x : Int}
    (h : IsInt x) :
    toInt32 (UInt32.ofInt x) = x := by
  have hPos : 0 ≤ x % 2 ^ 32 :=
    Int.emod_nonneg x (by decide)
  have hHigh : x % 2 ^ 32 < 2 ^ 32 :=
    Int.emod_lt_of_pos x (by decide)
  have hNat :
      ((UInt32.ofInt x).toNat : Int) = x % 2 ^ 32 := by
    unfold UInt32.ofInt
    rw [UInt32.toNat_ofNat', Nat.mod_eq_of_lt (by omega),
      Int.toNat_of_nonneg hPos]
  unfold toInt32
  rw [hNat]
  exact (Int.emod_bmod _ _).trans (wrapInt_eq h)

/- What is wrapped first makes no difference. -/
theorem wrapInt_add
    (x y : Int) :
    wrapInt (wrapInt x + y) = wrapInt (x + y) :=
  Int.bmod_add_bmod

/- `start - 1`, where `packet_sender`'s loop starts. -/
theorem wrapInt_pred
    {k : Int}
    (h : IsInt k) :
    wrapInt (wrapInt (k + 1) - 1) = k := by
  rw [Int.sub_eq_add_neg, wrapInt_add,
    Int.add_neg_cancel_right, wrapInt_eq h]

/- The last packet of the window behind the last ACK. -/
theorem sendUpTo_eq
    (s : BtSender) :
    sendUpTo s (wrapInt (s.lastAcked + 1)) =
      min (wrapInt (s.lastAcked + s.windowSize))
        s.numPackets := by
  have hSum :
      s.lastAcked + 1 + s.windowSize + -1 =
        s.lastAcked + s.windowSize := by
    omega
  unfold sendUpTo
  rw [wrapInt_add, Int.sub_eq_add_neg, wrapInt_add, hSum]

end PeerNet

------------------------------------------------------------
-- Sending a Window
------------------------------------------------------------

namespace PeerNet

/- A loop over an array without holes sends all it asks for. -/
theorem sendPackets_eq
    (packets : List Packet)
    (count k : Nat)
    (hRange : k + count ≤ packets.length) :
    sendPackets (packets.map some) count k =
      ((packets.drop k).take count, .complete) := by
  induction count generalizing k with
  | zero => simp [sendPackets]
  | succ count ih =>
      have hLt : k < packets.length := by omega
      have hNext : ((k : Int) + 1) = ((k + 1 : Nat) : Int) := by
        push_cast
        rfl
      have hTail := ih (k + 1) (by omega)
      have hFirst :
          (packets.map some)[k]? = some (some packets[k]) := by
        rw [List.getElem?_map, List.getElem?_eq_getElem hLt]
        rfl
      have hDrop :
          packets.drop k = packets[k] :: packets.drop (k + 1) :=
        (List.getElem_cons_drop hLt).symm
      unfold sendPackets
      rw [if_neg (by omega), Int.toNat_natCast, hFirst]
      dsimp only
      rw [hNext, hTail, hDrop, List.take_succ_cons]

/- A loop between the ends of its array stays inside. -/
theorem sendPackets_inside
    {packets : List (Option Packet)}
    {count : Nat}
    {i : Int}
    (hLow : 0 ≤ i)
    (hHigh : i + count ≤ packets.length) :
    (sendPackets packets count i).2 ≠ .outOfRange := by
  induction count generalizing i with
  | zero => simp [sendPackets]
  | succ count ih =>
      have hLt : i.toNat < packets.length := by omega
      unfold sendPackets
      rw [if_neg (by omega),
        List.getElem?_eq_getElem hLt]
      cases packets[i.toNat] with
      | none => simp
      | some packet => exact ih (by omega) (by omega)

section

variable {env : Env} {reads : Nat} {s : BtSender}
variable {start : Int}

/- What `packet_sender` does within the array. -/
theorem packetSender_complete
    (env : Env)
    (reads : Nat)
    {packets : List Packet}
    (hPackets : s.packets = some (packets.map some))
    (hCount : s.numPackets = packets.length)
    (k : Nat)
    (hInt : IsInt k)
    (hStart : start = wrapInt (k + 1)) :
    packetSender env reads s start =
      ⟨{ s with
          sentTime := timeSeconds env reads
          lastSent := sendUpTo s start },
        reads + 1,
        (packets.drop k).take (sendUpTo s start - k).toNat,
        true⟩ := by
  have hFirst : wrapInt (start - 1) = (k : Int) := by
    rw [hStart, wrapInt_pred hInt]
  have hUpTo : sendUpTo s start ≤ packets.length := by
    unfold sendUpTo
    omega
  have hLoop :
      sendPackets (packets.map some)
          (sendUpTo s start - k).toNat k =
        ((packets.drop k).take
          (sendUpTo s start - k).toNat, .complete) := by
    rcases Nat.eq_zero_or_pos
        (sendUpTo s start - k).toNat with hNone | hSome
    · rw [hNone]
      simp [sendPackets]
    · exact sendPackets_eq packets _ k (by omega)
  unfold packetSender
  rw [hPackets]
  dsimp only
  rw [hFirst, hLoop]

theorem packetSender_windowSize :
    (packetSender env reads s start).sender.windowSize =
      s.windowSize := by
  unfold packetSender
  split
  · rfl
  · dsimp only
    split <;> rfl

theorem packetSender_dropped :
    (packetSender env reads s start).sender.dropped =
      s.dropped := by
  unfold packetSender
  split
  · rfl
  · dsimp only
    split <;> rfl

theorem packetSender_retransmit :
    (packetSender env reads s start).sender.retransmit =
      s.retransmit := by
  unfold packetSender
  split
  · rfl
  · dsimp only
    split <;> rfl

end

end PeerNet

------------------------------------------------------------
-- The Loss Counter
------------------------------------------------------------

namespace PeerNet

/- `dropped` has not passed its limit. -/
structure Alive
    (s : BtSender) : Prop where
  undropped : 0 ≤ s.dropped
  alive : s.dropped ≤ 5

section

variable {env : Env} {reads fuel : Nat} {s : BtSender}

/- A loss raises the counter, and it does not wrap. -/
theorem Alive.charged_dropped
    (h : Alive s) :
    (charged env reads s).dropped =
      s.dropped + lossCharges env reads s := by
  have hLow := h.undropped
  have hHigh := h.alive
  unfold charged chargedDropped lossCharges toChar
  dsimp only
  cases lostPacket s <;> cases timedOut env reads s <;>
    simp <;> omega

theorem lossCharges_pos_iff :
    0 < lossCharges env reads s ↔ Lost env reads s := by
  unfold lossCharges Lost
  cases lostPacket s <;> cases timedOut env reads s <;> simp

/- A loss round charges the upload that is retried. -/
theorem Alive.resend_dropped
    (h : Alive s) :
    (resend env reads s).sender.dropped =
      s.dropped + lossCharges env reads s := by
  unfold resend
  rw [packetSender_dropped]
  exact h.charged_dropped

theorem Alive.tested
    (h : Alive s)
    (hOpen : Open env reads s) :
    Alive (charged env reads s) where
  undropped := by
    rw [h.charged_dropped]
    have hLow := h.undropped
    omega
  alive := by
    have hAlive := hOpen.alive
    omega

theorem Alive.resent
    (h : Alive s)
    (hOpen : Open env reads s) :
    Alive (resend env reads s).sender := by
  have hTested := h.tested hOpen
  constructor
  · rw [h.resend_dropped, ← h.charged_dropped]
    exact hTested.undropped
  · rw [h.resend_dropped, ← h.charged_dropped]
    exact hTested.alive

/- Every loss round brings the upload nearer to its end. -/
theorem Alive.not_hang
    (h : Alive s)
    (hFuel : 6 - s.dropped < fuel) :
    (ccVisit env fuel reads s).ending ≠ .fault .hang := by
  induction fuel generalizing reads s with
  | zero =>
      have hHigh := h.alive
      omega
  | succ fuel ih =>
      generalize hIs : ccVisit env (fuel + 1) reads s = v
      unfold ccVisit at hIs
      split at hIs
      · rw [← hIs]
        simp
      next hUnfinished =>
      dsimp only at hIs
      split at hIs
      · rw [← hIs]
        simp
      next hAlive =>
      have hOpen : Open env reads s := ⟨hUnfinished, hAlive⟩
      split at hIs
      · next hLost =>
          have hCharged :=
            lossCharges_pos_iff.mpr hLost
          have hLess :
              6 - (resend env reads s).sender.dropped <
                fuel := by
            rw [h.resend_dropped]
            omega
          split at hIs
          · rw [← hIs]
            exact ih (h.resent hOpen) hLess
          · rw [← hIs]
            simp
      split at hIs
      · split at hIs
        · rw [← hIs]
          simp
        · rw [← hIs]
          simp
      · rw [← hIs]
        simp

end

end PeerNet

------------------------------------------------------------
-- Array Indices
------------------------------------------------------------

namespace PeerNet

/- The array has the size that the upload says. -/
def ArraySized
    (s : BtSender) : Prop :=
  ∀ packets, s.packets = some packets →
    s.numPackets = packets.length

/- An upload, with any counters but those of its array. -/
structure Arrayed
    (s : BtSender) : Prop
    extends Alive s where
  array : ArraySized s
  counter : IsInt s.lastAcked

section

variable {env : Env} {reads : Nat} {s t : BtSender}
variable {start k : Int}

/- Where `packet_sender` stays in the array. -/
theorem packetSender_inside_iff
    (env : Env)
    (reads : Nat)
    (hArray : ArraySized s)
    (hInt : IsInt k)
    (hStart : start = wrapInt (k + 1)) :
    (packetSender env reads s start).inRange = true ↔
      s.packets = none ∨ 0 ≤ k ∨ sendUpTo s start ≤ k := by
  have hFirst : wrapInt (start - 1) = k := by
    rw [hStart, wrapInt_pred hInt]
  cases hPackets : s.packets with
  | none => simp [packetSender, hPackets]
  | some packets =>
      have hCount := hArray packets hPackets
      have hUpTo : sendUpTo s start ≤ packets.length := by
        unfold sendUpTo
        omega
      unfold packetSender
      rw [hPackets]
      dsimp only
      rw [hFirst]
      by_cases hLow : 0 ≤ k
      · have hInside :
            (sendPackets packets
              (sendUpTo s start - k).toNat k).2 ≠
              .outOfRange := by
          rcases Nat.eq_zero_or_pos
              (sendUpTo s start - k).toNat with
            hNone | hSome
          · rw [hNone]
            simp [sendPackets]
          · exact sendPackets_inside hLow (by omega)
        split
        · next hOut => exact absurd hOut hInside
        · simp [hLow]
        · simp [hLow]
      by_cases hNone : sendUpTo s start ≤ k
      · have hZero : (sendUpTo s start - k).toNat = 0 := by
          omega
        rw [hZero]
        simp [sendPackets, hNone]
      · have hSome :
            ∃ count,
              (sendUpTo s start - k).toNat = count + 1 :=
          ⟨(sendUpTo s start - k - 1).toNat, by omega⟩
        rcases hSome with ⟨count, hSome⟩
        rw [hSome, sendPackets, if_pos (by omega)]
        simp [hLow, hNone]

theorem SameUpload.array
    (hSame : SameUpload s t)
    (hArray : ArraySized s) :
    ArraySized t := by
  unfold ArraySized
  rw [hSame.packets, hSame.numPackets]
  exact hArray

theorem Arrayed.same
    (h : Arrayed s)
    (hSame : SameUpload s t)
    (hAlive : Alive t) :
    Arrayed t where
  toAlive := hAlive
  array := hSame.array h.array
  counter := by
    rw [hSame.lastAcked]
    exact h.counter

theorem Arrayed.resent
    (h : Arrayed s)
    (hOpen : Open env reads s) :
    Arrayed (resend env reads s).sender :=
  h.same resend_same (h.toAlive.resent hOpen)

/- The retransmission after a loss. -/
theorem Arrayed.resend_inside_iff
    (env : Env)
    (reads : Nat)
    (h : Arrayed s) :
    (resend env reads s).inRange = true ↔
      s.packets = none ∨ 0 ≤ s.lastAcked := by
  have hSame :
      SameUpload s
        (collapseWindow (charged env reads s)) :=
    ⟨rfl, rfl, rfl, rfl, rfl⟩
  have hUpTo :=
    sendUpTo_eq (collapseWindow (charged env reads s))
  have hInside :=
    packetSender_inside_iff env (reads + 1)
      (hSame.array h.array) h.counter rfl
  rw [hSame.lastAcked, hSame.numPackets] at hUpTo
  unfold resend
  rw [hInside, hSame.packets, hUpTo]
  cases hPackets : s.packets with
  | none => simp
  | some packets =>
      have hCount := h.array packets hPackets
      have hLow := h.counter.low
      have hOne :
          (collapseWindow
            (charged env reads s)).windowSize = 1 :=
        rfl
      constructor
      · rintro (hNone | hLow | hEmpty)
        · cases hNone
        · exact .inr hLow
        · -- one more than a negative number does not wrap
          by_contra hNot
          have hNext :
              wrapInt (s.lastAcked + 1) = s.lastAcked + 1 :=
            wrapInt_eq ⟨by omega, by omega⟩
          rw [hOne, hNext] at hEmpty
          omega
      · rintro (hNone | hLow)
        · cases hNone
        · exact .inr (.inl hLow)

/- The next window. -/
theorem Arrayed.sendNext_inside_iff
    (env : Env)
    (reads : Nat)
    (h : Arrayed s) :
    (sendNext env reads s).inRange = true ↔
      s.packets = none ∨ 0 ≤ s.lastAcked ∨
        wrapInt (s.lastAcked + s.windowSize) ≤
          s.lastAcked := by
  have hSame : SameUpload s (charged env reads s) :=
    charged_same
  have hUpTo := sendUpTo_eq (charged env reads s)
  have hInside :=
    packetSender_inside_iff env (reads + 1)
      (hSame.array h.array) h.counter rfl
  rw [hSame.lastAcked, hSame.numPackets] at hUpTo
  unfold sendNext
  rw [hInside, hSame.packets, hUpTo]
  cases hPackets : s.packets with
  | none => simp
  | some packets =>
      have hCount := h.array packets hPackets
      have hWindow :
          (charged env reads s).windowSize = s.windowSize :=
        rfl
      rw [hWindow]
      constructor
      · rintro (hNone | hLow | hEmpty)
        · cases hNone
        · exact .inr (.inl hLow)
        · by_cases hLow : 0 ≤ s.lastAcked
          · exact .inr (.inl hLow)
          · exact .inr (.inr (by omega))
      · rintro (hNone | hLow | hShut)
        · cases hNone
        · exact .inr (.inl hLow)
        · exact .inr (.inr (by omega))

end

end PeerNet

------------------------------------------------------------
-- Sound Uploads
------------------------------------------------------------

namespace PeerNet

/- What every upload that `send_data` made keeps. -/
structure Sound
    (s : BtSender) : Prop where
  packets : ∃ packets : List Packet,
    s.packets = some (packets.map some) ∧
      s.numPackets = packets.length
  window : 1 ≤ s.windowSize
  counter : IsInt s.lastAcked
  undropped : 0 ≤ s.dropped
  alive : s.dropped ≤ 5

section

variable {env : Env} {reads : Nat} {s : BtSender}

theorem Sound.toAlive
    (h : Sound s) :
    Alive s :=
  ⟨h.undropped, h.alive⟩

theorem Sound.toArrayed
    (h : Sound s) :
    Arrayed s where
  toAlive := h.toAlive
  array := by
    rcases h.packets with ⟨packets, hPackets, hCount⟩
    intro packets' hSame
    rw [hPackets] at hSame
    rw [hCount, ← Option.some.inj hSame, List.length_map]
  counter := h.counter

theorem Sound.charged_dropped
    (h : Sound s) :
    (charged env reads s).dropped =
      s.dropped + lossCharges env reads s :=
  h.toAlive.charged_dropped

/- Past the test for dead uploads the upload is sound. -/
theorem Sound.tested
    (h : Sound s)
    (hOpen : Open env reads s) :
    Sound (charged env reads s) where
  packets := h.packets
  window := h.window
  counter := h.counter
  undropped := (h.toAlive.tested hOpen).undropped
  alive := (h.toAlive.tested hOpen).alive

theorem Sound.sending
    (h : Sound s)
    (start : Int) :
    Sound (packetSender env reads s start).sender where
  packets := by
    rw [packetSender_same.packets,
      packetSender_same.numPackets]
    exact h.packets
  window := by
    rw [packetSender_windowSize]
    exact h.window
  counter := by
    rw [packetSender_same.lastAcked]
    exact h.counter
  undropped := by
    rw [packetSender_dropped]
    exact h.undropped
  alive := by
    rw [packetSender_dropped]
    exact h.alive

theorem Sound.collapsed
    (h : Sound s) :
    Sound (collapseWindow s) :=
  ⟨h.packets, Int.le_refl _, h.counter, h.undropped,
    h.alive⟩

theorem Sound.resent
    (h : Sound s)
    (hOpen : Open env reads s) :
    Sound (resend env reads s).sender :=
  (h.tested hOpen).collapsed.sending _

theorem Sound.sentNext
    (h : Sound s)
    (hOpen : Open env reads s) :
    Sound (sendNext env reads s).sender :=
  (h.tested hOpen).sending _

theorem Sound.resend_dropped
    (h : Sound s) :
    (resend env reads s).sender.dropped =
      s.dropped + lossCharges env reads s :=
  h.toAlive.resend_dropped

/- The retransmission: one packet, behind the last ACK. -/
theorem Sound.resend_eq
    (env : Env)
    (reads : Nat)
    (h : Sound s)
    (hLow : 0 ≤ s.lastAcked) :
    ∃ packets : List Packet,
      s.packets = some (packets.map some) ∧
        s.numPackets = packets.length ∧
        resend env reads s =
          ⟨{ collapseWindow
                (charged env reads s) with
              sentTime := timeSeconds env (reads + 1)
              lastSent :=
                min (wrapInt (s.lastAcked + 1))
                  s.numPackets },
            reads + 2,
            (packets.drop s.lastAcked.toNat).take
              (min (wrapInt (s.lastAcked + 1))
                  s.numPackets -
                s.lastAcked).toNat,
            true⟩ := by
  rcases h.packets with ⟨packets, hPackets, hCount⟩
  refine ⟨packets, hPackets, hCount, ?_⟩
  have hUpTo :
      sendUpTo
          (collapseWindow
            (charged env reads s))
          (wrapInt (s.lastAcked + 1)) =
        min (wrapInt (s.lastAcked + 1)) s.numPackets :=
    sendUpTo_eq (collapseWindow (charged env reads s))
  have hSame :
      (collapseWindow (charged env reads s)).packets =
        some (packets.map some) :=
    hPackets
  have hNat : (s.lastAcked.toNat : Int) = s.lastAcked :=
    Int.toNat_of_nonneg hLow
  unfold resend
  rw [packetSender_complete env (reads + 1) hSame hCount
    s.lastAcked.toNat (by rw [hNat]; exact h.counter)
    (by rw [hNat]), hUpTo, hNat]

/- The next window, behind the last ACK. -/
theorem Sound.sendNext_eq
    (env : Env)
    (reads : Nat)
    (h : Sound s)
    (hLow : 0 ≤ s.lastAcked) :
    ∃ packets : List Packet,
      s.packets = some (packets.map some) ∧
        s.numPackets = packets.length ∧
        sendNext env reads s =
          ⟨{ charged env reads s with
              sentTime := timeSeconds env (reads + 1)
              lastSent :=
                min (wrapInt (s.lastAcked + s.windowSize))
                  s.numPackets },
            reads + 2,
            (packets.drop s.lastAcked.toNat).take
              (min (wrapInt (s.lastAcked + s.windowSize))
                  s.numPackets -
                s.lastAcked).toNat,
            true⟩ := by
  rcases h.packets with ⟨packets, hPackets, hCount⟩
  refine ⟨packets, hPackets, hCount, ?_⟩
  have hUpTo :
      sendUpTo (charged env reads s)
          (wrapInt (s.lastAcked + 1)) =
        min (wrapInt (s.lastAcked + s.windowSize))
          s.numPackets :=
    sendUpTo_eq (charged env reads s)
  have hSame :
      (charged env reads s).packets =
        some (packets.map some) :=
    hPackets
  have hNat : (s.lastAcked.toNat : Int) = s.lastAcked :=
    Int.toNat_of_nonneg hLow
  unfold sendNext
  rw [packetSender_complete env (reads + 1) hSame hCount
    s.lastAcked.toNat (by rw [hNat]; exact h.counter)
    (by rw [hNat]), hUpTo, hNat]

theorem Sound.ccVisit_not_hang
    (h : Sound s) :
    (ccVisit env ccFuel reads s).ending ≠ .fault .hang := by
  apply h.toAlive.not_hang
  have hLow := h.undropped
  unfold ccFuel
  omega

/- An ACK's number is stored in an `int`. -/
theorem isInt_ackSender
    (ackNum : UInt32)
    (h : IsInt s.lastAcked) :
    IsInt (ackSender ackNum s).lastAcked := by
  rw [ackSender_lastAcked]
  split
  · exact isInt_toInt32 ackNum
  · exact h

/- An ACK resets `dropped` or leaves it. -/
theorem ackSender_dropped
    (ackNum : UInt32) :
    (ackSender ackNum s).dropped =
      if toUInt32 s.lastAcked < ackNum.toNat then 0
      else s.dropped := by
  unfold ackSender countAck
  rw [growWindow_dropped]
  by_cases hSame : toUInt32 s.lastAcked = ackNum.toNat
  · simp only [hSame, if_true, Nat.lt_irrefl, if_false]
  · simp only [hSame, if_false]
    by_cases hLess : toUInt32 s.lastAcked < ackNum.toNat
    · simp only [hLess, if_true]
    · simp only [hLess, if_false]

theorem Alive.acked
    (h : Alive s)
    (ackNum : UInt32) :
    Alive (ackSender ackNum s) where
  undropped := by
    rw [ackSender_dropped]
    split
    · exact Int.le_refl _
    · exact h.undropped
  alive := by
    rw [ackSender_dropped]
    split
    · decide
    · exact h.alive

theorem Sound.acked
    (h : Sound s)
    (ackNum : UInt32) :
    Sound (ackSender ackNum s) where
  packets := by
    rw [ackSender_packets, ackSender_numPackets]
    exact h.packets
  window := by
    have hOld := h.window
    have hGrown := ackSender_windowSize ackNum s
    omega
  counter := isInt_ackSender ackNum h.counter
  undropped := (h.toAlive.acked ackNum).undropped
  alive := (h.toAlive.acked ackNum).alive

/- `send_data`'s upload. -/
theorem sound_newSender
    (hash : Hash)
    (packets : List Packet)
    (peer : PeerRef) :
    Sound
      (newSender hash (some (packets.map some))
        packets.length peer) where
  packets := ⟨packets, rfl, rfl⟩
  window := Int.le_refl _
  counter := isInt_zero
  undropped := Int.le_refl _
  alive := by
    simp [newSender]

end

end PeerNet
