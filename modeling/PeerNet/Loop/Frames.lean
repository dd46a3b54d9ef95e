import PeerNet.Digest.Guts
import PeerNet.Model.Spiffy
import PeerNet.Wire.RoundTrip

/-
  Datagrams through the simulated router.

  The head that `spiffy_sendto` puts in front is read back
  by `spiffy_recvfrom`, and the bytes behind it are what was
  to be sent, so the receiver does what it would do without
  the router. What lies behind the datagram in the buffer
  does not matter.

  Main declarations:
    * `decode_encode`
    * `inboundUdp_enabled`
    * `router_transparent`
-/

------------------------------------------------------------
-- The Head
------------------------------------------------------------

namespace PeerNet

theorem loadWord_wordBytes
    (x : UInt32)
    (more : Bytes) :
    loadWord ((wordBytes x).toList ++ more) = x := by
  apply UInt32.toBitVec_inj.mp
  apply BitVec.eq_of_getLsbD_eq
  intro i hi
  simp only [loadWord, wordBytes, Vector.toList_mk,
    List.cons_append, List.nil_append, List.getD_cons_zero,
    List.getD_cons_succ, UInt32.toBitVec_or,
    UInt32.toBitVec_shiftLeft, UInt8.toBitVec_toUInt32,
    UInt32.toBitVec_toUInt8, UInt32.toBitVec_shiftRight,
    BitVec.getLsbD_or]
  interval_cases i <;> simp

theorem loadShort_shortBytes
    (x : UInt16)
    (more : Bytes) :
    loadShort (shortBytes x ++ more) = x := by
  apply UInt16.toBitVec_inj.mp
  apply BitVec.eq_of_getLsbD_eq
  intro i hi
  simp only [loadShort, shortBytes, List.cons_append,
    List.nil_append, List.getD_cons_zero,
    List.getD_cons_succ, UInt16.toBitVec_or,
    UInt16.toBitVec_shiftLeft, UInt8.toBitVec_toUInt16,
    UInt16.toBitVec_toUInt8, UInt16.toBitVec_shiftRight,
    BitVec.getLsbD_or]
  interval_cases i <;> simp

theorem length_encode
    (h : SpiffyHeader) :
    h.encode.length = spiffyHeaderSize := by
  simp [SpiffyHeader.encode, shortBytes]

/- The head comes back, whatever is behind it. -/
theorem decode_encode
    (h : SpiffyHeader)
    (msg : Bytes) :
    SpiffyHeader.decode (h.encode ++ msg) = h := by
  have hId :
      UInt32.ofNat (BigEndian.read
        (BigEndian.write 4 h.id.toNat)) = h.id := by
    rw [BigEndian.read_write]
    apply UInt32.toNat_inj.mp
    have hLt := h.id.toNat_lt
    rw [UInt32.toNat_ofNat']
    omega
  have hShort : ∀ x : UInt16, (shortBytes x).length = 2 :=
    fun _ => rfl
  have hWord : ∀ x : UInt32, (wordBytes x).toList.length = 4 :=
    fun _ => rfl
  unfold SpiffyHeader.decode SpiffyHeader.encode
  simp only [List.append_assoc]
  -- every field starts where the one before it ends
  simp only [List.drop_append, BigEndian.length_write, hWord,
    hShort]
  rw [List.take_left' (BigEndian.length_write 4 _), hId]
  simp only [Nat.reduceSub, List.drop_zero,
    List.drop_of_length_le, BigEndian.length_write, hWord,
    hShort, Nat.reduceLeDiff, le_refl, List.nil_append,
    loadWord_wordBytes, loadShort_shortBytes]

/- Only the head's own bytes are looked at. -/
theorem decode_take
    (buf : Bytes) :
    SpiffyHeader.decode (buf.take spiffyHeaderSize) =
      SpiffyHeader.decode buf := by
  unfold SpiffyHeader.decode loadWord loadShort
  simp [List.getD_eq_getElem?_getD, List.getElem?_drop,
    List.take_take, spiffyHeaderSize]

end PeerNet

------------------------------------------------------------
-- Receiving
------------------------------------------------------------

namespace PeerNet

open Prog

section

variable {env : Env} {s : Spiffy}

/- Less than a head of the peers is ignored. -/
theorem processInboundUdp_short
    (src : Addr)
    {datagram : Bytes}
    (hShort : (received datagram).length < packetHeadSize) :
    processInboundUdp env src datagram = pure () := by
  have hRead :
      readPacket (received datagram) = .ok none := by
    have hFails :
        ¬ passesChecks (received datagram) = true := by
      intro hPass
      exact absurd (passesChecks_iff.mp hPass).1
        (Nat.not_le.mpr hShort)
    unfold readPacket
    rw [if_neg hFails]
  unfold processInboundUdp
  rw [hRead]
  rfl

theorem processInboundUdp_received
    (src : Addr)
    (datagram : Bytes) :
    processInboundUdp env src (received datagram) =
      processInboundUdp env src datagram := by
  have hSame :
      received (received datagram) = received datagram := by
    unfold received
    rw [List.take_take, Nat.min_self]
  unfold processInboundUdp
  rw [hSame]

theorem toShort_of_small
    {x : Int}
    (hLow : -32768 ≤ x)
    (hHigh : x < 32768) :
    toShort x = x := by
  unfold toShort
  omega

/-
  With the router the sender is the one in the head, and the
  rest of the datagram is read as without it.
-/
theorem inboundUdp_enabled
    (hEnabled : s.enabled = true)
    (src : Addr)
    (datagram : Bytes) :
    inboundUdp env s src datagram =
      processInboundUdp env (SpiffyHeader.decode datagram).src
        (datagram.drop spiffyHeaderSize) := by
  have hRead :
      received (datagram.drop spiffyHeaderSize) =
        (datagram.take (bufLen + spiffyHeaderSize)).drop
          spiffyHeaderSize := by
    unfold received
    rw [List.drop_take]
    simp
  have hLength :
      (received (datagram.drop spiffyHeaderSize)).length =
        (datagram.take (bufLen + spiffyHeaderSize)).length -
          spiffyHeaderSize := by
    rw [hRead, List.length_drop]
  have hMost :
      (datagram.take (bufLen + spiffyHeaderSize)).length ≤
        1516 :=
    List.length_take_le _ _
  have hHead :
      (datagram.take (bufLen + spiffyHeaderSize)).take
          spiffyHeaderSize =
        datagram.take spiffyHeaderSize := by
    rw [List.take_take]
    rfl
  have hFront : spiffyHeaderSize = 16 := rfl
  have hInner : packetHeadSize = 16 := rfl
  unfold inboundUdp Spiffy.recvfrom
  rw [if_pos hEnabled]
  generalize
    datagram.take (bufLen + spiffyHeaderSize) = read
    at hRead hLength hMost hHead
  dsimp only
  by_cases hNone : read = []
  · rw [if_pos hNone]
    dsimp only
    rw [if_pos (Or.inl (by decide)),
      processInboundUdp_short _ (by simp [hLength, hNone])]
  rw [if_neg hNone]
  dsimp only
  rw [toShort_of_small (by omega) (by omega)]
  by_cases hShort : read.length < 32
  · rw [if_pos (Or.inr (by omega)),
      processInboundUdp_short _ (by omega)]
  -- a head and more: the rest of the buffer is not read
  have hSrc :
      SpiffyHeader.decode
          (env.fill (bufLen + spiffyHeaderSize) read) =
        SpiffyHeader.decode datagram := by
    rw [← decode_take, ← decode_take datagram, ← hHead]
    unfold Env.fill
    rw [List.take_append_of_le_length (by omega)]
  have hRest :
      ((env.fill (bufLen + spiffyHeaderSize) read).drop
          spiffyHeaderSize).take
            ((read.length : Int) - spiffyHeaderSize).toNat =
        received (datagram.drop spiffyHeaderSize) := by
    have hSize :
        ((read.length : Int) - spiffyHeaderSize).toNat =
          (read.drop spiffyHeaderSize).length := by
      rw [List.length_drop]
      omega
    unfold Env.fill
    rw [hRead, List.drop_append_of_le_length (by omega),
      hSize, List.take_left]
  rw [if_neg (by omega), hSrc, hRest,
    processInboundUdp_received]

/- The frame of an enabled sender, read again. -/
theorem decode_frame
    (hEnabled : s.enabled = true)
    (msg : Bytes)
    (dest : Addr) :
    (SpiffyHeader.decode (s.frame msg dest).1).src = s.src ∧
      (SpiffyHeader.decode (s.frame msg dest).1).dest =
          dest ∧
        (s.frame msg dest).1.drop spiffyHeaderSize = msg := by
  unfold Spiffy.frame
  rw [if_pos hEnabled, decode_encode]
  exact ⟨rfl, rfl, List.drop_left' (length_encode _)⟩

/-
  A datagram that went through the router is handled as if
  its sender had sent it directly, whatever socket it came
  from.
-/
theorem inboundUdp_frame
    {r : Spiffy}
    (hSends : s.enabled = true)
    (hReceives : r.enabled = true)
    (src dest : Addr)
    (msg : Bytes) :
    inboundUdp env r src (s.frame msg dest).1 =
      processInboundUdp env s.src msg := by
  rcases decode_frame hSends msg dest with
    ⟨hSrc, _, hRest⟩
  rw [inboundUdp_enabled hReceives, hSrc, hRest]

/- Without the router the datagram is the peer's own. -/
theorem inboundUdp_disabled
    (hDisabled : s.enabled = false)
    (src : Addr)
    (datagram : Bytes) :
    inboundUdp env s src datagram =
      processInboundUdp env src datagram := by
  have hHead : packetHeadSize = 16 := rfl
  have hMost : (datagram.take bufLen).length ≤ 1500 :=
    List.length_take_le _ _
  have hAll :
      (datagram.take bufLen).take
          ((datagram.take bufLen).length : Int).toNat =
        received datagram := by
    rw [Int.toNat_natCast, List.take_length]
    rfl
  unfold inboundUdp Spiffy.recvfrom
  rw [hDisabled, if_neg Bool.false_ne_true]
  dsimp only
  rw [toShort_of_small (by omega) (by omega), hAll]
  by_cases hShort : (datagram.take bufLen).length < 16
  · rw [if_pos (Or.inr (by omega)),
      processInboundUdp_short _ hShort]
  · rw [if_neg (by omega), processInboundUdp_received]

/- A whole frame counts as the whole datagram. -/
theorem sent_frame
    (hEnabled : s.enabled = true)
    (dest : Addr)
    (msg : Bytes) :
    s.sent (s.frame msg dest).1.length = msg.length := by
  have hFront : spiffyHeaderSize = 16 := rfl
  have hLength :
      ((s.frame msg dest).1.length : Int) =
        spiffyHeaderSize + msg.length := by
    unfold Spiffy.frame
    rw [if_pos hEnabled, List.length_append, length_encode]
    push_cast
    rfl
  unfold Spiffy.sent
  rw [if_pos ⟨hEnabled, by omega⟩]
  omega

end

/-
  With the router a peer sends as many bytes of its datagram
  as without, to the router with the receiver in the head,
  and the receiver does what it does without the router, for
  any datagram and whatever its buffer holds.
-/
theorem router_transparent
    (env : Env)
    (i j : Int)
    (a b dest router x : Addr)
    (msg : Bytes) :
    let s := Spiffy.init i a (some router)
    let r := Spiffy.init j b (some router)
    let plain := Spiffy.init j b none
    let f := s.frame msg dest
    f.2 = router ∧
      (SpiffyHeader.decode f.1).dest = dest ∧
        s.sent f.1.length = msg.length ∧
          inboundUdp env r x f.1 =
            inboundUdp env plain a msg := by
  intro s r plain f
  have hDest := (decode_frame (s := s) rfl msg dest).2.1
  refine ⟨rfl, hDest, sent_frame rfl dest msg, ?_⟩
  have hRead :
      inboundUdp env r x f.1 = processInboundUdp env a msg :=
    inboundUdp_frame rfl rfl x dest msg
  rw [hRead, inboundUdp_disabled rfl]

end PeerNet
