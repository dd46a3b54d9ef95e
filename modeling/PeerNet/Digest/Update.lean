import PeerNet.Digest.Guts

/-
  Absorbing a message in any pieces.

  A context that has been given a message holds the state of
  its whole blocks, the bytes behind them in the buffer, and
  the number of its bits. Every call of `SHA1Update` keeps
  this, whichever way the build takes, and `SHA1Final` then
  makes the digest of the standard.

  Main declarations:
    * `Absorbed`
    * `Absorbed.append`
    * `Updates`
    * `updates_plain`, `updates_fast`
-/

------------------------------------------------------------
-- Contexts
------------------------------------------------------------

namespace PeerNet

/- A context that has been given the bytes of a message. -/
structure Absorbed
    (sc : SHA1Context)
    (message : Bytes) : Prop where
  totalLength :
    sc.totalLength = UInt64.ofNat (8 * message.length)
  bufferLength :
    sc.bufferLength.toNat = message.length % 64
  absorbed :
    Blocks.absorb 64 Sha1.compress (Sha1.init, []) message =
      (sc.state, sc.buffer.toList.take sc.bufferLength.toNat)

theorem absorbed_init
    (sc : SHA1Context) :
    Absorbed (sha1Init sc) [] where
  totalLength := rfl
  bufferLength := rfl
  absorbed := by
    simp [sha1Init, Sha1.init, SHA1Context.state,
      SHA1Context.registers, Registers.state]

theorem Absorbed.bufferLength_lt
    {sc : SHA1Context}
    {message : Bytes}
    (hSc : Absorbed sc message) :
    sc.bufferLength.toNat < 64 := by
  rw [hSc.bufferLength]
  exact Nat.mod_lt _ (by decide)

/- The buffer holds what no block has taken yet. -/
theorem Absorbed.length_buffered
    {sc : SHA1Context}
    {message : Bytes}
    (hSc : Absorbed sc message) :
    (sc.buffer.toList.take sc.bufferLength.toNat).length =
      sc.bufferLength.toNat := by
  have hLt := hSc.bufferLength_lt
  simp
  omega

/- `memcpy` puts the bytes behind those in front of them. -/
theorem memcpy_spec
    (buffer : Vector UInt8 64)
    {start n : Nat}
    {data : Bytes}
    (hRoom : start + n ≤ 64)
    (hData : n ≤ data.length) :
    ∃ buffer',
      memcpy buffer start data n = some buffer' ∧
        buffer'.toList.take (start + n) =
          buffer.toList.take start ++ data.take n := by
  refine ⟨_, if_pos ⟨hRoom, hData⟩, ?_⟩
  apply List.ext_getElem
  · simp
    omega
  · intro i hLeft hRight
    have hi : i < start + n := by
      simp at hLeft
      omega
    by_cases hFront : i < start
    · rw [List.getElem_append_left (by simp; omega)]
      simp [Nat.not_le.mpr hFront]
    · rw [List.getElem_append_right (by simp; omega)]
      have hInside : i - start < data.length := by omega
      simp [hi, Nat.le_of_not_lt hFront, hInside,
        Nat.min_eq_left (show start ≤ 64 by omega)]

end PeerNet

------------------------------------------------------------
-- Pieces
------------------------------------------------------------

namespace PeerNet

/- Eight bits for each byte, modulo 64 bits. -/
theorem totalLength_add
    (bytes : Nat)
    (n : UInt32) :
    UInt64.ofNat (8 * bytes) + n.toUInt64 * 8 =
      UInt64.ofNat (8 * (bytes + n.toNat)) := by
  have hCount : n.toUInt64 = UInt64.ofNat n.toNat := by
    simp
  rw [hCount, Nat.mul_add, UInt64.ofNat_add, UInt64.ofNat_mul,
    UInt64.ofNat_mul, UInt64.mul_comm (UInt64.ofNat n.toNat)]
  rfl

theorem flush_of_ne
    {sc : SHA1Context}
    (hRoom : sc.bufferLength ≠ 64) :
    sc.flush = sc :=
  if_neg hRoom

theorem flush_of_full
    {sc : SHA1Context}
    (hFull : sc.bufferLength = 64) :
    sc.flush =
      { sha1Guts sc sc.buffer.toList with
        bufferLength := 0 } :=
  if_pos hFull

/-
  As many bytes as the buffer has room for. The last byte of
  a block has the block compressed, fewer are only copied.
-/
theorem Absorbed.append
    {sc : SHA1Context}
    {message data : Bytes}
    {n : UInt32}
    (hSc : Absorbed sc message)
    (hRoom : sc.bufferLength.toNat + n.toNat ≤ 64)
    (hData : n.toNat ≤ data.length) :
    ∃ sc',
      sc.append data n = some sc' ∧
        sc'.bufferLength.toNat =
          sc.bufferLength.toNat + n.toNat ∧
        Absorbed sc'.flush
          (message ++ data.take n.toNat) := by
  have hOpen := hSc.bufferLength_lt
  rcases memcpy_spec sc.buffer hRoom hData with
    ⟨buffer', hCopy, hBuffer⟩
  have hLength :
      (sc.bufferLength + n).toNat =
        sc.bufferLength.toNat + n.toNat := by
    rw [UInt32.toNat_add]
    omega
  have hTaken : (data.take n.toNat).length = n.toNat := by
    rw [List.length_take, Nat.min_eq_left hData]
  have hTotal :
      sc.totalLength + n.toUInt64 * 8 =
        UInt64.ofNat
          (8 * (message ++ data.take n.toNat).length) := by
    rw [hSc.totalLength, totalLength_add, List.length_append,
      hTaken]
  have hBytes := hSc.bufferLength
  let sc' : SHA1Context :=
    { sc with
      buffer := buffer'
      totalLength := sc.totalLength + n.toUInt64 * 8
      bufferLength := sc.bufferLength + n }
  refine ⟨sc', ?_, hLength, ?_⟩
  · rw [SHA1Context.append, hCopy]
    rfl
  by_cases hFull : sc.bufferLength.toNat + n.toNat = 64
  · have hSixtyFour : sc'.bufferLength = 64 :=
      UInt32.toNat_inj.mp (hLength.trans hFull)
    have hBlock :
        sc.buffer.toList.take sc.bufferLength.toNat ++
            data.take n.toNat =
          buffer'.toList := by
      rw [← hBuffer, hFull, List.take_of_length_le (by simp)]
    rcases sha1Guts_frame sc' buffer'.toList with
      ⟨hash, hFrame⟩
    have hState :=
      sha1Guts_state sc'
        (show 64 ≤ buffer'.toList.length by simp)
    rw [flush_of_full hSixtyFour]
    exact
      { totalLength := by
          rw [hFrame]
          exact hTotal
        bufferLength := by
          rw [List.length_append, hTaken]
          change 0 = _
          omega
        absorbed := by
          rw [Blocks.absorb_append, hSc.absorbed,
            Blocks.absorb_full
              (by rw [hSc.length_buffered]; exact hOpen)
              (by rw [hSc.length_buffered, hTaken]; exact hFull),
            hBlock]
          exact Prod.ext hState.symm rfl }
  · have hNe : sc'.bufferLength ≠ 64 := by
      intro hSixtyFour
      apply hFull
      rw [← hLength]
      exact congrArg UInt32.toNat hSixtyFour
    rw [flush_of_ne hNe]
    exact
      { totalLength := hTotal
        bufferLength := by
          rw [List.length_append, hTaken]
          refine hLength.trans ?_
          omega
        absorbed := by
          rw [Blocks.absorb_append, hSc.absorbed,
            Blocks.absorb_short
              (by
                rw [hSc.length_buffered, hTaken]
                omega)]
          refine Prod.ext rfl ?_
          change _ = buffer'.toList.take
            (sc.bufferLength + n).toNat
          rw [hLength, hBuffer] }

/- Bytes that are not there are not copied. -/
theorem append_eq_none
    {sc : SHA1Context}
    {data : Bytes}
    {n : UInt32}
    (hShort : data.length < n.toNat) :
    sc.append data n = none := by
  have hCopy :
      memcpy sc.buffer sc.bufferLength.toNat data n.toNat =
        none :=
    if_neg (by omega)
  rw [SHA1Context.append, hCopy]
  rfl

end PeerNet

------------------------------------------------------------
-- Updates
------------------------------------------------------------

namespace PeerNet

/-
  A call absorbs the bytes it is given, and reads behind them
  exactly if it is told that there are more.
-/
def Updates
    (update :
      SHA1Context → Bytes → UInt32 → Option SHA1Context) :
    Prop :=
  ∀ sc message data len,
    Absorbed sc message →
      (len.toNat ≤ data.length →
        ∃ sc',
          update sc data len = some sc' ∧
            Absorbed sc' (message ++ data.take len.toNat)) ∧
      (data.length < len.toNat → update sc data len = none)

theorem bytesToCopy_eq
    {sc : SHA1Context}
    (hOpen : sc.bufferLength.toNat < 64)
    (len : UInt32) :
    (sc.bytesToCopy len).toNat =
      min (64 - sc.bufferLength.toNat) len.toNat := by
  have hLeft :
      (64 - sc.bufferLength).toNat =
        64 - sc.bufferLength.toNat :=
    UInt32.toNat_sub_of_le _ _ (by
      rw [UInt32.le_iff_toNat_le]
      exact Nat.le_of_lt hOpen)
  rw [SHA1Context.bytesToCopy]
  split
  · next hMore =>
      rw [gt_iff_lt, UInt32.lt_iff_toNat_lt, hLeft] at hMore
      omega
  · next hFewer =>
      rw [gt_iff_lt, UInt32.lt_iff_toNat_lt, hLeft] at hFewer
      rw [hLeft]
      omega

theorem toNat_sub_bytesToCopy
    {sc : SHA1Context}
    (hOpen : sc.bufferLength.toNat < 64)
    (len : UInt32) :
    (len - sc.bytesToCopy len).toNat =
      len.toNat - (sc.bytesToCopy len).toNat := by
  apply UInt32.toNat_sub_of_le
  rw [UInt32.le_iff_toNat_le, bytesToCopy_eq hOpen]
  exact Nat.min_le_right _ _

/- One round of the loop, and those behind it. -/
theorem sha1UpdateLoop_spec
    {fuel : Nat}
    {sc : SHA1Context}
    {message : Bytes}
    (data : Bytes)
    (len : UInt32)
    (hSc : Absorbed sc message)
    (hFuel : len.toNat < fuel) :
    (len.toNat ≤ data.length →
      ∃ sc',
        sha1UpdateLoop fuel sc data len = some sc' ∧
          Absorbed sc' (message ++ data.take len.toNat)) ∧
    (data.length < len.toNat →
      sha1UpdateLoop fuel sc data len = none) := by
  induction fuel generalizing sc message data len with
  | zero => omega
  | succ fuel ih =>
      rw [sha1UpdateLoop]
      by_cases hZero : len = 0
      · rw [if_pos hZero, hZero]
        refine ⟨fun _ => ⟨sc, rfl, ?_⟩, fun hShort => ?_⟩
        · simpa using hSc
        · simp at hShort
      rw [if_neg hZero]
      have hPos : 0 < len.toNat := by
        rw [Nat.pos_iff_ne_zero]
        exact fun h => hZero (UInt32.toNat_inj.mp h)
      have hOpen := hSc.bufferLength_lt
      have hCopy := bytesToCopy_eq hOpen len
      have hRest := toNat_sub_bytesToCopy hOpen len
      by_cases hThere :
          (sc.bytesToCopy len).toNat ≤ data.length
      · rcases hSc.append (by omega) hThere with
          ⟨sc', hAppend, _, hFlushed⟩
        have hLoop :=
          ih (data.drop (sc.bytesToCopy len).toNat)
            (len - sc.bytesToCopy len) hFlushed (by omega)
        rw [List.length_drop, hRest] at hLoop
        simp only [hAppend, Option.bind_eq_bind,
          Option.bind_some]
        refine ⟨fun hData => ?_,
          fun hShort => hLoop.2 (by omega)⟩
        rcases hLoop.1 (by omega) with ⟨sc'', hSome, hAll⟩
        refine ⟨sc'', hSome, ?_⟩
        rw [List.append_assoc, ← List.take_add,
          Nat.add_sub_of_le (by omega)] at hAll
        exact hAll
      · have hNone :
            sc.append data (sc.bytesToCopy len) = none :=
          append_eq_none (by omega)
        simp only [hNone, Option.bind_eq_bind,
          Option.bind_none]
        exact ⟨fun hData => by omega, fun _ => trivial⟩

theorem updates_plain :
    Updates sha1Update :=
  fun _ _ data len hSc =>
    sha1UpdateLoop_spec data len hSc (Nat.lt_succ_self _)

end PeerNet

------------------------------------------------------------
-- Updates without the Buffer
------------------------------------------------------------

namespace PeerNet

/- What a call has still to absorb, in the middle of it. -/
structure Remaining
    (message data : Bytes)
    (len : UInt32)
    (sc' : SHA1Context)
    (data' : Bytes)
    (len' : UInt32) : Prop where
  absorbed :
    ∃ message',
      Absorbed sc' message' ∧
        message' ++ data'.take len'.toNat =
          message ++ data.take len.toNat
  there : len.toNat ≤ data.length ↔ len'.toNat ≤ data'.length
  whole : sc'.bufferLength = 0 ∨ len' = 0

/- A block that is compressed where it is. -/
theorem Absorbed.block
    {sc : SHA1Context}
    {message data : Bytes}
    (hSc : Absorbed sc message)
    (hEmpty : sc.bufferLength = 0)
    (hData : 64 ≤ data.length) :
    ∃ sc',
      sha1Guts
          { sc with totalLength := sc.totalLength + 512 }
          data =
        sc' ∧
        sc'.bufferLength = 0 ∧
          Absorbed sc' (message ++ data.take 64) := by
  have hBytes := hSc.bufferLength
  have hAbsorbed := hSc.absorbed
  have hTaken : (data.take 64).length = 64 := by
    rw [List.length_take, Nat.min_eq_left hData]
  have hTotal :
      sc.totalLength + 512 =
        UInt64.ofNat (8 * (message ++ data.take 64).length) := by
    rw [hSc.totalLength, List.length_append, hTaken]
    exact totalLength_add message.length 64
  have hState :=
    sha1Guts_state
      { sc with totalLength := sc.totalLength + 512 } hData
  have hBefore :
      SHA1Context.state
          { sc with totalLength := sc.totalLength + 512 } =
        sc.state :=
    state_congr rfl
  rcases sha1Guts_frame
      { sc with totalLength := sc.totalLength + 512 } data with
    ⟨hash, hFrame⟩
  have hNothing :
      sc.buffer.toList.take (UInt32.toNat 0) = [] :=
    List.take_zero
  rw [hEmpty] at hBytes
  rw [hEmpty, hNothing] at hAbsorbed
  rw [hFrame, hBefore, ← Sha1.compress_take] at hState
  refine ⟨_, hFrame, hEmpty, hTotal, ?_, ?_⟩
  · rw [List.length_append, hTaken]
    change sc.bufferLength.toNat = _
    rw [hEmpty]
    omega
  · rw [Blocks.absorb_append, hAbsorbed,
      Blocks.absorb_full (by simp) (by simpa using hTaken),
      hState, List.nil_append]
    refine Prod.ext rfl ?_
    change [] = sc.buffer.toList.take sc.bufferLength.toNat
    rw [hEmpty, hNothing]

/- Whole blocks, until less than one is left. -/
theorem sha1BlockLoop_spec
    {fuel : Nat}
    {sc : SHA1Context}
    {message : Bytes}
    (data : Bytes)
    (len : UInt32)
    (hSc : Absorbed sc message)
    (hWhole : sc.bufferLength = 0 ∨ len = 0)
    (hFuel : len.toNat < fuel) :
    (∃ sc' data' len',
      sha1BlockLoop fuel sc data len =
          some (sc', data', len') ∧
        len'.toNat < 64 ∧
          Remaining message data len sc' data' len') ∨
      sha1BlockLoop fuel sc data len = none ∧
        data.length < len.toNat := by
  induction fuel generalizing sc message data len with
  | zero => omega
  | succ fuel ih =>
      rw [sha1BlockLoop]
      by_cases hBlock : len > 63
      · have hMore : 63 < len.toNat := hBlock
        have hEmpty : sc.bufferLength = 0 := by
          rcases hWhole with hEmpty | rfl
          · exact hEmpty
          · simp at hMore
        rw [if_pos hBlock]
        by_cases hShort : data.length < 64
        · rw [if_pos hShort]
          exact Or.inr ⟨rfl, by omega⟩
        have hRest : (len - 64).toNat = len.toNat - 64 :=
          UInt32.toNat_sub_of_le _ _ (by
            rw [UInt32.le_iff_toNat_le]
            exact hMore)
        rcases hSc.block hEmpty (Nat.le_of_not_lt hShort) with
          ⟨scNext, hGuts, hStill, hNext⟩
        rw [if_neg hShort, hGuts]
        rcases ih (data.drop 64) (len - 64) hNext
            (Or.inl hStill) (by omega) with
          ⟨sc', data', len', hSome, hFew, hRemaining⟩ |
            ⟨hNone, hFewer⟩
        · left
          refine ⟨sc', data', len', hSome, hFew, ?_, ?_,
            hRemaining.whole⟩
          · rcases hRemaining.absorbed with
              ⟨message', hAbsorbed, hBytes⟩
            refine ⟨message', hAbsorbed, ?_⟩
            rw [hBytes, hRest, List.append_assoc,
              ← List.take_add, Nat.add_sub_of_le hMore]
          · rw [← hRemaining.there, hRest, List.length_drop]
            omega
        · right
          refine ⟨hNone, ?_⟩
          rw [hRest, List.length_drop] at hFewer
          omega
      · have hFew : ¬ 63 < len.toNat := hBlock
        rw [if_neg hBlock]
        left
        exact ⟨sc, data, len, rfl, by omega,
          ⟨message, hSc, rfl⟩, Iff.rfl, hWhole⟩

end PeerNet

namespace PeerNet

/- What the blocks leave over fits into the empty buffer. -/
theorem Remaining.rest
    {message data data' : Bytes}
    {len len' : UInt32}
    {sc' : SHA1Context}
    (hRemaining : Remaining message data len sc' data' len')
    (hFew : len'.toNat < 64)
    (hNonzero : len' ≠ 0) :
    (len.toNat ≤ data.length →
      ∃ sc'',
        sc'.append data' len' = some sc'' ∧
          Absorbed sc'' (message ++ data.take len.toNat)) ∧
    (data.length < len.toNat →
      sc'.append data' len' = none) := by
  rcases hRemaining.absorbed with ⟨message', hAbsorbed, hBytes⟩
  have hEmpty : sc'.bufferLength.toNat = 0 := by
    rcases hRemaining.whole with hEmpty | hZero
    · rw [hEmpty]
      rfl
    · exact absurd hZero hNonzero
  refine ⟨fun hData => ?_, fun hShort => ?_⟩
  · have hThere := hRemaining.there.mp hData
    rcases hAbsorbed.append (by omega) hThere with
      ⟨sc'', hAppend, hLength, hFlushed⟩
    have hRoom : sc''.bufferLength ≠ 64 := by
      intro hFull
      rw [hFull, hEmpty, Nat.zero_add] at hLength
      change 64 = _ at hLength
      omega
    rw [flush_of_ne hRoom, hBytes] at hFlushed
    exact ⟨sc'', hAppend, hFlushed⟩
  · apply append_eq_none
    rw [← Nat.not_le, ← hRemaining.there]
    omega

/- The second half of a call: blocks, and what is behind. -/
theorem sha1UpdateBlocks_spec
    {sc : SHA1Context}
    {message : Bytes}
    (data : Bytes)
    (len : UInt32)
    (hSc : Absorbed sc message)
    (hWhole : sc.bufferLength = 0 ∨ len = 0) :
    (len.toNat ≤ data.length →
      ∃ sc',
        sha1UpdateBlocks sc data len = some sc' ∧
          Absorbed sc' (message ++ data.take len.toNat)) ∧
    (data.length < len.toNat →
      sha1UpdateBlocks sc data len = none) := by
  rw [sha1UpdateBlocks]
  rcases sha1BlockLoop_spec data len hSc hWhole
      (Nat.lt_succ_self _) with
    ⟨sc', data', len', hSome, hFew, hRemaining⟩ |
      ⟨hNone, hShort⟩
  · rw [hSome, Option.bind_eq_bind, Option.bind_some]
    dsimp only
    by_cases hZero : len' = 0
    · rcases hRemaining.absorbed with
        ⟨message', hAbsorbed, hBytes⟩
      have hThere := hRemaining.there
      rw [hZero] at hBytes hThere
      rw [UInt32.toNat_zero, List.take_zero,
        List.append_nil] at hBytes
      rw [if_neg (not_not_intro hZero)]
      refine ⟨fun _ => ⟨sc', rfl, hBytes ▸ hAbsorbed⟩,
        fun hShort => ?_⟩
      simp at hThere
      omega
    · rw [if_pos hZero]
      exact hRemaining.rest hFew hZero
  · rw [hNone]
    exact ⟨fun hData => by omega, fun _ => rfl⟩

theorem flush_bufferLength
    {sc : SHA1Context}
    (hFull : sc.bufferLength = 64) :
    sc.flush.bufferLength = 0 := by
  rw [flush_of_full hFull]

theorem updates_fast :
    Updates sha1UpdateFast := by
  intro sc message data len hSc
  rw [sha1UpdateFast]
  by_cases hSome : sc.bufferLength ≠ 0
  · rw [if_pos hSome]
    have hOpen := hSc.bufferLength_lt
    have hCopy := bytesToCopy_eq hOpen len
    have hRest := toNat_sub_bytesToCopy hOpen len
    by_cases hThere :
        (sc.bytesToCopy len).toNat ≤ data.length
    · rcases hSc.append (by omega) hThere with
        ⟨sc', hAppend, hLength, hFlushed⟩
      have hWhole :
          sc'.flush.bufferLength = 0 ∨
            len - sc.bytesToCopy len = 0 := by
        by_cases hFull : sc'.bufferLength = 64
        · exact Or.inl (flush_bufferLength hFull)
        · right
          have hRoom : sc'.bufferLength.toNat ≠ 64 :=
            fun h => hFull (UInt32.toNat_inj.mp h)
          apply UInt32.toNat_inj.mp
          change _ = 0
          omega
      have hTail :=
        sha1UpdateBlocks_spec
          (data.drop (sc.bytesToCopy len).toNat)
          (len - sc.bytesToCopy len) hFlushed hWhole
      rw [List.length_drop, hRest, List.append_assoc,
        ← List.take_add, Nat.add_sub_of_le (by omega)] at hTail
      simp only [hAppend, Option.bind_eq_bind,
        Option.bind_some]
      exact ⟨fun hData => hTail.1 (by omega),
        fun hShort => hTail.2 (by omega)⟩
    · have hNone :
          sc.append data (sc.bytesToCopy len) = none :=
        append_eq_none (by omega)
      simp only [hNone, Option.bind_eq_bind,
        Option.bind_none]
      exact ⟨fun hData => by omega, fun _ => trivial⟩
  · rw [if_neg hSome]
    exact sha1UpdateBlocks_spec data len hSc
      (Or.inl (not_not.mp hSome))

end PeerNet
