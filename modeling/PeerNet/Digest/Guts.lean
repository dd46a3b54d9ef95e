import PeerNet.Lib.Sha1
import PeerNet.Model.Sha
import Mathlib.Tactic.IntervalCases

/-
  `SHA1Guts` is the compression of the standard.

  The macros are compared bit by bit, the words of a block
  and those computed from them by following the pointers into
  `buf`, and the rounds by following the pointer `W`.

  Main declarations:
    * `rotl_eq`, `f0_19_eq`, `f40_59_eq`
    * `byteswap_loadWord`, `longBytes_byteswap64`
    * `copyWords_eq`, `expandWords_eq`
    * `doRounds_eq`
    * `sha1Guts_state`
-/

------------------------------------------------------------
-- Macros
------------------------------------------------------------

namespace PeerNet

theorem rotl_eq
    {x n : UInt32}
    (hSome : 0 < n.toNat)
    (hWord : n.toNat < 32) :
    rotl x n = Sha1.rotateLeft n.toNat x := by
  have hBack :
      (4294967296 - n.toNat) % 32 = 32 - n.toNat % 32 := by
    omega
  apply UInt32.toBitVec_inj.mp
  apply BitVec.eq_of_getLsbD_eq
  intro i hi
  simp [rotl, Sha1.rotateLeft, BitVec.rotateLeft_def, hBack]

theorem f0_19_eq :
    f0_19 = Sha1.ch := by
  funext x y z
  apply UInt32.toBitVec_inj.mp
  apply BitVec.eq_of_getLsbD_eq
  intro i hi
  simp only [f0_19, Sha1.ch, UInt32.toBitVec_xor,
    UInt32.toBitVec_and, UInt32.toBitVec_not,
    BitVec.getLsbD_xor, BitVec.getLsbD_and,
    BitVec.getLsbD_not, hi, decide_true, Bool.true_and]
  cases x.toBitVec.getLsbD i <;>
    cases z.toBitVec.getLsbD i <;> simp

theorem f40_59_eq :
    f40_59 = Sha1.maj := by
  funext x y z
  apply UInt32.toBitVec_inj.mp
  apply BitVec.eq_of_getLsbD_eq
  intro i hi
  simp only [f40_59, Sha1.maj, UInt32.toBitVec_xor,
    UInt32.toBitVec_and, UInt32.toBitVec_or,
    BitVec.getLsbD_xor, BitVec.getLsbD_and,
    BitVec.getLsbD_or]
  cases x.toBitVec.getLsbD i <;>
    cases y.toBitVec.getLsbD i <;> simp

end PeerNet

------------------------------------------------------------
-- Byte Order
------------------------------------------------------------

namespace PeerNet

/- Four bytes as a word, the most significant byte first. -/
theorem bigWord_eq
    (b0 b1 b2 b3 : UInt8) :
    (b0.toUInt32 <<< 24) ||| (b1.toUInt32 <<< 16) |||
        (b2.toUInt32 <<< 8) ||| b3.toUInt32 =
      UInt32.ofNat (BigEndian.read [b0, b1, b2, b3]) := by
  have h0 := b0.toNat_lt
  have h1 := b1.toNat_lt
  have h2 := b2.toNat_lt
  have h3 := b3.toNat_lt
  have hOr2 :
      b2.toNat <<< 8 ||| b3.toNat =
        b2.toNat * 256 + b3.toNat := by
    rw [← Nat.shiftLeft_add_eq_or_of_lt h3,
      Nat.shiftLeft_eq]
  have hOr1 :
      b1.toNat <<< 16 ||| (b2.toNat * 256 + b3.toNat) =
        b1.toNat * 65536 + (b2.toNat * 256 + b3.toNat) := by
    rw [← Nat.shiftLeft_add_eq_or_of_lt (by omega),
      Nat.shiftLeft_eq]
  have hOr0 :
      b0.toNat <<< 24 |||
          (b1.toNat * 65536 + (b2.toNat * 256 + b3.toNat)) =
        b0.toNat * 16777216 +
          (b1.toNat * 65536 +
            (b2.toNat * 256 + b3.toNat)) := by
    rw [← Nat.shiftLeft_add_eq_or_of_lt (by omega),
      Nat.shiftLeft_eq]
  have hFit0 : b0.toNat <<< 24 < 4294967296 := by
    rw [Nat.shiftLeft_eq]
    omega
  have hFit1 : b1.toNat <<< 16 < 4294967296 := by
    rw [Nat.shiftLeft_eq]
    omega
  have hFit2 : b2.toNat <<< 8 < 4294967296 := by
    rw [Nat.shiftLeft_eq]
    omega
  apply UInt32.toNat_inj.mp
  simp [BigEndian.read, Nat.mod_eq_of_lt hFit0,
    Nat.mod_eq_of_lt hFit1, Nat.mod_eq_of_lt hFit2,
    Nat.or_assoc, hOr2, hOr1, hOr0]
  omega

/- A word of the block, as the machine reads and swaps it. -/
theorem byteswap_loadWord
    (b0 b1 b2 b3 : UInt8)
    (more : Bytes) :
    byteswap (loadWord (b0 :: b1 :: b2 :: b3 :: more)) =
      UInt32.ofNat (BigEndian.read [b0, b1, b2, b3]) := by
  rw [← bigWord_eq]
  apply UInt32.toBitVec_inj.mp
  apply BitVec.eq_of_getLsbD_eq
  intro i hi
  simp [byteswap, loadWord, rotl, rotr]
  interval_cases i <;> simp

theorem wordBytes_byteswap
    (x : UInt32) :
    wordBytes (byteswap x) = hashBytes x := by
  rw [wordBytes, hashBytes, ← Vector.toList_inj]
  simp only [Vector.toList_mk, List.cons.injEq, and_true]
  refine ⟨?_, ?_, ?_, ?_⟩
  all_goals
    apply UInt8.toBitVec_inj.mp
    apply BitVec.eq_of_getLsbD_eq
    intro i hi
    simp [byteswap, rotl, rotr]
    interval_cases i <;> simp

/- A word's bytes, the most significant byte first. -/
theorem hashBytes_eq
    (x : UInt32) :
    (hashBytes x).toList = BigEndian.write 4 x.toNat := by
  simp only [hashBytes, Vector.toList_mk, BigEndian.write,
    List.cons.injEq, and_true]
  refine ⟨?_, ?_, ?_, ?_⟩
  all_goals
    apply UInt8.toNat_inj.mp
    simp [Nat.shiftRight_eq_div_pow]

theorem longBytes_halves
    (low high : UInt32) :
    longBytes ((high.toUInt64 <<< 32) ||| low.toUInt64) =
      (wordBytes low).toList ++ (wordBytes high).toList := by
  simp only [longBytes, wordBytes, Vector.toList_mk,
    List.cons_append, List.nil_append, List.cons.injEq,
    and_true]
  refine ⟨?_, ?_, ?_, ?_, ?_, ?_, ?_, ?_⟩
  all_goals
    apply UInt8.toBitVec_inj.mp
    apply BitVec.eq_of_getLsbD_eq
    intro i hi
    interval_cases i <;> simp

/- The length, as `SHA1Final` stores it. -/
theorem longBytes_byteswap64
    (x : UInt64) :
    longBytes (byteswap64 x) =
      BigEndian.write 8 x.toNat := by
  have hHigh :
      (x >>> 32).toUInt32.toNat = x.toNat / 256 ^ 4 := by
    have hLt := x.toNat_lt
    have hShift : UInt64.toNat 32 % 64 = 32 := rfl
    rw [UInt64.toNat_toUInt32, UInt64.toNat_shiftRight,
      Nat.shiftRight_eq_div_pow, hShift]
    omega
  have hLow :
      BigEndian.write 4 x.toUInt32.toNat =
        BigEndian.write 4 x.toNat := by
    rw [← BigEndian.write_mod 4 x.toNat]
    simp
  rw [byteswap64, longBytes_halves, wordBytes_byteswap,
    wordBytes_byteswap, hashBytes_eq, hashBytes_eq, hHigh,
    hLow, ← BigEndian.write_add 4 4]

end PeerNet

------------------------------------------------------------
-- The Words of a Block
------------------------------------------------------------

namespace PeerNet

theorem byteswap_loadWord_drop
    {block : Bytes}
    {t : Nat}
    (hInside : 4 * t + 4 ≤ block.length) :
    byteswap (loadWord (block.drop (4 * t))) =
      Sha1.word block t := by
  have hLength : 4 ≤ (block.drop (4 * t)).length := by
    rw [List.length_drop]
    omega
  rw [Sha1.word]
  rcases hBytes : block.drop (4 * t) with
    _ | ⟨b0, _ | ⟨b1, _ | ⟨b2, _ | ⟨b3, more⟩⟩⟩⟩
  · simp [hBytes] at hLength
  · simp [hBytes] at hLength
  · simp [hBytes] at hLength
  · simp [hBytes] at hLength
  · exact byteswap_loadWord b0 b1 b2 b3 more

theorem copyWords_append
    (n : Nat)
    (cbuf : Bytes)
    (buf : List UInt32) :
    copyWords n cbuf buf =
      buf ++ (List.range n).map fun t =>
        byteswap (loadWord (cbuf.drop (4 * t))) := by
  induction n generalizing cbuf buf with
  | zero => simp [copyWords]
  | succ n ih =>
      have hNext :
          ∀ t, (cbuf.drop 4).drop (4 * t) =
            cbuf.drop (4 * (t + 1)) := by
        intro t
        rw [List.drop_drop]
        congr 1
        omega
      rw [copyWords, ih, List.range_succ_eq_map]
      simp [hNext, List.map_map, Function.comp_def]

theorem copyWords_eq
    {block : Bytes}
    (hBlock : 64 ≤ block.length) :
    copyWords 16 block [] =
      (List.range 16).map (Sha1.schedule block) := by
  rw [copyWords_append, List.nil_append]
  refine List.map_congr_left fun t hWord => ?_
  rw [List.mem_range] at hWord
  rw [byteswap_loadWord_drop (by omega),
    Sha1.schedule_word block hWord]

theorem getD_schedule
    {block : Bytes}
    {t n : Nat}
    (hComputed : t < n) :
    ((List.range n).map (Sha1.schedule block)).getD t 0 =
      Sha1.schedule block t := by
  simp [hComputed]

/- The pointers stay their distances behind the end. -/
theorem expandWords_schedule
    (block : Bytes)
    (i k : Nat) :
    expandWords i (k + 13) (k + 8) (k + 2) k
        ((List.range (k + 16)).map (Sha1.schedule block)) =
      (List.range (k + 16 + i)).map
        (Sha1.schedule block) := by
  induction i generalizing k with
  | zero => rfl
  | succ i ih =>
      have hRotl :
          ∀ x, rotl x 1 = Sha1.rotateLeft 1 x :=
        fun x => rotl_eq (by decide) (by decide)
      have hNext := ih (k + 1)
      rw [expandWords, getD_schedule (by omega),
        getD_schedule (by omega), getD_schedule (by omega),
        getD_schedule (by omega), hRotl,
        ← Sha1.schedule_step, ← List.map_singleton,
        ← List.map_append, ← List.range_succ]
      rw [show k + 1 + 13 = k + 13 + 1 by omega,
        show k + 1 + 8 = k + 8 + 1 by omega,
        show k + 1 + 2 = k + 2 + 1 by omega,
        show k + 1 + 16 = k + 16 + 1 by omega] at hNext
      rw [hNext]
      congr 2
      omega

theorem expandWords_eq
    {block : Bytes}
    (hBlock : 64 ≤ block.length) :
    expandWords 64 13 8 2 0 (copyWords 16 block []) =
      (List.range 80).map (Sha1.schedule block) := by
  rw [copyWords_eq hBlock]
  exact expandWords_schedule block 64 0

end PeerNet

------------------------------------------------------------
-- Rounds
------------------------------------------------------------

namespace PeerNet

/- The state that the registers, or the context, hold. -/
def Registers.state
    (r : Registers) : Sha1.State where
  a := r.a
  b := r.b
  c := r.c
  d := r.d
  e := r.e

def SHA1Context.state
    (sc : SHA1Context) : Sha1.State :=
  sc.registers.state

theorem state_congr
    {sc sc' : SHA1Context}
    (hHash : sc.hash = sc'.hash) :
    sc.state = sc'.state := by
  simp [SHA1Context.state, SHA1Context.registers, hHash]

theorem doRound_state
    {f : UInt32 → UInt32 → UInt32 → UInt32}
    {k : UInt32}
    {t : Nat}
    (block : Bytes)
    (hFunc : Sha1.func t = f)
    (hConst : Sha1.const t = k)
    (r : Registers) :
    (doRound f k r (Sha1.schedule block t)).state =
      Sha1.round block r.state t := by
  have hFive : rotl r.a 5 = Sha1.rotateLeft 5 r.a :=
    rotl_eq (by decide) (by decide)
  have hThirty : rotl r.b 30 = Sha1.rotateLeft 30 r.b :=
    rotl_eq (by decide) (by decide)
  rw [Sha1.round, doRound, hFive, hThirty, hFunc, hConst]
  rfl

/- Rounds `t` to `t + n`, with `W` at the word of round `t`. -/
theorem doRounds_eq
    {f : UInt32 → UInt32 → UInt32 → UInt32}
    {k : UInt32}
    (block : Bytes)
    {t n m : Nat}
    (hEnough : n ≤ m)
    (hFunc : ∀ i < n, Sha1.func (t + i) = f)
    (hConst : ∀ i < n, Sha1.const (t + i) = k)
    (r : Registers) :
    ∃ r',
      doRounds f k n r
          ((List.range' t m).map (Sha1.schedule block)) =
        (r', (List.range' (t + n) (m - n)).map
          (Sha1.schedule block)) ∧
        r'.state =
          (List.range' t n).foldl (Sha1.round block)
            r.state := by
  induction n generalizing t m r with
  | zero => exact ⟨r, rfl, rfl⟩
  | succ n ih =>
      rcases m with _ | m
      · omega
      have hRound :=
        doRound_state block (hFunc 0 (by omega))
          (hConst 0 (by omega)) r
      rw [Nat.add_zero] at hRound
      rcases ih (t := t + 1) (m := m) (by omega)
          (fun i hi => by
            rw [Nat.add_assoc, Nat.add_comm 1]
            exact hFunc (i + 1) (by omega))
          (fun i hi => by
            rw [Nat.add_assoc, Nat.add_comm 1]
            exact hConst (i + 1) (by omega))
          (doRound f k r (Sha1.schedule block t)) with
        ⟨r', hRest, hState⟩
      refine ⟨r', ?_, ?_⟩
      · rw [doRounds, List.range'_succ, List.map_cons,
          List.headD_cons, List.tail_cons, hRest,
          show t + 1 + n = t + (n + 1) by omega,
          show m - n = m + 1 - (n + 1) by omega]
      · rw [List.range'_succ, List.foldl_cons, ← hRound]
        exact hState

/- `SHA1Guts` writes nothing but the hash. -/
theorem sha1Guts_frame
    (sc : SHA1Context)
    (cbuf : Bytes) :
    ∃ hash, sha1Guts sc cbuf = { sc with hash := hash } := by
  rw [sha1Guts]
  exact ⟨_, rfl⟩

/- What the four groups of rounds add to the hash. -/
theorem sha1Guts_of_rounds
    {sc : SHA1Context}
    {cbuf : Bytes}
    {r1 r2 r3 r4 : Registers}
    {buf buf1 buf2 buf3 buf4 : List UInt32}
    (hWords :
      expandWords 64 13 8 2 0 (copyWords 16 cbuf []) = buf)
    (hRounds1 :
      doRounds f0_19 k0_19 20 sc.registers buf =
        (r1, buf1))
    (hRounds2 :
      doRounds f20_39 k20_39 20 r1 buf1 = (r2, buf2))
    (hRounds3 :
      doRounds f40_59 k40_59 20 r2 buf2 = (r3, buf3))
    (hRounds4 :
      doRounds f60_79 k60_79 20 r3 buf3 = (r4, buf4)) :
    sha1Guts sc cbuf = sc.addRegisters r4 := by
  rw [sha1Guts, hWords, hRounds1]
  dsimp only
  rw [hRounds2]
  dsimp only
  rw [hRounds3]
  dsimp only
  rw [hRounds4]

/- One block is compressed as the standard says. -/
theorem sha1Guts_state
    (sc : SHA1Context)
    {block : Bytes}
    (hBlock : 64 ≤ block.length) :
    (sha1Guts sc block).state =
      Sha1.compress sc.state block := by
  rcases doRounds_eq (f := f0_19) (k := k0_19) block
      (t := 0) (n := 20) (m := 80) (by decide)
      (fun i hi => by
        rw [Sha1.func, if_pos (by omega), f0_19_eq])
      (fun i hi => by
        rw [Sha1.const, if_pos (by omega)])
      sc.registers with
    ⟨r1, hRounds1, hState1⟩
  rcases doRounds_eq (f := f20_39) (k := k20_39) block
      (t := 20) (n := 20) (m := 60) (by decide)
      (fun i hi => by
        rw [Sha1.func, if_neg (by omega),
          if_pos (by omega)]
        rfl)
      (fun i hi => by
        rw [Sha1.const, if_neg (by omega),
          if_pos (by omega)])
      r1 with
    ⟨r2, hRounds2, hState2⟩
  rcases doRounds_eq (f := f40_59) (k := k40_59) block
      (t := 40) (n := 20) (m := 40) (by decide)
      (fun i hi => by
        rw [Sha1.func, if_neg (by omega), if_neg (by omega),
          if_pos (by omega), f40_59_eq])
      (fun i hi => by
        rw [Sha1.const, if_neg (by omega), if_neg (by omega),
          if_pos (by omega)])
      r2 with
    ⟨r3, hRounds3, hState3⟩
  rcases doRounds_eq (f := f60_79) (k := k60_79) block
      (t := 60) (n := 20) (m := 20) (by decide)
      (fun i hi => by
        rw [Sha1.func, if_neg (by omega), if_neg (by omega),
          if_neg (by omega)]
        rfl)
      (fun i hi => by
        rw [Sha1.const, if_neg (by omega), if_neg (by omega),
          if_neg (by omega)])
      r3 with
    ⟨r4, hRounds4, hState4⟩
  have hAll :
      r4.state =
        (List.range 80).foldl (Sha1.round block)
          sc.state := by
    have hRange :
        List.range' 0 20 ++
            (List.range' 20 20 ++
              (List.range' 40 20 ++ List.range' 60 20)) =
          List.range 80 := by
      decide
    rw [hState4, hState3, hState2, hState1,
      ← List.foldl_append, ← List.foldl_append,
      ← List.foldl_append, hRange]
    rfl
  rw [← List.range_eq_range'] at hRounds1
  rw [sha1Guts_of_rounds (expandWords_eq hBlock) hRounds1
    hRounds2 hRounds3 hRounds4, Sha1.compress, ← hAll]
  simp [SHA1Context.state, SHA1Context.registers,
    SHA1Context.addRegisters, Registers.state]

end PeerNet
