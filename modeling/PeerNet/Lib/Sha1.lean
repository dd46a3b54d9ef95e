import PeerNet.Lib.BigEndian
import PeerNet.Lib.Blocks

/-
  SHA-1 as the standard states it.

  A message is padded to whole blocks of 64 bytes, a block is
  expanded to 80 words by a recurrence and folded into five
  words in 80 rounds, and the digest is the five words of the
  last block, the most significant byte first.

  Nothing is known here about collisions of the compression.
  What holds of any compression: two messages with the same
  digest are equal, or on the way to the digest different
  states or blocks were compressed alike.

  Key definitions include:
    * `Sha1.schedule`
    * `Sha1.round`
    * `Sha1.compress`
    * `Sha1.pad`
    * `Sha1.hash`

  Key rules include:
    * `Sha1.compress_take`
    * `Sha1.length_pad`
    * `Sha1.pad_suffix_free`
    * `Sha1.digest_injective`
    * `Sha1.eq_or_meet`
-/

------------------------------------------------------------
-- Words and Rounds
------------------------------------------------------------

namespace Sha1

/- The five words that are carried from block to block. -/
@[ext] structure State where
  a : UInt32
  b : UInt32
  c : UInt32
  d : UInt32
  e : UInt32
deriving DecidableEq

/- What the first block starts from. -/
def init : State where
  a := 0x67452301
  b := 0xefcdab89
  c := 0x98badcfe
  d := 0x10325476
  e := 0xc3d2e1f0

def rotateLeft
    (n : Nat)
    (x : UInt32) : UInt32 :=
  ⟨x.toBitVec.rotateLeft n⟩

/- The choice, parity and majority functions. -/
def ch
    (x y z : UInt32) : UInt32 :=
  (x &&& y) ^^^ (~~~x &&& z)

def parity
    (x y z : UInt32) : UInt32 :=
  x ^^^ y ^^^ z

def maj
    (x y z : UInt32) : UInt32 :=
  (x &&& y) ^^^ (x &&& z) ^^^ (y &&& z)

/- The function of round `t`. -/
def func
    (t : Nat) : UInt32 → UInt32 → UInt32 → UInt32 :=
  if t < 20 then
    ch
  else if t < 40 then
    parity
  else if t < 60 then
    maj
  else
    parity

/- The constant of round `t`. -/
def const
    (t : Nat) : UInt32 :=
  if t < 20 then
    0x5a827999
  else if t < 40 then
    0x6ed9eba1
  else if t < 60 then
    0x8f1bbcdc
  else
    0xca62c1d6

/- Word `t` of a block. -/
def word
    (block : List UInt8)
    (t : Nat) : UInt32 :=
  UInt32.ofNat
    (BigEndian.read ((block.drop (4 * t)).take 4))

/- The words of a block, and those computed from them. -/
def schedule
    (block : List UInt8)
    (t : Nat) : UInt32 :=
  if t < 16 then
    word block t
  else
    rotateLeft 1
      (schedule block (t - 3) ^^^ schedule block (t - 8) ^^^
        schedule block (t - 14) ^^^ schedule block (t - 16))
termination_by t

def round
    (block : List UInt8)
    (s : State)
    (t : Nat) : State where
  a := rotateLeft 5 s.a + func t s.b s.c s.d + s.e +
    schedule block t + const t
  b := s.a
  c := rotateLeft 30 s.b
  d := s.c
  e := s.d

/- One block folded into the state. -/
def compress
    (h : State)
    (block : List UInt8) : State :=
  let s := (List.range 80).foldl (round block) h
  { a := h.a + s.a
    b := h.b + s.b
    c := h.c + s.c
    d := h.d + s.d
    e := h.e + s.e }

theorem schedule_word
    (block : List UInt8)
    {t : Nat}
    (hWord : t < 16) :
    schedule block t = word block t := by
  rw [schedule, if_pos hWord]

theorem schedule_step
    (block : List UInt8)
    (t : Nat) :
    schedule block (t + 16) =
      rotateLeft 1
        (schedule block (t + 13) ^^^
          schedule block (t + 8) ^^^
            schedule block (t + 2) ^^^ schedule block t) := by
  rw [schedule, if_neg (by omega)]
  simp

/- A block is its first 64 bytes. -/
theorem word_take
    (block : List UInt8)
    {t : Nat}
    (hWord : t < 16) :
    word (block.take 64) t = word block t := by
  rw [word, word, List.drop_take, List.take_take,
    Nat.min_eq_left (by omega)]

theorem schedule_take
    (block : List UInt8)
    (t : Nat) :
    schedule (block.take 64) t = schedule block t := by
  induction t using Nat.strong_induction_on with
  | _ t ih =>
      by_cases hWord : t < 16
      · rw [schedule_word _ hWord, schedule_word _ hWord,
          word_take block hWord]
      · rcases Nat.exists_eq_add_of_le (Nat.le_of_not_lt hWord)
          with ⟨k, rfl⟩
        rw [Nat.add_comm 16 k, schedule_step, schedule_step,
          ih (k + 13) (by omega), ih (k + 8) (by omega),
          ih (k + 2) (by omega), ih k (by omega)]

theorem compress_take
    (h : State)
    (block : List UInt8) :
    compress h (block.take 64) = compress h block := by
  have hRound : round (block.take 64) = round block := by
    funext s t
    rw [round, round, schedule_take]
  rw [compress, compress, hRound]

end Sha1

------------------------------------------------------------
-- Padding and Digests
------------------------------------------------------------

namespace Sha1

/- A one bit, zeros, and the number of bits of the message. -/
def padding
    (length : Nat) : List UInt8 :=
  0x80 :: List.replicate ((119 - length % 64) % 64) 0 ++
    BigEndian.write 8 (8 * length)

def pad
    (message : List UInt8) : List UInt8 :=
  message ++ padding message.length

def digest
    (s : State) : List UInt8 :=
  BigEndian.write 4 s.a.toNat ++
    BigEndian.write 4 s.b.toNat ++
      BigEndian.write 4 s.c.toNat ++
        BigEndian.write 4 s.d.toNat ++
          BigEndian.write 4 s.e.toNat

def hash
    (message : List UInt8) : List UInt8 :=
  digest (Blocks.chain 64 compress init (pad message))

/- Only whole blocks are compressed. -/
theorem length_pad
    (message : List UInt8) :
    (pad message).length % 64 = 0 := by
  simp [pad, padding]
  omega

/- The padding of whole blocks depends on their number only. -/
theorem hash_congr
    {m n : List UInt8}
    (hLength : m.length = n.length)
    (hWhole : m.length % 64 = 0)
    (hChain :
      Blocks.chain 64 compress init m =
        Blocks.chain 64 compress init n) :
    hash m = hash n := by
  have hWhole' : n.length % 64 = 0 := hLength ▸ hWhole
  unfold hash pad
  rw [Blocks.chain_append (by decide) hWhole,
    Blocks.chain_append (by decide) hWhole', hChain, hLength]

theorem write_eight_injective
    {m n : Nat}
    (hm : m < 2 ^ 61)
    (hn : n < 2 ^ 61)
    (hSame :
      BigEndian.write 8 (8 * m) = BigEndian.write 8 (8 * n)) :
    m = n := by
  have hRead := congrArg BigEndian.read hSame
  rw [BigEndian.read_write, BigEndian.read_write] at hRead
  omega

/- The end of a padded message is its length. -/
theorem pad_eq
    (message : List UInt8) :
    ∃ front,
      pad message =
        front ++ BigEndian.write 8 (8 * message.length) := by
  exact ⟨message ++ 0x80 ::
      List.replicate ((119 - message.length % 64) % 64) 0,
    by simp [pad, padding]⟩

theorem length_eq_of_suffix
    {m n : List UInt8}
    (hm : m.length < 2 ^ 61)
    (hn : n.length < 2 ^ 61)
    (hSuffix : pad m <:+ pad n) :
    m.length = n.length := by
  rcases hSuffix with ⟨front, hPad⟩
  rcases pad_eq m with ⟨frontM, hM⟩
  rcases pad_eq n with ⟨frontN, hN⟩
  rw [hM, hN, ← List.append_assoc] at hPad
  exact write_eight_injective hm hn
    (List.append_inj_right' hPad (by simp))

/- No padded message is the end of another one. -/
theorem pad_suffix_free
    {m n : List UInt8}
    (hm : m.length < 2 ^ 61)
    (hn : n.length < 2 ^ 61)
    (hSuffix : pad m <:+ pad n) :
    m = n := by
  have hLength := length_eq_of_suffix hm hn hSuffix
  have hPad : pad m = pad n := by
    apply hSuffix.eq_of_length
    simp [pad, padding, hLength]
  rw [pad, pad] at hPad
  exact List.append_inj_left hPad hLength

theorem toNat_injective_of_write
    {x y : UInt32}
    (hSame :
      BigEndian.write 4 x.toNat = BigEndian.write 4 y.toNat) :
    x = y := by
  have hRead := congrArg BigEndian.read hSame
  rw [BigEndian.read_write, BigEndian.read_write] at hRead
  have hx := x.toNat_lt
  have hy := y.toNat_lt
  apply UInt32.toNat_inj.mp
  omega

/- The digest keeps all five words. -/
theorem digest_injective
    {s t : State}
    (hSame : digest s = digest t) :
    s = t := by
  simp only [digest, List.append_assoc] at hSame
  rcases List.append_inj hSame (by simp) with ⟨ha, hSame⟩
  rcases List.append_inj hSame (by simp) with ⟨hb, hSame⟩
  rcases List.append_inj hSame (by simp) with ⟨hc, hSame⟩
  rcases List.append_inj hSame (by simp) with ⟨hd, he⟩
  exact State.ext
    (toNat_injective_of_write ha)
    (toNat_injective_of_write hb)
    (toNat_injective_of_write hc)
    (toNat_injective_of_write hd)
    (toNat_injective_of_write he)

/- Different messages with the same digest meet. -/
theorem eq_or_meet
    {m n : List UInt8}
    (hm : m.length < 2 ^ 61)
    (hn : n.length < 2 ^ 61)
    (hSame : hash m = hash n) :
    m = n ∨ Blocks.Meet 64 compress init (pad m) (pad n) := by
  have hChain := digest_injective hSame
  rcases Blocks.suffix_or_meet (by decide)
      (length_pad m) (length_pad n) hChain with
    hSuffix | hSuffix | hMeet
  · exact Or.inl (pad_suffix_free hm hn hSuffix)
  · exact Or.inl (pad_suffix_free hn hm hSuffix).symm
  · exact Or.inr hMeet

end Sha1
