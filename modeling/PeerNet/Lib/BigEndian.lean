import Mathlib.Algebra.Ring.Nat
import Mathlib.Tactic.Common
import Mathlib.Tactic.Ring

/-
  Numbers in network byte order.

  `BigEndian.write k n` is `n` in `k` bytes, the most
  significant byte first, and `BigEndian.read` is the number
  that a list of bytes stands for. Writing drops what does
  not fit into the bytes, so reading gives the number modulo
  `256 ^ k`; reading drops nothing.

  Key definitions include:
    * `BigEndian.write`
    * `BigEndian.read`

  Key rules include:
    * `BigEndian.read_write`
    * `BigEndian.write_read`
-/

------------------------------------------------------------
-- Writing and Reading
------------------------------------------------------------

namespace BigEndian

/- A number in `k` bytes. -/
def write :
    Nat → Nat → List UInt8
| 0, _ => []
| k + 1, n => UInt8.ofNat (n / 256 ^ k) :: write k n

/- The number of a list of bytes. -/
def read :
    List UInt8 → Nat
| [] => 0
| byte :: bytes =>
    byte.toNat * 256 ^ bytes.length + read bytes

@[simp] theorem length_write
    (k n : Nat) :
    (write k n).length = k := by
  induction k with
  | zero => simp [write]
  | succ k ih => simp [write, ih]

theorem read_lt
    (bytes : List UInt8) :
    read bytes < 256 ^ bytes.length := by
  induction bytes with
  | nil => simp [read]
  | cons byte bytes ih =>
      have hByte : byte.toNat + 1 ≤ 256 := byte.toNat_lt
      have hRoom :
          (byte.toNat + 1) * 256 ^ bytes.length ≤
            256 * 256 ^ bytes.length :=
        Nat.mul_le_mul_right _ hByte
      calc
        read (byte :: bytes)
            < byte.toNat * 256 ^ bytes.length +
                256 ^ bytes.length := by
              simpa [read] using ih
        _ = (byte.toNat + 1) * 256 ^ bytes.length := by
              ring
        _ ≤ 256 ^ (byte :: bytes).length := by
              simpa [pow_succ, Nat.mul_comm] using hRoom

/- A number comes back as far as it fits. -/
theorem read_write
    (k n : Nat) :
    read (write k n) = n % 256 ^ k := by
  induction k with
  | zero => simp [write, read, Nat.mod_one]
  | succ k ih =>
      have hByte :
          (UInt8.ofNat (n / 256 ^ k)).toNat =
            n / 256 ^ k % 256 := by
        simp
      simp only [write, read, length_write, hByte, ih,
        Nat.mod_pow_succ]
      ring

/- The bytes of a number are those of its two parts. -/
theorem write_add
    (j k n : Nat) :
    write (j + k) n = write j (n / 256 ^ k) ++ write k n := by
  induction j with
  | zero => simp [write]
  | succ j ih =>
      have hFirst :
          n / 256 ^ (j + k) = n / 256 ^ k / 256 ^ j := by
        rw [Nat.div_div_eq_div_mul, ← pow_add, Nat.add_comm]
      rw [Nat.add_right_comm, write, write, ih, hFirst,
        List.cons_append]

/- What does not fit is not written. -/
theorem write_mod
    (k n : Nat) :
    write k (n % 256 ^ k) = write k n := by
  induction k generalizing n with
  | zero => simp [write]
  | succ k ih =>
      have hFirst :
          n % 256 ^ (k + 1) / 256 ^ k =
            n / 256 ^ k % 256 := by
        rw [pow_succ, Nat.mod_mul_right_div_self]
      have hRest :
          n % 256 ^ (k + 1) % 256 ^ k = n % 256 ^ k :=
        Nat.mod_mod_of_dvd n (pow_dvd_pow 256 k.le_succ)
      have hTail := ih (n % 256 ^ (k + 1))
      rw [hRest, ih] at hTail
      have hByte :
          UInt8.ofNat (n / 256 ^ k % 256) =
            UInt8.ofNat (n / 256 ^ k) := by
        apply UInt8.toNat_inj.mp
        simp
      simp only [write, hFirst, hByte, hTail]

/- The bytes of a number that was read are those read. -/
theorem write_read
    (bytes : List UInt8) :
    write bytes.length (read bytes) = bytes := by
  induction bytes with
  | nil => simp [write]
  | cons byte bytes ih =>
      have hRest := read_lt bytes
      have hFirst :
          read (byte :: bytes) / 256 ^ bytes.length =
            byte.toNat := by
        rw [read, Nat.add_comm, Nat.add_mul_div_right _ _
          (Nat.pow_pos (by decide)),
          Nat.div_eq_of_lt hRest, Nat.zero_add]
      have hTail :
          write bytes.length (read (byte :: bytes)) =
            bytes := by
        rw [← write_mod, read, Nat.mul_add_mod_of_lt hRest]
        exact ih
      simp only [List.length_cons, write, hFirst, hTail,
        UInt8.ofNat_toNat]

end BigEndian
