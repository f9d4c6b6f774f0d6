/-
# Little-endian bytes

A machine integer in memory: `leBytes w n` is the `w` bytes of `n`, least
significant first, and `leNat` reads them back. Reading what was written is
reduction modulo `256 ^ w` (`leNat_leBytes`), and writing what was read gives
the same bytes (`leBytes_leNat`), so a field of `w` bytes and its value
determine each other.

Key definitions: `leBytes`, `leNat`.
Key theorems: `leNat_leBytes`, `leBytes_leNat`, `leBytes_add`.
-/
import Mathlib.Data.Nat.Notation
import Mathlib.Tactic.Common
import Mathlib.Tactic.Ring

namespace ByteCodec

/-- The `w` low bytes of `n`, least significant first. -/
def leBytes : ℕ → ℕ → List UInt8
  | 0, _ => []
  | w + 1, n => UInt8.ofNat n :: leBytes w (n / 256)

/-- The number whose bytes, least significant first, are the list. -/
def leNat : List UInt8 → ℕ
  | [] => 0
  | b :: bs => b.toNat + 256 * leNat bs

@[simp] theorem leBytes_length : ∀ w n : ℕ, (leBytes w n).length = w
  | 0, _ => rfl
  | w + 1, n => by simp [leBytes, leBytes_length w]

theorem leNat_lt : ∀ bs : List UInt8, leNat bs < 256 ^ bs.length
  | [] => by simp [leNat]
  | b :: bs => by
    have ih := leNat_lt bs
    have hb : b.toNat < 256 := b.toNat_lt
    rw [leNat, List.length_cons, pow_succ]
    omega

theorem leNat_leBytes : ∀ w n : ℕ, leNat (leBytes w n) = n % 256 ^ w
  | 0, n => by simp [leBytes, leNat, Nat.mod_one]
  | w + 1, n => by
    have hb : (UInt8.ofNat n).toNat = n % 256 := UInt8.toNat_ofNat'
    rw [leBytes, leNat, leNat_leBytes w, hb, pow_succ', Nat.mod_mul]

/-- Writing back what was read gives the same bytes. -/
theorem leBytes_leNat : ∀ bs : List UInt8, leBytes bs.length (leNat bs) = bs
  | [] => rfl
  | b :: bs => by
    have hb : b.toNat < 256 := b.toNat_lt
    have h1 : UInt8.ofNat (b.toNat + 256 * leNat bs) = b := by
      apply UInt8.toNat_inj.mp
      rw [UInt8.toNat_ofNat']
      omega
    have h2 : (b.toNat + 256 * leNat bs) / 256 = leNat bs := by omega
    rw [List.length_cons, leNat, leBytes, h1, h2, leBytes_leNat bs]

theorem leBytes_mod (w n : ℕ) : leBytes w (n % 256 ^ w) = leBytes w n := by
  have h := leBytes_leNat (leBytes w n)
  rwa [leBytes_length, leNat_leBytes] at h

theorem leBytes_add : ∀ v w n : ℕ, leBytes (v + w) n = leBytes v n ++ leBytes w (n / 256 ^ v)
  | 0, w, n => by rw [Nat.zero_add, pow_zero, Nat.div_one]; rfl
  | v + 1, w, n => by
    rw [Nat.succ_add, leBytes, leBytes_add v w, leBytes, List.cons_append, Nat.div_div_eq_div_mul,
      ← pow_succ']

end ByteCodec
