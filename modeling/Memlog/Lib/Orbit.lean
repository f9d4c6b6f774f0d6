/-
# Orbits that close

`Enumerates f n s`: the values `s 0`, ..., `s (n - 1)` are different, and `f`
takes each of them to the next one and the last one to the first. Then `f`
iterated from `s 0` goes through them in order, again and again (`iterate_eq`),
and values less than `n` steps apart differ (`ne`).
-/
import Mathlib.Data.Nat.Notation
import Mathlib.Logic.Function.Iterate
import Mathlib.Tactic.Common

namespace Orbit

/-- `s` lists the orbit of `f` from `s 0`, which has `n` values. -/
structure Enumerates {α : Type} (f : α → α) (n : ℕ) (s : ℕ → α) : Prop where
  pos : 0 < n
  step : ∀ k < n, f (s k) = s ((k + 1) % n)
  injective : ∀ i < n, ∀ j < n, s i = s j → i = j

namespace Enumerates

variable {α : Type} {f : α → α} {n : ℕ} {s : ℕ → α} (h : Enumerates f n s)
include h

theorem iterate_eq (k : ℕ) : f^[k] (s 0) = s (k % n) := by
  induction k with
  | zero => rw [Nat.zero_mod, Function.iterate_zero, id]
  | succ k ih => rw [Function.iterate_succ_apply', ih, h.step _ (Nat.mod_lt _ h.pos), Nat.mod_add_mod]

/-- Less than `n` steps apart nothing repeats. -/
theorem ne {i j : ℕ} (hij : i < j) (hj : j < i + n) : s (i % n) ≠ s (j % n) := by
  intro heq
  have hmod : i % n = j % n := h.injective _ (Nat.mod_lt _ h.pos) _ (Nat.mod_lt _ h.pos) heq
  have hdvd : n ∣ j - i := Nat.dvd_of_mod_eq_zero (Nat.sub_mod_eq_zero_of_mod_eq hmod.symm)
  have hle := Nat.le_of_dvd (by omega) hdvd
  omega

end Enumerates
end Orbit
