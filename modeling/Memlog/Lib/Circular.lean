/-
# Circular memory

A block of `S` cells read and written modulo its size. Positions are counted
from the start of the history and never reduced: position `a` lives in cell
`a % S`, so two ranges of positions inside one window of length `S` occupy
different cells (`mod_ne_of_lt`), and a write to one is not seen by a read of
the other (`read_write_disjoint`).

`Image S buf H` says that the block holds the last `S` elements of the
history `H`: appending to the history is writing at its end (`Image.write`),
and every range of the last `S` positions reads as the history has it
(`Image.read`).

A block that has not been filled holds elements from its first cell on, and one
and the same element behind them (`Filled`): they may be written in any order.

Key definitions: `read`, `write`, `Image`, `Filled`.
Key theorems: `read_write_same`, `read_write_disjoint`, `Image.write`, `Image.read`,
`Filled.overwrite`, `Filled.read`.
-/
import Mathlib.Data.Nat.Notation
import Mathlib.Data.List.Basic
import Mathlib.Tactic.Common

namespace Circular

variable {α : Type*}

/-- The `n` cells from position `a` on. -/
def read (S : ℕ) (buf : ℕ → α) (a n : ℕ) : List α :=
  (List.range n).map fun k => buf ((a + k) % S)

/-- The block after `xs` is written from position `a` on: a cell takes the
element its distance from `a` names, if there is one. -/
def write (S : ℕ) (buf : ℕ → α) (a : ℕ) (xs : List α) : ℕ → α := fun p =>
  if p < S then (xs[(p + (S - a % S)) % S]?).getD (buf p) else buf p

@[simp] theorem read_length (S : ℕ) (buf : ℕ → α) (a n : ℕ) : (read S buf a n).length = n := by
  simp [read]

theorem getElem?_read {S : ℕ} {buf : ℕ → α} {a n k : ℕ} (hk : k < n) :
    (read S buf a n)[k]? = some (buf ((a + k) % S)) := by
  simp [read, hk]

/-- A range reads as `xs` if its cells hold the elements of `xs`. -/
theorem read_eq_iff {S : ℕ} {buf : ℕ → α} {a : ℕ} {xs : List α} :
    read S buf a xs.length = xs ↔ ∀ k (hk : k < xs.length), xs[k] = buf ((a + k) % S) := by
  constructor
  · intro h k hk
    have hget : (read S buf a xs.length)[k]? = _ := getElem?_read hk
    rw [h, List.getElem?_eq_getElem hk] at hget
    exact Option.some.inj hget
  · intro h
    apply List.ext_getElem (read_length _ _ _ _)
    intro k hk hk'
    simp [h k hk', read]

/-- The longest front of a turn whose elements satisfy `p`. -/
theorem takeWhile_read (S : ℕ) (buf : ℕ → α) (a : ℕ) (p : α → Bool) :
    ∃ n ≤ S, (read S buf a S).takeWhile p = read S buf a n ∧ (∀ k < n, p (buf ((a + k) % S)) = true) ∧
      (n < S → p (buf ((a + n) % S)) = false) := by
  have hlen := read_length S buf a S
  have htake : (read S buf a S).takeWhile p = _ := List.takeWhile_eq_take_findIdx_not
  have hget : ∀ k (hk : k < (read S buf a S).length), (read S buf a S)[k] = buf ((a + k) % S) :=
    fun k hk => by
    simp [read]
  generalize hn : (read S buf a S).findIdx (fun b => !p b) = n at htake
  have hle : (read S buf a S).findIdx (fun b => !p b) ≤ (read S buf a S).length := List.findIdx_le_length
  rw [hn, hlen] at hle
  refine ⟨n, hle, ?_, fun k hk => ?_, fun hlt => ?_⟩
  · rw [htake]
    simp [read, ← List.map_take, List.take_range, Nat.min_eq_left hle]
  · have hnot := List.not_of_lt_findIdx (by rw [hn]; exact hk)
    simpa [hget] using hnot
  · have hidx : (read S buf a S).findIdx (fun b => !p b) < (read S buf a S).length := by rwa [hn, hlen]
    have hstop := List.findIdx_getElem (w := hidx)
    simp only [hn, hget] at hstop
    simpa using hstop

theorem read_congr {S : ℕ} {buf : ℕ → α} {a b : ℕ} (h : a % S = b % S) (n : ℕ) :
    read S buf a n = read S buf b n := by
  unfold read
  refine List.map_congr_left fun k _ => ?_
  rw [Nat.add_mod a, Nat.add_mod b, h]

theorem write_congr {S : ℕ} {buf : ℕ → α} {a b : ℕ} (h : a % S = b % S) (xs : List α) :
    write S buf a xs = write S buf b xs := by
  unfold write
  rw [h]

theorem read_append (S : ℕ) (buf : ℕ → α) (a m n : ℕ) :
    read S buf a (m + n) = read S buf a m ++ read S buf (a + m) n := by
  simp [read, List.range_add, Nat.add_assoc, Function.comp_def]

theorem read_succ (S : ℕ) (buf : ℕ → α) (a n : ℕ) :
    read S buf a (n + 1) = buf (a % S) :: read S buf (a + 1) n := by
  rw [Nat.add_comm n 1, read_append]
  simp [read]

/-- Two positions of one window of length `S` have different cells. -/
theorem mod_ne_of_lt {S a b : ℕ} (h : a < b) (hS : b < a + S) : a % S ≠ b % S := by
  intro he
  have h1 := Nat.div_add_mod a S
  have h2 := Nat.div_add_mod b S
  have h3 : S * (b / S) = S * (a / S) + (b - a) := by omega
  have h4 : S ∣ b - a := by
    refine ⟨b / S - a / S, ?_⟩
    rw [Nat.mul_sub]
    omega
  have := Nat.le_of_dvd (by omega) h4
  omega

theorem eq_of_mod_eq {S a b w : ℕ} (ha : w ≤ a) (ha' : a < w + S) (hb : w ≤ b) (hb' : b < w + S)
    (h : a % S = b % S) : a = b := by
  rcases Nat.lt_trichotomy a b with hlt | rfl | hlt
  · exact absurd h (mod_ne_of_lt hlt (by omega))
  · rfl
  · exact absurd h.symm (mod_ne_of_lt hlt (by omega))

theorem add_mod_cases {S a n : ℕ} (hn : n < S) :
    (a % S + n < S ∧ (a + n) % S = a % S + n) ∨ (S ≤ a % S + n ∧ (a + n) % S = a % S + n - S) := by
  have ha := Nat.mod_lt a (show 0 < S by omega)
  rw [← Nat.mod_add_mod]
  rcases Nat.lt_or_ge (a % S + n) S with h | h
  · exact .inl ⟨h, Nat.mod_eq_of_lt h⟩
  · refine .inr ⟨h, ?_⟩
    rw [Nat.mod_eq_sub_mod h, Nat.mod_eq_of_lt (by omega)]

theorem sub_one_mod {S a : ℕ} (h : a % S ≠ 0) : (a - 1) % S = a % S - 1 := by
  rcases Nat.eq_zero_or_pos S with rfl | hS
  · simp
  have hlt := Nat.mod_lt a hS
  have hdiv := Nat.div_add_mod a S
  have hsub : a - 1 = a % S - 1 + S * (a / S) := by omega
  rw [hsub, Nat.add_mul_mod_self_left, Nat.mod_eq_of_lt (by omega)]

theorem sub_one_mod_of_dvd {S a : ℕ} (h : a % S = 0) (ha : 0 < a) (hS : 0 < S) : (a - 1) % S = S - 1 := by
  obtain ⟨k, rfl⟩ := Nat.dvd_of_mod_eq_zero h
  obtain ⟨j, rfl⟩ : ∃ j, k = j + 1 := ⟨k - 1, by cases k <;> simp_all⟩
  have hsub : S * (j + 1) - 1 = S - 1 + S * j := by
    rw [Nat.mul_succ]
    omega
  rw [hsub, Nat.add_mul_mod_self_left, Nat.mod_eq_of_lt (by omega)]

/-- The distance of the cell of `a + k` from `a`, up to one turn, is `k`. -/
theorem dist_mod {S a k : ℕ} (hS : 0 < S) (hk : k < S) : ((a + k) % S + (S - a % S)) % S = k := by
  have ha := Nat.mod_lt a hS
  have h1 : (a + k) % S = (a % S + k) % S := by rw [Nat.mod_add_mod]
  rw [h1, Nat.mod_add_mod]
  have h2 : a % S + k + (S - a % S) = k + S := by omega
  rw [h2, Nat.add_mod_right, Nat.mod_eq_of_lt hk]

/-- The cell of a position, after a write from `a` on, for a position within one
turn of `a`. -/
theorem write_apply {S : ℕ} (hS : 0 < S) (buf : ℕ → α) (a : ℕ) (xs : List α) {k : ℕ} (hk : k < S) :
    write S buf a xs ((a + k) % S) = (xs[k]?).getD (buf ((a + k) % S)) := by
  unfold write
  rw [if_pos (Nat.mod_lt _ hS), dist_mod hS hk]

theorem exists_dist {S p : ℕ} (hp : p < S) (a : ℕ) : ∃ k < S, p = (a + k) % S := by
  have ha := Nat.mod_lt a (show 0 < S by omega)
  have h : a % S + (p + (S - a % S)) = p + S := by omega
  refine ⟨(p + (S - a % S)) % S, Nat.mod_lt _ (by omega), ?_⟩
  rw [Nat.add_mod_mod, ← Nat.mod_add_mod, h, Nat.add_mod_right, Nat.mod_eq_of_lt hp]

/-- Writing in two pieces. -/
theorem write_append {S : ℕ} (buf : ℕ → α) (a : ℕ) {xs ys : List α} (h : xs.length + ys.length ≤ S) :
    write S (write S buf a xs) (a + xs.length) ys = write S buf a (xs ++ ys) := by
  funext p
  rcases Nat.lt_or_ge p S with hp | hp
  · have hS : 0 < S := by omega
    obtain ⟨k, hk, rfl⟩ := exists_dist hp a
    rw [write_apply hS buf a (xs ++ ys) hk]
    rcases Nat.lt_or_ge k xs.length with hkx | hkx
    · -- the cell is in the first piece, one turn ahead of the second
      have h1 : (a + k) % S = (a + xs.length + (k + S - xs.length)) % S := by
        have : a + xs.length + (k + S - xs.length) = a + k + S := by omega
        rw [this, Nat.add_mod_right]
      rw [h1, write_apply hS _ _ ys (by omega), List.getElem?_eq_none (by omega), Option.getD_none,
        ← h1, write_apply hS buf a xs hk, List.getElem?_append_left hkx]
    · have h1 : (a + k) % S = (a + xs.length + (k - xs.length)) % S := by
        have : a + xs.length + (k - xs.length) = a + k := by omega
        rw [this]
      rw [h1, write_apply hS _ _ ys (by omega), ← h1, write_apply hS buf a xs hk,
        List.getElem?_eq_none hkx, Option.getD_none, List.getElem?_append_right hkx]
  · unfold write
    simp [show ¬ p < S by omega]

theorem read_write_same {S : ℕ} (hS : 0 < S) (buf : ℕ → α) (a : ℕ) {xs : List α}
    (h : xs.length ≤ S) : read S (write S buf a xs) a xs.length = xs := by
  apply List.ext_getElem?
  intro k
  rcases Nat.lt_or_ge k xs.length with hk | hk
  · rw [getElem?_read hk, write_apply hS buf a xs (by omega)]
    simp [hk]
  · rw [List.getElem?_eq_none (by simpa using hk), List.getElem?_eq_none hk]

/-- A write changes the cells of its range only. -/
theorem write_of_ne {S : ℕ} (buf : ℕ → α) {a p : ℕ} {xs : List α} (h : ∀ k < xs.length, p ≠ (a + k) % S) :
    write S buf a xs p = buf p := by
  rcases Nat.lt_or_ge p S with hp | hp
  · -- the cell is further from `a` than the elements reach
    obtain ⟨k, hk, rfl⟩ := exists_dist hp a
    rw [write_apply (by omega) _ _ _ hk, List.getElem?_eq_none]
    · rfl
    · exact Nat.le_of_not_lt fun hlt => h k hlt rfl
  · exact if_neg (Nat.not_lt.mpr hp)

/-- A write changes no cell of a position before it in its window. -/
theorem write_before {S : ℕ} (buf : ℕ → α) {a x : ℕ} {xs : List α} (hx : x < a)
    (h : a + xs.length ≤ x + S) : write S buf a xs (x % S) = buf (x % S) := by
  have hS : 0 < S := by omega
  -- the position one turn later, `x + S`, is the one past the end of the write
  have hcell : x % S = (a + (x + S - a)) % S := by
    have : a + (x + S - a) = x + S := by omega
    rw [this, Nat.add_mod_right]
  rw [hcell, write_apply hS buf a xs (by omega), List.getElem?_eq_none (by omega)]
  rfl

theorem write_after {S : ℕ} (buf : ℕ → α) {a x : ℕ} {xs : List α} (hx : a + xs.length ≤ x)
    (h : x < a + S) : write S buf a xs (x % S) = buf (x % S) := by
  have hS : 0 < S := by omega
  have hcell : x % S = (a + (x - a)) % S := by
    have : a + (x - a) = x := by omega
    rw [this]
  rw [hcell, write_apply hS buf a xs (by omega), List.getElem?_eq_none (by omega)]
  rfl

/-- A read does not see a write to another range of the same window. -/
theorem read_write_disjoint {S : ℕ} (buf : ℕ → α) {a b n : ℕ} {xs : List α}
    (h : (a + n ≤ b ∧ b + xs.length ≤ a + S) ∨ (b + xs.length ≤ a ∧ a + n ≤ b + S)) :
    read S (write S buf b xs) a n = read S buf a n := by
  unfold read
  refine List.map_congr_left fun k hk => ?_
  have hk : k < n := List.mem_range.mp hk
  rcases h with ⟨h1, h2⟩ | ⟨h1, h2⟩
  · exact write_before buf (by omega) (by omega)
  · exact write_after buf (by omega) (by omega)

/-! ### The block as the end of a history -/

/-- The block holds the last `S` elements of the history `H`. -/
def Image (S : ℕ) (buf : ℕ → α) (H : List α) : Prop :=
  ∀ x, H.length ≤ x + S → ∀ h : x < H.length, buf (x % S) = H[x]

/-- Writing at the end of the history appends to it. -/
theorem Image.write {S : ℕ} {buf : ℕ → α} {H xs : List α} (hI : Image S buf H)
    (h : xs.length ≤ S) : Image S (write S buf H.length xs) (H ++ xs) := by
  intro x hxS hx
  rw [List.length_append] at hxS hx
  rcases Nat.lt_or_ge x H.length with hlt | hge
  · rw [write_before buf hlt (by omega), hI x (by omega) hlt, List.getElem_append_left]
  · have hS : 0 < S := by omega
    obtain ⟨k, rfl⟩ := Nat.exists_eq_add_of_le hge
    rw [write_apply hS buf _ xs (by omega)]
    simp [show k < xs.length by omega]

/-- A range of the last `S` positions reads as the history has it. -/
theorem Image.read {S : ℕ} {buf : ℕ → α} {H : List α} (hI : Image S buf H) {a n : ℕ}
    (hS : H.length ≤ a + S) (hn : a + n ≤ H.length) : read S buf a n = (H.drop a).take n := by
  apply List.ext_getElem?
  intro k
  rcases Nat.lt_or_ge k n with hk | hk
  · rw [getElem?_read hk, hI (a + k) (by omega) (by omega), List.getElem?_take_of_lt hk,
      List.getElem?_drop, List.getElem?_eq_getElem]
  · rw [List.getElem?_eq_none (by simpa using hk), List.getElem?_eq_none]
    rw [List.length_take]
    omega

/-! ### A block that has not been filled -/

/-- The block holds the elements `l` from its first cell on, and `d` behind them. -/
def Filled (S : ℕ) (d : α) (buf : ℕ → α) (l : List α) : Prop := ∀ x < S, buf x = (l[x]?).getD d

theorem Filled.pad {S : ℕ} {d : α} {buf : ℕ → α} {l : List α} (h : Filled S d buf l) (n : ℕ) :
    Filled S d buf (l ++ List.replicate n d) := by
  intro x hx
  rw [h x hx]
  rcases Nat.lt_or_ge x l.length with hlt | hge
  · rw [List.getElem?_append_left hlt]
  · rw [List.getElem?_append_right hge, List.getElem?_eq_none hge, List.getElem?_replicate]
    split <;> rfl

/-- Writing over elements in the middle replaces them. -/
theorem Filled.overwrite {S : ℕ} {d : α} {buf : ℕ → α} {l xs ys r : List α}
    (h : Filled S d buf (l ++ (ys ++ r))) (hlen : ys.length = xs.length)
    (hfit : (l ++ (xs ++ r)).length ≤ S) :
    Filled S d (Circular.write S buf l.length xs) (l ++ (xs ++ r)) := by
  intro x hx
  have hcell := h x hx
  have hmod : x % S = x := Nat.mod_eq_of_lt hx
  rw [List.length_append, List.length_append] at hfit
  rcases Nat.lt_or_ge x l.length with hlt | hge
  · have hbefore : write S buf l.length xs (x % S) = buf (x % S) := write_before buf hlt (by omega)
    rw [hmod] at hbefore
    rw [hbefore, hcell, List.getElem?_append_left hlt, List.getElem?_append_left hlt]
  rw [List.getElem?_append_right hge] at hcell ⊢
  rcases Nat.lt_or_ge (x - l.length) xs.length with hin | hout
  · have hat := write_apply (show 0 < S by omega) buf l.length xs (show x - l.length < S by omega)
    rw [Nat.add_sub_cancel' hge, hmod] at hat
    rw [hat, List.getElem?_append_left hin, List.getElem?_eq_getElem hin, Option.getD_some, Option.getD_some]
  · have hafter : write S buf l.length xs (x % S) = buf (x % S) := write_after buf (by omega) (by omega)
    rw [hmod] at hafter
    rw [hafter, hcell, List.getElem?_append_right (by omega), List.getElem?_append_right hout, hlen]

theorem Filled.read {S : ℕ} {d : α} {buf : ℕ → α} {l xs r : List α} (h : Filled S d buf (l ++ (xs ++ r)))
    (hfit : l.length + xs.length ≤ S) : read S buf l.length xs.length = xs := by
  apply read_eq_iff.mpr
  intro k hk
  rw [Nat.mod_eq_of_lt (by omega), h _ (by omega), List.getElem?_append_right (Nat.le_add_right _ _),
    Nat.add_sub_cancel_left, List.getElem?_append_left hk, List.getElem?_eq_getElem hk, Option.getD_some]

end Circular
