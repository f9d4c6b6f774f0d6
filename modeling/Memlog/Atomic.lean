/-
# The 64-bit counter

`src/src/lib/atomic.{h,cpp}`: `Atomic64` adds to a 64-bit value with two atomic
steps on its 32-bit halves, a fetch-and-add on the lower one and, when that
carries, an add-and-fetch of 1 on the upper one. On a little-endian machine the
first four bytes of `value_` are the lower half (`bytes_value`).

A single thread that calls `addAndGet` finds the sum in `value_` and is returned it
for exactly the calls that `ReturnsSum` describes (`addAndGet_iff`): an addend is
cut to 32 bits, and without a carry the upper half of what is returned is 0.

With many threads `value_` lacks what the calls under way still have to add, a
carry or the whole addend (`Adders.owed`): a step moves it from the thread to
`value_` (`step_owed`). When no call is under way nothing is missing
(`additions_not_lost`).
-/
import Mathlib.Algebra.BigOperators.Group.Finset.Basic
import Mathlib.Data.Nat.ModEq
import Mathlib.Data.UInt
import Memlog.Lib.Bytes

namespace Memlog

open ByteCodec

/-- The words of `value_`, `*lowPtr` and `*highPtr`. -/
structure Atomic64 where
  lowBit : UInt32
  highBit : UInt32
deriving DecidableEq

/-- Two words as one number, as `atomic64Add` puts its result together. -/
def join (high low : UInt32) : UInt64 := high.toUInt64 <<< 32 ||| low.toUInt64

namespace Atomic64

/-- The number in memory. -/
def value_ (a : Atomic64) : UInt64 := join a.highBit a.lowBit

/-- The constructor. -/
def new (initial : UInt64) : Atomic64 := ⟨initial.toUInt32, (initial >>> 32).toUInt32⟩

/-- `UINT32_MAX - currentLow < n`: the lower word overflows. -/
def carries (currentLow n : UInt32) : Bool := 0xffffffff - currentLow < n

/-- `atomic64Add`: what is returned, and the words after the call. -/
def atomic64Add (n : UInt32) (a : Atomic64) : UInt64 × Atomic64 :=
  let currentLow := a.lowBit
  let a := { a with lowBit := a.lowBit + n }
  if carries currentLow n then
    let a := { a with highBit := a.highBit + 1 }
    let current_high := a.highBit
    (join current_high ((currentLow + n) &&& 0xffffffff), a)
  else
    let current_high := 0
    (join current_high ((currentLow + n) &&& 0xffffffff), a)

/-- `addAndGet`: the addend becomes a `uint32_t`. -/
def addAndGet (add : UInt64) (a : Atomic64) : UInt64 × Atomic64 := a.atomic64Add add.toUInt32

end Atomic64

theorem join_toNat (high low : UInt32) : (join high low).toNat = high.toNat * 4294967296 + low.toNat := by
  have hhigh := high.toNat_lt
  have hlow := low.toNat_lt
  unfold join
  rw [UInt64.toNat_or, UInt64.toNat_shiftLeft, UInt32.toNat_toUInt64, UInt32.toNat_toUInt64]
  have h32 : (32 : UInt64).toNat % 64 = 32 := rfl
  have hfits : high.toNat <<< 32 < 2 ^ 64 := by
    rw [Nat.shiftLeft_eq]
    omega
  rw [h32, Nat.mod_eq_of_lt hfits, ← Nat.shiftLeft_add_eq_or_of_lt (by omega), Nat.shiftLeft_eq]

namespace Atomic64

variable (a : Atomic64)

theorem value_toNat : a.value_.toNat = a.highBit.toNat * 4294967296 + a.lowBit.toNat := join_toNat ..

theorem new_value (initial : UInt64) : (new initial).value_ = initial := by
  have hlt := initial.toNat_lt
  rw [← UInt64.toNat_inj, value_toNat, new, UInt64.toNat_toUInt32, UInt64.toNat_toUInt32,
    UInt64.toNat_shiftRight]
  have h32 : (32 : UInt64).toNat % 64 = 32 := rfl
  rw [h32, Nat.shiftRight_eq_div_pow]
  omega

theorem bytes_value : leBytes 8 a.value_.toNat = leBytes 4 a.lowBit.toNat ++ leBytes 4 a.highBit.toNat := by
  have hlow := a.lowBit.toNat_lt
  have hmod : a.value_.toNat % 256 ^ 4 = a.lowBit.toNat := by
    rw [value_toNat]
    omega
  have hdiv : a.value_.toNat / 256 ^ 4 = a.highBit.toNat := by
    rw [value_toNat]
    omega
  rw [leBytes_add 4 4, ← leBytes_mod, hmod, hdiv]

theorem carries_iff (currentLow n : UInt32) :
    carries currentLow n = true ↔ 4294967296 ≤ currentLow.toNat + n.toNat := by
  have hlow := currentLow.toNat_lt
  have hn := n.toNat_lt
  have hmax : (0xffffffff : UInt32).toNat = 4294967295 := rfl
  rw [carries, decide_eq_true_iff, UInt32.lt_iff_toNat_lt, UInt32.toNat_sub, hmax]
  omega

/-- The fetch-and-add on the lower word adds `n`, but for the carry. -/
theorem add_low (n : UInt32) :
    (value_ ⟨a.lowBit + n, a.highBit⟩).toNat + (if carries a.lowBit n then 4294967296 else 0) =
      a.value_.toNat + n.toNat := by
  have hlow := a.lowBit.toNat_lt
  have hn := n.toNat_lt
  simp only [value_toNat, UInt32.toNat_add, carries_iff]
  split_ifs <;> omega

/-- The add-and-fetch on the upper word adds the carry. -/
theorem add_high :
    (value_ ⟨a.lowBit, a.highBit + 1⟩).toNat = (a.value_.toNat + 4294967296) % 18446744073709551616 := by
  have hlow := a.lowBit.toNat_lt
  have hhigh := a.highBit.toNat_lt
  simp only [value_toNat, UInt32.toNat_add, UInt32.toNat_one]
  omega

theorem and_max (x : UInt32) : x &&& 0xffffffff = x := by
  have hx := x.toNat_lt
  rw [← UInt32.toNat_inj, UInt32.toNat_and]
  exact (Nat.and_two_pow_sub_one_eq_mod x.toNat 32).trans (Nat.mod_eq_of_lt hx)

theorem addAndGet_of_carries {add : UInt64} (h : carries a.lowBit add.toUInt32 = true) :
    a.addAndGet add =
      (value_ ⟨a.lowBit + add.toUInt32, a.highBit + 1⟩, ⟨a.lowBit + add.toUInt32, a.highBit + 1⟩) := by
  unfold addAndGet atomic64Add
  rw [if_pos h, and_max]
  rfl

theorem addAndGet_of_not_carries {add : UInt64} (h : ¬ carries a.lowBit add.toUInt32 = true) :
    a.addAndGet add = (join 0 (a.lowBit + add.toUInt32), ⟨a.lowBit + add.toUInt32, a.highBit⟩) := by
  unfold addAndGet atomic64Add
  rw [if_neg h, and_max]

/-- What a call leaves in `value_`. -/
theorem addAndGet_value (add : UInt64) :
    (a.addAndGet add).2.value_.toNat = (a.value_.toNat + add.toNat % 4294967296) % 18446744073709551616 := by
  have hlow := a.add_low add.toUInt32
  rw [UInt64.toNat_toUInt32] at hlow
  by_cases hcarry : carries a.lowBit add.toUInt32 = true
  · rw [if_pos hcarry] at hlow
    rw [addAndGet_of_carries a hcarry, add_high ⟨a.lowBit + add.toUInt32, a.highBit⟩, hlow]
  · have hlt := (value_ ⟨a.lowBit + add.toUInt32, a.highBit⟩).toNat_lt
    rw [if_neg hcarry] at hlow
    rw [addAndGet_of_not_carries a hcarry]
    dsimp only
    omega

/-! ### One thread -/

/-- The calls of `addAndGet` of a single thread: what each returns, and the counter
after it. -/
def calls : Atomic64 → List UInt64 → List (UInt64 × Atomic64)
  | _, [] => []
  | a, add :: adds => a.addAndGet add :: calls (a.addAndGet add).2 adds

/-- Every call returns the sum of the value at the start and the addends so far, and
leaves it in `value_`. -/
def Sums (a : Atomic64) (adds : List UInt64) : Prop :=
  ∀ k r, (a.calls adds)[k]? = some r → r.1 = a.value_ + (adds.take (k + 1)).sum ∧ r.2.value_ = r.1

/-- A call that is returned the sum: the addend has 32 bits, and so has the value
unless the lower word overflows. -/
def ReturnsSum (value add : UInt64) : Prop :=
  add.toNat < 4294967296 ∧
    (value.toNat < 4294967296 ∨ 4294967296 ≤ value.toNat % 4294967296 + add.toNat)

theorem returnsSum_iff (add : UInt64) :
    ((a.addAndGet add).1 = a.value_ + add ∧ (a.addAndGet add).2.value_ = (a.addAndGet add).1) ↔
      ReturnsSum a.value_ add := by
  have hadd := add.toNat_lt
  have hlow := a.lowBit.toNat_lt
  have hhigh := a.highBit.toNat_lt
  have hvalue := a.addAndGet_value add
  have hwords := a.value_toNat
  have hcarries := carries_iff a.lowBit add.toUInt32
  rw [UInt64.toNat_toUInt32] at hcarries
  simp only [ReturnsSum, ← UInt64.toNat_inj, UInt64.toNat_add]
  by_cases hcarry : carries a.lowBit add.toUInt32 = true
  · have hreturned : (a.addAndGet add).1 = (a.addAndGet add).2.value_ := by rw [addAndGet_of_carries a hcarry]
    rw [hreturned, hvalue]
    have hover := hcarries.mp hcarry
    omega
  · have hreturned : (a.addAndGet add).1.toNat = (a.lowBit.toNat + add.toNat % 4294967296) % 4294967296 := by
      rw [addAndGet_of_not_carries a hcarry, join_toNat, UInt32.toNat_add, UInt64.toNat_toUInt32,
        UInt32.toNat_zero]
      omega
    have hunder := mt hcarries.mpr hcarry
    rw [hreturned, hvalue]
    omega

/-- The sum on from the value that a call left, if it was returned the sum. -/
theorem value_add_sum {add : UInt64} (hcall : ReturnsSum a.value_ add) (adds : List UInt64) (k : ℕ) :
    a.value_ + ((add :: adds).take (k + 1)).sum = (a.addAndGet add).2.value_ + (adds.take k).sum := by
  obtain ⟨hreturned, hvalue⟩ := (a.returnsSum_iff add).mpr hcall
  rw [List.take_succ_cons, List.sum_cons, ← UInt64.add_assoc, ← hreturned, ← hvalue]

theorem sums_cons (add : UInt64) (adds : List UInt64) : a.Sums (add :: adds) ↔
    ReturnsSum a.value_ add ∧ (a.addAndGet add).2.Sums adds := by
  have hfirst : ((add :: adds).take 1).sum = add := by simp
  constructor
  · intro h
    obtain ⟨hreturned, hvalue⟩ := h 0 (a.addAndGet add) rfl
    rw [Nat.zero_add, hfirst] at hreturned
    have hcall : ReturnsSum a.value_ add := (a.returnsSum_iff add).mp ⟨hreturned, hvalue⟩
    refine ⟨hcall, fun k r hk => ?_⟩
    have hrest := h (k + 1) r hk
    rwa [a.value_add_sum hcall adds] at hrest
  · rintro ⟨hcall, hrest⟩ k r hk
    cases k with
    | zero =>
      obtain rfl := Option.some.inj hk
      rw [Nat.zero_add, hfirst]
      exact (a.returnsSum_iff add).mpr hcall
    | succ k =>
      rw [a.value_add_sum hcall adds]
      exact hrest k r hk

theorem sums_iff (adds : List UInt64) : a.Sums adds ↔
    ∀ k add, adds[k]? = some add → ReturnsSum (a.value_ + (adds.take k).sum) add := by
  induction adds generalizing a with
  | nil => simp [Sums, calls]
  | cons add adds ih =>
    rw [sums_cons, ih]
    constructor
    · rintro ⟨hcall, hrest⟩ k add' hk
      cases k with
      | zero =>
        obtain rfl := Option.some.inj hk
        rwa [List.take_zero, List.sum_nil, UInt64.add_zero]
      | succ k =>
        rw [a.value_add_sum hcall adds]
        exact hrest k add' hk
    · intro h
      have hcall := h 0 add rfl
      rw [List.take_zero, List.sum_nil, UInt64.add_zero] at hcall
      refine ⟨hcall, fun k add' hk => ?_⟩
      have hrest := h (k + 1) add' hk
      rwa [a.value_add_sum hcall adds] at hrest

/-- **A single thread.** Every call returns the sum and leaves it in `value_` if and only
if each is a call that is returned the sum. -/
theorem addAndGet_iff (initial : UInt64) (adds : List UInt64) : (new initial).Sums adds ↔
    ∀ k add, adds[k]? = some add → ReturnsSum (initial + (adds.take k).sum) add := by
  rw [sums_iff, new_value]

/-- The upper half of the value is not returned where nothing carries. -/
theorem addAndGet_drops_upper : ¬ (new 4294967296).Sums [1] := by
  intro h
  have hreturned := (h 0 ((new 4294967296).addAndGet 1) rfl).1
  exact absurd hreturned (by decide)

end Atomic64

/-! ### Many threads -/

/-- Where a thread stands in `addAndGet`, with its variables. -/
inductive AddPc where
  | idle
  | fetch (n : UInt32)
  | carry (n currentLow : UInt32)
deriving DecidableEq

/-- What the call of a thread still has to add to `value_`. -/
def AddPc.owed : AddPc → ℕ
  | .idle => 0
  | .fetch n => n.toNat
  | .carry _ _ => 4294967296

/-- The counter, where each thread stands, and what was returned to it last. -/
structure Adders (T : Type) where
  counter : Atomic64
  pc : T → AddPc
  returned : T → UInt64

namespace Adders

open Atomic64

variable {T : Type} [DecidableEq T]

def goto (s : Adders T) (t : T) (p : AddPc) : Adders T := { s with pc := Function.update s.pc t p }

/-- Thread `t` returns from its call. -/
def ret (s : Adders T) (t : T) (result : UInt64) : Adders T :=
  { s.goto t .idle with returned := Function.update s.returned t result }

/-- An atomic step of thread `t` in `addAndGet`. -/
def step (t : T) (s : Adders T) : Adders T :=
  match s.pc t with
  | .idle => s
  | .fetch n =>
    let currentLow := s.counter.lowBit
    let s := { s with counter.lowBit := s.counter.lowBit + n }
    if carries currentLow n then s.goto t (.carry n currentLow)
    else s.ret t (join 0 ((currentLow + n) &&& 0xffffffff))
  | .carry n currentLow =>
    let s := { s with counter.highBit := s.counter.highBit + 1 }
    s.ret t (join s.counter.highBit ((currentLow + n) &&& 0xffffffff))

/-- No thread has called `addAndGet` yet. -/
def start (initial : UInt64) : Adders T := ⟨.new initial, fun _ => .idle, fun _ => 0⟩

/-- Runs of threads that call `addAndGet`, in any interleaving of their steps, with the
addends of the calls that were made. -/
inductive Run (initial : UInt64) : Adders T → List UInt64 → Prop
  | start : Run initial (start initial) []
  | call {s adds t} (add : UInt64) : Run initial s adds → s.pc t = .idle →
      Run initial (s.goto t (.fetch add.toUInt32)) (adds ++ [add])
  | step {s adds} (t) : Run initial s adds → Run initial (s.step t) adds

variable {s : Adders T} {t : T}

@[simp] theorem goto_pc (p : AddPc) : (s.goto t p).pc t = p := Function.update_self ..

theorem goto_pc_of_ne {t' : T} (h : t' ≠ t) (p : AddPc) : (s.goto t p).pc t' = s.pc t' :=
  Function.update_of_ne h ..

@[simp] theorem goto_counter (p : AddPc) : (s.goto t p).counter = s.counter := rfl

@[simp] theorem ret_pc (result : UInt64) : (s.ret t result).pc t = .idle := Function.update_self ..

theorem ret_pc_of_ne {t' : T} (h : t' ≠ t) (result : UInt64) : (s.ret t result).pc t' = s.pc t' :=
  Function.update_of_ne h ..

@[simp] theorem ret_counter (result : UInt64) : (s.ret t result).counter = s.counter := rfl

@[simp] theorem ret_returned (result : UInt64) : (s.ret t result).returned t = result :=
  Function.update_self ..

/-! ### What one step does -/

theorem step_idle (h : s.pc t = .idle) : s.step t = s := by simp only [step, h]

theorem step_fetch_carry {n : UInt32} (h : s.pc t = .fetch n) (hcarry : carries s.counter.lowBit n = true) :
    s.step t = { s with counter.lowBit := s.counter.lowBit + n }.goto t (.carry n s.counter.lowBit) := by
  simp only [step, h]
  rw [if_pos hcarry]

theorem step_fetch_ret {n : UInt32} (h : s.pc t = .fetch n) (hcarry : ¬ carries s.counter.lowBit n = true) :
    s.step t = { s with counter.lowBit := s.counter.lowBit + n }.ret t (join 0 (s.counter.lowBit + n)) := by
  simp only [step, h]
  rw [if_neg hcarry, and_max]

theorem step_carry {n currentLow : UInt32} (h : s.pc t = .carry n currentLow) :
    s.step t = { s with counter.highBit := s.counter.highBit + 1 }.ret t
      (join (s.counter.highBit + 1) (currentLow + n)) := by
  simp only [step, h]
  rw [and_max]

/-- **A call without interference** is `Atomic64.addAndGet`. -/
theorem solo_addAndGet (s : Adders T) (t : T) (add : UInt64) :
    ∃ k, let s' := (step t)^[k] (s.goto t (.fetch add.toUInt32))
      s'.pc t = .idle ∧ s'.counter = (s.counter.addAndGet add).2 ∧
        s'.returned t = (s.counter.addAndGet add).1 := by
  by_cases hcarry : carries s.counter.lowBit add.toUInt32 = true
  · refine ⟨2, ?_⟩
    rw [Function.iterate_succ_apply, Function.iterate_one, step_fetch_carry (goto_pc _) hcarry,
      step_carry (goto_pc _), addAndGet_of_carries _ hcarry]
    exact ⟨ret_pc _, rfl, ret_returned _⟩
  · refine ⟨1, ?_⟩
    rw [Function.iterate_one, step_fetch_ret (goto_pc _) hcarry, addAndGet_of_not_carries _ hcarry]
    exact ⟨ret_pc _, rfl, ret_returned _⟩

theorem step_pc_of_ne {t' : T} (ht : t' ≠ t) : (s.step t).pc t' = s.pc t' := by
  cases h : s.pc t with
  | idle => rw [step_idle h]
  | fetch n =>
    by_cases hcarry : carries s.counter.lowBit n = true
    · rw [step_fetch_carry h hcarry, goto_pc_of_ne ht]
    · rw [step_fetch_ret h hcarry, ret_pc_of_ne ht]
  | carry n currentLow => rw [step_carry h, ret_pc_of_ne ht]

/-- A step moves what is owed to `value_`. -/
theorem step_owed (s : Adders T) (t : T) :
    (s.step t).counter.value_.toNat + ((s.step t).pc t).owed ≡
      s.counter.value_.toNat + (s.pc t).owed [MOD 18446744073709551616] := by
  cases h : s.pc t with
  | idle => rw [step_idle h, h]
  | fetch n =>
    have hlow := s.counter.add_low n
    by_cases hcarry : carries s.counter.lowBit n = true
    · rw [if_pos hcarry] at hlow
      rw [step_fetch_carry h hcarry, goto_pc, goto_counter, AddPc.owed, AddPc.owed, hlow]
    · rw [if_neg hcarry] at hlow
      rw [step_fetch_ret h hcarry, ret_pc, ret_counter, AddPc.owed, AddPc.owed, hlow]
  | carry n currentLow =>
    rw [step_carry h, ret_pc, ret_counter, AddPc.owed, AddPc.owed, Nat.add_zero, s.counter.add_high]
    exact Nat.mod_modEq _ _

/-! ### What is owed together -/

section Owed

variable {F : Finset T}

/-- When one thread moves, what is owed changes by what this thread owes. -/
theorem sum_owed_move (s' : Adders T) (hidle : ∀ t ∉ F, s.pc t = .idle) (hne : ∀ t' ≠ t, s'.pc t' = s.pc t') :
    ∑ x ∈ insert t F, (s'.pc x).owed + (s.pc t).owed = ∑ x ∈ F, (s.pc x).owed + (s'.pc t).owed := by
  have hF : ∑ x ∈ insert t F, (s.pc x).owed = ∑ x ∈ F, (s.pc x).owed :=
    Finset.sum_insert_of_eq_zero_if_notMem fun ht => by rw [hidle t ht, AddPc.owed]
  have hrest : ∑ x ∈ (insert t F).erase t, (s'.pc x).owed = ∑ x ∈ (insert t F).erase t, (s.pc x).owed :=
    Finset.sum_congr rfl fun x hx => by rw [hne x (Finset.ne_of_mem_erase hx)]
  have hs := Finset.add_sum_erase (insert t F) (fun x => (s.pc x).owed) (Finset.mem_insert_self t F)
  have hs' := Finset.add_sum_erase (insert t F) (fun x => (s'.pc x).owed) (Finset.mem_insert_self t F)
  simp only [hrest] at hs'
  omega

end Owed

/-- The value, with what the calls under way owe, is the initial value and the addends
of all calls, each cut to 32 bits. -/
def Conserved (initial : UInt64) (s : Adders T) (adds : List UInt64) : Prop :=
  ∃ F : Finset T, (∀ t ∉ F, s.pc t = .idle) ∧
    s.counter.value_.toNat + ∑ t ∈ F, (s.pc t).owed ≡
      initial.toNat + (adds.map fun add => add.toNat % 4294967296).sum [MOD 18446744073709551616]

namespace Conserved

variable {initial : UInt64} {adds : List UInt64}

omit [DecidableEq T] in
theorem start (initial : UInt64) : Conserved initial (start initial : Adders T) [] := by
  refine ⟨∅, fun t _ => rfl, ?_⟩
  rw [Adders.start, new_value]
  exact Nat.ModEq.refl _

theorem call (h : Conserved initial s adds) (ht : s.pc t = .idle) (add : UInt64) :
    Conserved initial (s.goto t (.fetch add.toUInt32)) (adds ++ [add]) := by
  obtain ⟨F, hidle, hsum⟩ := h
  refine ⟨insert t F, fun t' ht' => ?_, ?_⟩
  · obtain ⟨hne, hF⟩ := not_or.mp (mt Finset.mem_insert.mpr ht')
    rw [goto_pc_of_ne hne, hidle t' hF]
  · have hmove := sum_owed_move (s.goto t (.fetch add.toUInt32)) hidle fun t' ht' => goto_pc_of_ne ht' _
    rw [ht, goto_pc, AddPc.owed, AddPc.owed, Nat.add_zero, UInt64.toNat_toUInt32] at hmove
    rw [hmove, goto_counter, List.map_append, List.sum_append, List.map_singleton, List.sum_singleton,
      ← Nat.add_assoc, ← Nat.add_assoc]
    exact hsum.add_right _

theorem step (h : Conserved initial s adds) (t : T) : Conserved initial (s.step t) adds := by
  obtain ⟨F, hidle, hsum⟩ := h
  refine ⟨insert t F, fun t' ht' => ?_, ?_⟩
  · obtain ⟨hne, hF⟩ := not_or.mp (mt Finset.mem_insert.mpr ht')
    rw [step_pc_of_ne hne, hidle t' hF]
  · have hmove := sum_owed_move (s.step t) hidle fun t' ht' => step_pc_of_ne ht'
    refine Nat.ModEq.trans (Nat.ModEq.add_right_cancel' (s.pc t).owed ?_) hsum
    calc (s.step t).counter.value_.toNat + ∑ x ∈ insert t F, ((s.step t).pc x).owed + (s.pc t).owed
        = (s.step t).counter.value_.toNat + ((s.step t).pc t).owed + ∑ x ∈ F, (s.pc x).owed := by omega
      _ ≡ s.counter.value_.toNat + (s.pc t).owed + ∑ x ∈ F, (s.pc x).owed [MOD 18446744073709551616] :=
        (step_owed s t).add_right _
      _ = s.counter.value_.toNat + ∑ x ∈ F, (s.pc x).owed + (s.pc t).owed := by omega

end Conserved

theorem Run.conserved {initial : UInt64} {adds : List UInt64} (h : Run initial s adds) :
    Conserved initial s adds := by
  induction h with
  | start => exact .start initial
  | call add _ ht ih => exact ih.call ht add
  | step t _ ih => exact ih.step t

theorem sum_toNat (adds : List UInt64) : adds.sum.toNat =
    (adds.map UInt64.toNat).sum % 18446744073709551616 := by
  induction adds with
  | nil => rfl
  | cons add adds ih =>
    rw [List.sum_cons, UInt64.toNat_add, ih, List.map_cons, List.sum_cons]
    omega

/-- **No addition is lost.** When no call is under way, `value_` is the initial value plus
all addends. -/
theorem additions_not_lost (initial : UInt64) (s : Adders T) (adds : List UInt64) (hrun : Run initial s adds)
    (hadds : ∀ add ∈ adds, add < 4294967296) (hidle : ∀ t, s.pc t = .idle) :
    s.counter.value_ = initial + adds.sum := by
  obtain ⟨F, -, hsum⟩ := hrun.conserved
  have howed : ∑ t ∈ F, (s.pc t).owed = 0 := Finset.sum_eq_zero fun t _ => by rw [hidle t, AddPc.owed]
  have hcut : (adds.map fun add => add.toNat % 4294967296) = adds.map UInt64.toNat :=
    List.map_congr_left fun add h => Nat.mod_eq_of_lt (hadds add h)
  rw [howed, hcut] at hsum
  rw [← UInt64.toNat_inj, UInt64.toNat_add, sum_toNat]
  have hlt := s.counter.value_.toNat_lt
  unfold Nat.ModEq at hsum
  omega

/-- Two threads: the carry of the first one is under way while the second one adds. -/
theorem additions_not_lost_example : ∃ s : Adders Bool, Run 4294967295 s [1, 2] ∧
    s.counter.value_ = 4294967295 + [1, 2].sum := by
  let pending := ((start 4294967295 : Adders Bool).goto true (.fetch 1)).step true
  let s := ((pending.goto false (.fetch 2)).step false).step true
  have hrun : Run 4294967295 s [1, 2] :=
    .step true (.step false (.call 2 (.step true (.call 1 .start rfl)) (by decide)))
  exact ⟨s, hrun, additions_not_lost 4294967295 s [1, 2] hrun (by simp) (by decide)⟩

end Adders
end Memlog
