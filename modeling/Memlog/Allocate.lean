/-
# Allocation by many threads

The thread-safe branch of `allocate` in its atomic steps: the loads of the index,
the compare-and-swap that reduces it, and the fetch-and-add that hands it out.
Between them any other thread may run. Alone, a thread does what
`RingBuffer.allocate` does (`solo_allocate`).

A fetch-and-add reserves the bytes from the index on. One reservation starts
where the one before ended, modulo the size, unless the index passed 2^32 in
between, which the size need not divide (`allocate_contiguous`). The test for
this leaves a margin of 10240 bytes, so two threads are safe
(`two_threads_contiguous`), but three can all pass it and add 4096 each.

Key definitions: `Pc`, `Threads`, `Threads.step`, `Threads.Run`, `Contiguous`.
-/
import Mathlib.Data.Fintype.Card
import Mathlib.Data.List.Chain
import Mathlib.Data.Nat.ModEq
import Memlog.RingBuffer

namespace Memlog

/-- Where a thread stands in `allocate`, with its variables. -/
inductive Pc where
  | idle
  | test (bufferLen : ℕ)
  | count (bufferLen : ℕ)
  | loop (bufferLen new_wrap_count : ℕ)
  | load (bufferLen new_wrap_count : ℕ)
  | cas (bufferLen new_wrap_count currentIndex : ℕ)
  | store (bufferLen new_wrap_count : ℕ)
  | add (bufferLen : ℕ)
deriving DecidableEq

/-- The length that the thread was called with. -/
def Pc.bufferLen : Pc → ℕ
  | .idle => 0
  | .test n | .count n | .loop n _ | .load n _ | .cas n _ _ | .store n _ | .add n => n

/-- The bytes that a fetch-and-add handed out. -/
structure Reservation where
  location : ℕ
  length : ℕ
deriving DecidableEq

/-- What the threads share, where each of them stands, and what was handed out, in
the order of the fetch-and-adds. -/
structure Threads (T : Type) where
  currentIndex : ℕ
  indexWrapAroundCount : ℕ
  pc : T → Pc
  reserved : List Reservation

namespace Threads

variable {T : Type} [DecidableEq T]

def goto (s : Threads T) (t : T) (p : Pc) : Threads T := { s with pc := Function.update s.pc t p }

/-- An atomic step of thread `t` in `allocate`. -/
def step (size : ℕ) (t : T) (s : Threads T) : Threads T :=
  match s.pc t with
  | .idle => s
  | .test n => s.goto t (if RingBuffer.isIndexRollingOver s.currentIndex then .count n else .add n)
  | .count n => s.goto t (.loop n (u32 (s.indexWrapAroundCount + 1)))
  | .loop n c => s.goto t (if RingBuffer.isIndexRollingOver s.currentIndex then .load n c else .add n)
  | .load n c => s.goto t (.cas n c s.currentIndex)
  | .cas n c currentIndex =>
    if s.currentIndex = currentIndex then
      { s.goto t (.store n c) with currentIndex := currentIndex % size }
    else s.goto t (.loop n c)
  -- the loop ends, whatever its first condition loads
  | .store n c => { s.goto t (.add n) with indexWrapAroundCount := c }
  | .add n =>
    { s.goto t .idle with
      currentIndex := u32 (s.currentIndex + n)
      reserved := s.reserved ++ [⟨s.currentIndex, n⟩] }

/-- No thread has called `allocate` yet. -/
def start (index count : ℕ) : Threads T := ⟨index, count, fun _ => .idle, []⟩

/-- Runs of threads that call `allocate` with lengths from 1 to 4096, in any
interleaving of their steps. -/
inductive Run (size index count : ℕ) : Threads T → Prop
  | start : Run size index count (start index count)
  | call {s t n} : Run size index count s → s.pc t = .idle → 0 < n → n ≤ 4096 →
      Run size index count (s.goto t (.test n))
  | step {s} (t) : Run size index count s → Run size index count (s.step size t)

/-! ### One thread alone -/

@[simp] theorem goto_pc (s : Threads T) (t : T) (p : Pc) : (s.goto t p).pc t = p := Function.update_self ..

theorem goto_pc_of_ne (s : Threads T) {t t' : T} (h : t' ≠ t) (p : Pc) : (s.goto t p).pc t' = s.pc t' :=
  Function.update_of_ne h ..

@[simp] theorem goto_currentIndex (s : Threads T) (t : T) (p : Pc) :
    (s.goto t p).currentIndex = s.currentIndex := rfl

@[simp] theorem goto_indexWrapAroundCount (s : Threads T) (t : T) (p : Pc) :
    (s.goto t p).indexWrapAroundCount = s.indexWrapAroundCount := rfl

@[simp] theorem goto_reserved (s : Threads T) (t : T) (p : Pc) : (s.goto t p).reserved = s.reserved := rfl

/-- **A call without interference** is `RingBuffer.allocate`. -/
theorem solo_allocate (rb : RingBuffer) (t : T) (s : Threads T) (n : ℕ)
    (hindex : s.currentIndex = rb.currentIndex) (hcount : s.indexWrapAroundCount = rb.indexWrapAroundCount) :
    ∃ k, let s' := (step rb.size t)^[k] (s.goto t (.test n))
      s'.pc t = .idle ∧ s'.currentIndex = (rb.allocate n).2.currentIndex ∧
        s'.indexWrapAroundCount = (rb.allocate n).2.indexWrapAroundCount ∧
        s'.reserved = s.reserved ++ [⟨(rb.allocate n).1, n⟩] := by
  by_cases hroll : RingBuffer.isIndexRollingOver rb.currentIndex = true
  · -- test, count, loop, load, cas, store, add
    refine ⟨7, ?_⟩
    simp [step, hindex, hcount, hroll, RingBuffer.allocate, RingBuffer.rollOver, RingBuffer.advance,
      RingBuffer.normalize]
  · refine ⟨2, ?_⟩
    simp [step, hindex, hcount, hroll, RingBuffer.allocate, RingBuffer.rollOver, RingBuffer.advance]

end Threads

/-! ### One reservation behind the other -/

/-- Every reservation starts, modulo the size, where the one before ended. -/
def Contiguous (S : ℕ) (rs : List Reservation) : Prop :=
  rs.IsChain fun r r' => r'.location % S = (r.location + r.length) % S

/-- The bytes of reservations together. -/
def total (rs : List Reservation) : ℕ := (rs.map Reservation.length).sum

/-- No two reservations inside a window of at most `S` bytes share a cell. -/
def NoOverlap (S : ℕ) (rs : List Reservation) : Prop :=
  ∀ pre r mid r' post, rs = pre ++ r :: (mid ++ r' :: post) → r.length + total mid + r'.length ≤ S →
    ∀ i < r.length, ∀ j < r'.length, (r.location + i) % S ≠ (r'.location + j) % S

section Contiguous

variable {S : ℕ} {rs mid : List Reservation} {r r' : Reservation}

/-- In contiguous reservations a later one starts behind all before it. -/
theorem Contiguous.location (h : Contiguous S (r :: (mid ++ [r']))) :
    r'.location % S = (r.location + (r.length + total mid)) % S := by
  induction mid generalizing r with
  | nil => exact (List.isChain_cons_cons.mp h).1
  | cons m mid ih =>
    obtain ⟨hrm, hrest⟩ := List.isChain_cons_cons.mp h
    have hm := ih hrest
    have htotal : total (m :: mid) = m.length + total mid := by simp [total]
    rw [hm, Nat.add_mod m.location, hrm, ← Nat.add_mod, htotal, Nat.add_assoc]

theorem Contiguous.noOverlap (h : Contiguous S rs) : NoOverlap S rs := by
  rintro pre r mid r' post rfl hfit i hi j hj
  have hwindow : Contiguous S (r :: (mid ++ [r'])) := by
    have hsplit : pre ++ r :: (mid ++ r' :: post) = pre ++ ((r :: (mid ++ [r'])) ++ post) := by simp
    rw [hsplit] at h
    exact h.right_of_append.left_of_append
  have hloc := hwindow.location
  rw [Nat.add_mod r'.location, hloc, ← Nat.add_mod, Nat.add_assoc r.location]
  exact Circular.mod_ne_of_lt (by omega) (by omega)

/-- A chain is a chain of other links too if each of its links is. -/
theorem chain_iff {α : Type} {R R' : α → α → Prop} {P : α → Prop} :
    ∀ {l : List α}, l.IsChain R → (∀ a ∈ l, ∀ b, R a b → (R' a b ↔ P a)) →
      (l.IsChain R' ↔ ∀ a ∈ l.dropLast, P a)
  | [], _, _ => by simp
  | [a], _, _ => by simp
  | a :: b :: l, h, hiff => by
    obtain ⟨hab, hl⟩ := List.isChain_cons_cons.mp h
    rw [List.isChain_cons_cons, hiff a List.mem_cons_self b hab,
      chain_iff hl fun x hx => hiff x (List.mem_cons_of_mem a hx), List.dropLast_cons_cons,
        List.forall_mem_cons]

end Contiguous

/-! ### What the fetch-and-adds leave -/

namespace Threads

variable {T : Type} [DecidableEq T] {S index count : ℕ} {s : Threads T}

/-- The reservation `r'` was handed out after `r`: it starts, modulo the size, at the
index that `r` left. -/
def After (S : ℕ) (r r' : Reservation) : Prop := r'.location % S = u32 (r.location + r.length) % S

/-- What holds in every run: the index follows the last reservation, as each of them
follows the one before. -/
structure Inv (S : ℕ) (s : Threads T) : Prop where
  index_lt : s.currentIndex < 4294967296
  chain : List.IsChain (After S) (s.reserved ++ [⟨s.currentIndex, 0⟩])
  bound : ∀ r ∈ s.reserved, r.location + r.length < 4294967296 + 4097
  len_le : ∀ t, (s.pc t).bufferLen ≤ 4096

omit [DecidableEq T] in
theorem Inv.start (hindex : index < 4294967296) : Inv S (start index count : Threads T) where
  index_lt := hindex
  chain := .singleton _
  bound := by simp [Threads.start]
  len_le t := Nat.zero_le _

theorem Inv.goto (h : Inv S s) (t : T) {p : Pc} (hp : p.bufferLen ≤ 4096) : Inv S (s.goto t p) := by
  refine ⟨h.index_lt, h.chain, h.bound, fun t' => ?_⟩
  by_cases ht : t' = t
  · rw [ht, goto_pc]
    exact hp
  · rw [goto_pc_of_ne s ht]
    exact h.len_le t'

omit [DecidableEq T] in
theorem Inv.reduce (h : Inv S s) : Inv S { s with currentIndex := s.currentIndex % S } := by
  refine ⟨(Nat.mod_le _ _).trans_lt h.index_lt, ?_, h.bound, h.len_le⟩
  obtain ⟨hchain, -, hlast⟩ := List.isChain_append.mp h.chain
  refine List.isChain_append.mpr ⟨hchain, .singleton _, fun r hr r' hr' => ?_⟩
  obtain rfl : r' = ⟨s.currentIndex % S, 0⟩ := by simpa using hr'.symm
  exact (Nat.mod_mod _ _).trans (hlast r hr ⟨s.currentIndex, 0⟩ rfl)

omit [DecidableEq T] in
theorem Inv.reserve (h : Inv S s) {n : ℕ} (hn : n ≤ 4096) :
    Inv S { s with
      currentIndex := u32 (s.currentIndex + n)
      reserved := s.reserved ++ [⟨s.currentIndex, n⟩] } := by
  have hlt := h.index_lt
  obtain ⟨hchain, -, hlast⟩ := List.isChain_append.mp h.chain
  refine ⟨u32_lt _, List.isChain_append.mpr ⟨?_, .singleton _, ?_⟩, fun r hr => ?_, h.len_le⟩
  · refine List.isChain_append.mpr ⟨hchain, .singleton _, fun r hr r' hr' => ?_⟩
    obtain rfl : r' = ⟨s.currentIndex, n⟩ := by simpa using hr'.symm
    exact hlast r hr ⟨s.currentIndex, 0⟩ rfl
  · intro r hr r' hr'
    obtain rfl : r = ⟨s.currentIndex, n⟩ := by simpa using hr.symm
    obtain rfl : r' = ⟨u32 (s.currentIndex + n), 0⟩ := by simpa using hr'.symm
    rfl
  · rcases List.mem_append.mp hr with hr | hr
    · exact h.bound r hr
    · rw [List.mem_singleton.mp hr]
      simp only
      omega

theorem Inv.step (h : Inv S s) (t : T) : Inv S (s.step S t) := by
  have hlen := h.len_le t
  unfold Threads.step
  cases hpc : s.pc t with
  | idle => exact h
  | test n =>
    rw [hpc] at hlen
    refine h.goto t ?_
    split <;> exact hlen
  | count n =>
    rw [hpc] at hlen
    exact h.goto t hlen
  | loop n c =>
    rw [hpc] at hlen
    refine h.goto t ?_
    split <;> exact hlen
  | load n c =>
    rw [hpc] at hlen
    exact h.goto t hlen
  | cas n c seen =>
    rw [hpc] at hlen
    by_cases heq : s.currentIndex = seen
    · simp only [← heq]
      exact (h.goto t (p := .store n c) hlen).reduce
    · simp only [if_neg heq]
      exact h.goto t hlen
  | store n c =>
    rw [hpc] at hlen
    have h' := h.goto t (p := .add n) hlen
    exact ⟨h'.index_lt, h'.chain, h'.bound, h'.len_le⟩
  | add n =>
    rw [hpc] at hlen
    exact (h.goto t (p := .idle) (Nat.zero_le _)).reserve hlen

theorem Run.inv (hrun : Run S index count s) (hindex : index < 4294967296) : Inv S s := by
  induction hrun with
  | start => exact Inv.start hindex
  | call hrun hidle hpos hle ih => exact ih.goto _ hle
  | step t hrun ih => exact ih.step t

/-- Where the index passes 2^32 the next reservation is where it should be only if the
size divides 2^32. -/
theorem After.iff {r r' : Reservation} (h : After S r r') (hr : r.location + r.length < 4294967296 + 4097) :
    r'.location % S = (r.location + r.length) % S ↔
      S ∣ 4294967296 ∨ r.location + r.length < 4294967296 := by
  rw [After] at h
  rw [h]
  rcases Nat.lt_or_ge (r.location + r.length) 4294967296 with hlt | hge
  · rw [u32_of_lt hlt]
    exact ⟨fun _ => .inr hlt, fun _ => rfl⟩
  · have hu : u32 (r.location + r.length) = r.location + r.length - 4294967296 := by
      unfold u32
      omega
    have hadd : r.location + r.length - 4294967296 + 4294967296 = r.location + r.length := by omega
    rw [hu]
    constructor
    · intro hmod
      refine .inl ?_
      have hdvd := (Nat.modEq_iff_dvd' (Nat.sub_le _ _)).mp hmod
      rwa [Nat.sub_sub_self hge] at hdvd
    · rintro (hdvd | hlt)
      · conv_rhs => rw [← hadd]
        rw [Nat.add_mod, Nat.mod_eq_zero_of_dvd hdvd, Nat.add_zero, Nat.mod_mod]
      · omega

theorem Run.contiguous_iff (hrun : Run S index count s) (hindex : index < 4294967296) :
    Contiguous S s.reserved ↔
      ∀ r ∈ s.reserved.dropLast, S ∣ 4294967296 ∨ r.location + r.length < 4294967296 := by
  have hinv := hrun.inv hindex
  exact chain_iff hinv.chain.left_of_append fun r hr r' h => h.iff (hinv.bound r hr)

end Threads

/-- **Reservations are contiguous**, and so do not overlap, exactly when the size
divides 2^32 or no fetch-and-add but the last passes 2^32. -/
theorem allocate_contiguous {T : Type} [DecidableEq T] (S index count : ℕ) (hindex : index < 4294967296)
    (s : Threads T) (hrun : Threads.Run S index count s) :
    (Contiguous S s.reserved ∧ NoOverlap S s.reserved) ↔
      S ∣ 4294967296 ∨ ∀ r ∈ s.reserved.dropLast, r.location + r.length < 4294967296 := by
  have hiff := hrun.contiguous_iff hindex
  constructor
  · rintro ⟨hcontiguous, -⟩
    by_cases hdvd : S ∣ 4294967296
    · exact .inl hdvd
    · exact .inr fun r hr => (hiff.mp hcontiguous r hr).resolve_left hdvd
  · intro hfit
    have hcontiguous := hiff.mpr fun r hr => hfit.imp id fun h => h r hr
    exact ⟨hcontiguous, hcontiguous.noOverlap⟩

/-- Two threads pass the test for the roll-over together; one reduces the index, the
other finds it changed, and adds first. -/
theorem allocate_contiguous_example : ∃ s : Threads Bool, Threads.Run 100 4294967290 0 s ∧
    s.reserved = [⟨90, 80⟩, ⟨170, 64⟩] ∧ Contiguous 100 s.reserved ∧ NoOverlap 100 s.reserved := by
  have hcalls : Threads.Run 100 4294967290 0 _ :=
    .call (t := false) (n := 80) (.call (t := true) (n := 64) .start rfl (by decide) (by decide)) rfl
      (by decide) (by decide)
  have hloads : Threads.Run 100 4294967290 0 _ :=
    .step false (.step true
      (.step false (.step true (.step false (.step true (.step false (.step true hcalls)))))))
  have hswaps : Threads.Run 100 4294967290 0 _ := .step false (.step true hloads)
  have hrun : Threads.Run 100 4294967290 0 _ := .step true (.step false (.step true (.step false hswaps)))
  refine ⟨_, hrun, rfl, ?_⟩
  refine (allocate_contiguous 100 4294967290 0 (by decide) _ hrun).mpr (.inr ?_)
  exact (show ∀ r ∈ [(⟨90, 80⟩ : Reservation)], r.location + r.length < 4294967296 by decide)

/-- Three threads can pass the test for the roll-over together, and then the index
passes 2^32: the next reservation is not where the third one ended. -/
theorem allocate_rolls_over : ∃ s : Threads (Fin 3), Threads.Run 10000 4294957055 0 s ∧
    ¬ (Contiguous 10000 s.reserved ∧ NoOverlap 10000 s.reserved) := by
  have htests : Threads.Run 10000 4294957055 0 _ :=
    .step (2 : Fin 3) (.step 1 (.step 0
      (.call (t := 2) (n := 4096) (.call (t := 1) (n := 4096) (.call (t := 0) (n := 4096) .start
        rfl (by decide) (by decide)) rfl (by decide) (by decide)) rfl (by decide) (by decide))))
  have hadds : Threads.Run 10000 4294957055 0 _ := .step 2 (.step 1 (.step 0 htests))
  have hnext : Threads.Run 10000 4294957055 0 _ :=
    .step 0 (.step 0 (.call (t := 0) (n := 64) hadds rfl (by decide) (by decide)))
  refine ⟨_, hnext, ?_⟩
  rintro ⟨hcontiguous, -⟩
  have hreserved : Contiguous 10000
      [⟨4294957055, 4096⟩, ⟨4294961151, 4096⟩, ⟨4294965247, 4096⟩, ⟨2047, 64⟩] := hcontiguous
  obtain ⟨-, hreserved⟩ := List.isChain_cons_cons.mp hreserved
  obtain ⟨-, hreserved⟩ := List.isChain_cons_cons.mp hreserved
  obtain ⟨hlast, -⟩ := List.isChain_cons_cons.mp hreserved
  exact absurd hlast (by decide)

/-! ### Two threads -/

/-- The thread has passed the test for the roll-over, and has not added yet. -/
def Pc.passed : Pc → Bool
  | .store _ _ | .add _ => true
  | _ => false

namespace Threads

variable {T : Type} [DecidableEq T] [Fintype T] {S index count : ℕ} {s : Threads T}

/-- How many threads have passed the test. -/
def passed (s : Threads T) : ℕ := (Finset.univ.filter fun t => (s.pc t).passed = true).card

omit [DecidableEq T] in
theorem passed_le (s : Threads T) : s.passed ≤ Fintype.card T := Finset.card_filter_le _ _

omit [DecidableEq T] in
theorem passed_pos {t : T} (h : (s.pc t).passed = true) : 0 < s.passed :=
  Finset.card_pos.mpr ⟨t, Finset.mem_filter.mpr ⟨Finset.mem_univ t, h⟩⟩

theorem passed_goto (s : Threads T) (t : T) (p : Pc) :
    (s.goto t p).passed + (s.pc t).passed.toNat = s.passed + p.passed.toNat := by
  have hfilter : (Finset.univ.filter fun t' => ((s.goto t p).pc t').passed = true).erase t =
      (Finset.univ.filter fun t' => (s.pc t').passed = true).erase t := by
    ext t'
    by_cases ht : t' = t
    · simp [ht]
    · simp [ht, goto_pc_of_ne s ht]
  have hcard := congrArg Finset.card hfilter
  rw [Finset.card_erase_eq_ite, Finset.card_erase_eq_ite] at hcard
  simp only [Finset.mem_filter, Finset.mem_univ, true_and, goto_pc] at hcard
  have hnew : p.passed = true → 0 < (s.goto t p).passed := fun h => passed_pos (t := t) (by rwa [goto_pc])
  have hold : (s.pc t).passed = true → 0 < s.passed := fun h => passed_pos h
  unfold passed at *
  cases hp : p.passed <;> cases ht : (s.pc t).passed
  all_goals
    simp only [hp, ht, Bool.false_eq_true, if_true, if_false, Bool.toNat_true, Bool.toNat_false,
      forall_const] at *
    omega

/-- What holds in every run of at most two threads: the index is at most one length
past the margin for each thread that can have added since the test of one that has
not. -/
structure Margin (s : Threads T) : Prop where
  index_le : 0 < s.passed → s.currentIndex + 4096 * s.passed ≤ 4294957055 + 4096 * Fintype.card T
  fits : ∀ r ∈ s.reserved, r.location + r.length < 4294967296

/-- A thread may pass the test, or go back in front of it, while the index is in front
of the margin. -/
theorem Margin.goto (h : Margin s) (t : T) (p : Pc)
    (hp : p.passed = (s.pc t).passed ∨ s.currentIndex ≤ 4294957055) : Margin (s.goto t p) := by
  have hcount := passed_goto s t p
  have hle := passed_le (s.goto t p)
  have hindex := h.index_le
  refine ⟨fun hpos => ?_, h.fits⟩
  rw [goto_currentIndex]
  rcases hp with hp | hp
  · rw [hp] at hcount
    have hsame : (s.goto t p).passed = s.passed := by omega
    rw [hsame] at hpos ⊢
    exact hindex hpos
  · omega

theorem Margin.step (h : Margin s) (hT : Fintype.card T ≤ 2) (hS : S < 2147483648) (h0 : 0 < S) (t : T)
    (hlen : (s.pc t).bufferLen ≤ 4096) : Margin (s.step S t) := by
  have htest : ∀ p q : Pc, p.passed = (s.pc t).passed →
      Margin (s.goto t (if RingBuffer.isIndexRollingOver s.currentIndex = true then p else q)) := by
    intro p q hp
    by_cases hroll : RingBuffer.isIndexRollingOver s.currentIndex = true
    · rw [if_pos hroll]
      exact h.goto t p (.inl hp)
    · rw [if_neg hroll]
      rw [RingBuffer.isIndexRollingOver_iff] at hroll
      exact h.goto t q (.inr (by omega))
  unfold Threads.step
  cases hpc : s.pc t with
  | idle => exact h
  | test n => exact htest _ _ (by rw [hpc]; rfl)
  | count n => exact h.goto t _ (.inl (by rw [hpc]; rfl))
  | loop n c => exact htest _ _ (by rw [hpc]; rfl)
  | load n c => exact h.goto t _ (.inl (by rw [hpc]; rfl))
  | cas n c seen =>
    by_cases heq : s.currentIndex = seen
    · have hmod := Nat.mod_lt seen h0
      have hle := passed_le (s.goto t (.store n c))
      simp only [if_pos heq]
      refine ⟨fun _ => ?_, h.fits⟩
      exact (show seen % S + 4096 * (s.goto t (.store n c)).passed ≤
        4294957055 + 4096 * Fintype.card T by omega)
    · simp only [if_neg heq]
      exact h.goto t _ (.inl (by rw [hpc]; rfl))
  | store n c =>
    have h' := h.goto t (.add n) (.inl (by rw [hpc]; rfl))
    exact ⟨h'.index_le, h'.fits⟩
  | add n =>
    have hpassed : (s.pc t).passed = true := by rw [hpc]; rfl
    have hpos := passed_pos hpassed
    have hindex := h.index_le hpos
    have hcount := passed_goto s t .idle
    rw [hpassed, Bool.toNat_true, show Pc.idle.passed.toNat = 0 from rfl] at hcount
    rw [hpc, Pc.bufferLen] at hlen
    have hfits : s.currentIndex + n < 4294967296 := by omega
    refine ⟨fun _ => ?_, fun r hr => ?_⟩
    · have hgoal : s.currentIndex + n + 4096 * (s.goto t .idle).passed ≤
          4294957055 + 4096 * Fintype.card T := by
        omega
      rw [← u32_of_lt hfits] at hgoal
      exact hgoal
    · rcases List.mem_append.mp hr with hr | hr
      · exact h.fits r hr
      · rw [List.mem_singleton.mp hr]
        exact hfits

/-- **Two threads** hand out contiguous reservations, in every interleaving. -/
theorem two_threads_contiguous (hT : Fintype.card T ≤ 2) (h0 : 0 < S) (hS : S < 2147483648)
    (hindex : index < 4294967296) (hrun : Run S index count s) :
    Contiguous S s.reserved ∧ NoOverlap S s.reserved := by
  have hmargin : Margin s := by
    induction hrun with
    | start =>
      refine ⟨fun hpos => ?_, by simp [Threads.start]⟩
      obtain ⟨t, ht⟩ := Finset.card_pos.mp hpos
      cases (Finset.mem_filter.mp ht).2
    | @call s t n hrun hidle hpos hle ih => exact ih.goto t _ (.inl (by rw [hidle]; rfl))
    | @step s t hrun ih => exact ih.step hT hS h0 t ((hrun.inv hindex).len_le t)
  have hcontiguous := (hrun.contiguous_iff hindex).mpr fun r hr =>
    .inr (hmargin.fits r (List.mem_of_mem_dropLast hr))
  exact ⟨hcontiguous, hcontiguous.noOverlap⟩

end Threads

end Memlog
