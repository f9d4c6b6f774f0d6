/-
# Allocation does not block

The steps that threads take in `allocate` (`Memlog.Allocate`), counted: who has called,
how many steps each thread has taken, who has changed the index, and how often the
compare-and-swap of a thread has failed. A compare-and-swap fails only when another
thread has changed the index since the load (`Inv.retries`), and a call changes the
index at most twice. So no thread waits for another one: it has taken at most seven
steps for each of its own calls, and six for each call of another thread, in whatever
order they run and wherever the others stop (`allocate_steps_le`).

Key definitions: `Counted`, `Counted.Run`, `Counted.Inv`.
Key theorems: `Counted.Run.inv`, `Counted.allocate_steps_le`.
-/
import Mathlib.Data.List.Perm.Subperm
import Memlog.Allocate

namespace Memlog

namespace Threads

variable {T : Type}

/-- The next step of a thread changes the index. -/
def changes (s : Threads T) (t : T) : Bool :=
  match s.pc t with
  | .cas _ _ currentIndex => s.currentIndex = currentIndex
  | .add _ => true
  | _ => false

/-- What a thread has loaded is no longer the index: its compare-and-swap fails. -/
def stale (s : Threads T) (t : T) : Bool :=
  match s.pc t with
  | .cas _ _ currentIndex => s.currentIndex ≠ currentIndex
  | _ => false

end Threads

/-- The steps that a call takes at most, if its compare-and-swap succeeds. -/
def Pc.rounds : Pc → ℕ
  | .idle => 0
  | .test _ => 7
  | .count _ => 6
  | .loop _ _ => 5
  | .load _ _ => 4
  | .cas _ _ _ => 3
  | .store _ _ => 2
  | .add _ => 1

/-- How often a call changes the index at most. -/
def Pc.changesLeft : Pc → ℕ
  | .idle => 0
  | .store _ _ | .add _ => 1
  | _ => 2

/-- Threads, with counts of what they do. -/
structure Counted (T : Type) where
  threads : Threads T
  calls : List T
  steps : T → ℕ
  changes : List T
  retries : T → ℕ

namespace Counted

variable {T : Type} [DecidableEq T]

/-- No thread has called yet. -/
def start (index count : ℕ) : Counted T := ⟨.start index count, [], fun _ => 0, [], fun _ => 0⟩

def call (s : Counted T) (t : T) (bufferLen : ℕ) : Counted T :=
  { s with threads := s.threads.goto t (.test bufferLen), calls := s.calls ++ [t] }

def step (size : ℕ) (t : T) (s : Counted T) : Counted T :=
  { s with
    threads := s.threads.step size t
    steps := Function.update s.steps t (s.steps t + 1)
    changes := if s.threads.changes t then s.changes ++ [t] else s.changes
    retries := if s.threads.stale t then Function.update s.retries t (s.retries t + 1) else s.retries }

/-- Runs, as `Threads.Run`; a thread that is not in `allocate` takes no steps. -/
inductive Run (size index count : ℕ) : Counted T → Prop
  | start : Run size index count (start index count)
  | call {s t n} : Run size index count s → s.threads.pc t = .idle → 0 < n → n ≤ 4096 →
      Run size index count (s.call t n)
  | step {s} (t) : Run size index count s → s.threads.pc t ≠ .idle → Run size index count (s.step size t)

variable {size index count : ℕ} {s : Counted T} {t t' : T}

/-- The counts say nothing about what the threads do. -/
theorem run_iff (threads : Threads T) :
    Threads.Run size index count threads ↔ ∃ s : Counted T, s.threads = threads ∧ Run size index count s := by
  constructor
  · intro h
    induction h with
    | start => exact ⟨_, rfl, .start⟩
    | call _ hidle hpos hle ih =>
      obtain ⟨s, rfl, hs⟩ := ih
      exact ⟨_, rfl, hs.call hidle hpos hle⟩
    | step t _ ih =>
      obtain ⟨s, rfl, hs⟩ := ih
      by_cases hidle : s.threads.pc t = .idle
      · exact ⟨s, by rw [Threads.step, hidle], hs⟩
      · exact ⟨_, rfl, hs.step t hidle⟩
  · rintro ⟨s, rfl, hs⟩
    induction hs with
    | start => exact .start
    | call _ hidle hpos hle ih => exact ih.call hidle hpos hle
    | step t _ _ ih => exact ih.step t

/-- How many of them are not `t`. -/
def others (ts : List T) (t : T) : ℕ := ts.countP (· ≠ t)

/-- What holds after every step. -/
structure Inv (s : Counted T) : Prop where
  steps : ∀ t, s.steps t + (s.threads.pc t).rounds ≤ 7 * s.calls.count t + 3 * s.retries t
  changes : ∀ t, s.changes.count t + (s.threads.pc t).changesLeft ≤ 2 * s.calls.count t
  retries : ∀ t, s.retries t + (s.threads.stale t).toNat ≤ others s.changes t

/-- What a step of a thread does to it. -/
theorem step_own (s : Threads T) (size : ℕ) (h : s.pc t ≠ .idle) :
    ((s.step size t).pc t).rounds + 1 ≤ (s.pc t).rounds + 3 * (s.stale t).toNat ∧
      ((s.step size t).pc t).changesLeft + (s.changes t).toNat ≤ (s.pc t).changesLeft ∧
      (s.step size t).stale t = false := by
  unfold Threads.step Threads.stale Threads.changes
  cases hpc : s.pc t with
  | idle => exact absurd hpc h
  | test n | loop n c =>
    by_cases hroll : RingBuffer.isIndexRollingOver s.currentIndex = true
    · simp [hroll, Pc.rounds, Pc.changesLeft]
    · simp [hroll, Pc.rounds, Pc.changesLeft]
  | count n | load n c | store n c | add n => simp [Threads.goto, Pc.rounds, Pc.changesLeft]
  | cas n c currentIndex =>
    by_cases hsame : s.currentIndex = currentIndex
    · simp [hsame, Threads.goto, Pc.rounds, Pc.changesLeft]
    · simp [hsame, Pc.rounds, Pc.changesLeft]

theorem step_other (s : Threads T) (size : ℕ) (h : t' ≠ t) : (s.step size t).pc t' = s.pc t' ∧
    (s.changes t = false → (s.step size t).currentIndex = s.currentIndex) := by
  unfold Threads.step Threads.changes
  cases hpc : s.pc t with
  | idle => exact ⟨rfl, fun _ => rfl⟩
  | test n | count n | loop n c | load n c | store n c =>
    exact ⟨Function.update_of_ne h _ _, fun _ => rfl⟩
  | cas n c currentIndex =>
    by_cases hsame : s.currentIndex = currentIndex
    · simp [hsame, Threads.goto, Function.update_of_ne h]
    · simp [hsame, Threads.goto_pc_of_ne s h]
  | add n => simp [Threads.goto, Function.update_of_ne h]

theorem others_concat (ts : List T) (t t' : T) :
    others (ts ++ [t']) t = others ts t + if t' = t then 0 else 1 := by
  rw [others, others, List.countP_append, List.countP_singleton]
  by_cases h : t' = t <;> simp [h]

omit [DecidableEq T] in
theorem stale_congr {s s' : Threads T} (hpc : s'.pc t = s.pc t) (hindex : s'.currentIndex = s.currentIndex) :
    s'.stale t = s.stale t := by
  rw [Threads.stale, Threads.stale, hpc, hindex]

theorem Inv.start : Inv (start index count : Counted T) :=
  ⟨fun _ => le_rfl, fun _ => le_rfl, fun _ => le_rfl⟩

theorem Inv.call (h : Inv s) (hidle : s.threads.pc t = .idle) (n : ℕ) : Inv (s.call t n) := by
  have hown : (s.call t n).threads.pc t = .test n := Threads.goto_pc ..
  have hother : ∀ t', t' ≠ t → (s.call t n).threads.pc t' = s.threads.pc t' :=
    fun t' ht => Threads.goto_pc_of_ne _ ht _
  have hcalls : ∀ t', (s.call t n).calls.count t' = s.calls.count t' + if t = t' then 1 else 0 := by
    intro t'
    rw [Counted.call, List.count_append, List.count_singleton]
    simp
  refine ⟨fun t' => ?_, fun t' => ?_, fun t' => ?_⟩
  · have hsteps := h.steps t'
    rw [hcalls]
    by_cases ht : t' = t
    · subst ht
      rw [hidle] at hsteps
      rw [hown, if_pos rfl]
      simp only [Pc.rounds] at hsteps ⊢
      simp only [Counted.call]
      omega
    · rw [hother t' ht, if_neg (Ne.symm ht)]
      exact hsteps
  · have hchanges := h.changes t'
    rw [hcalls]
    by_cases ht : t' = t
    · subst ht
      rw [hidle] at hchanges
      rw [hown, if_pos rfl]
      simp only [Pc.changesLeft] at hchanges ⊢
      simp only [Counted.call]
      omega
    · rw [hother t' ht, if_neg (Ne.symm ht)]
      exact hchanges
  · have hretries := h.retries t'
    by_cases ht : t' = t
    · subst ht
      have hstale : (s.call t' n).threads.stale t' = false := by
        rw [Threads.stale, hown]
      rw [hstale]
      exact (Nat.le_add_right _ _).trans hretries
    · rw [stale_congr (hother t' ht) rfl]
      exact hretries

theorem step_retries (s : Counted T) (size : ℕ) (t : T) :
    (s.step size t).retries t = s.retries t + (s.threads.stale t).toNat ∧
      ∀ t', t' ≠ t → (s.step size t).retries t' = s.retries t' := by
  unfold Counted.step
  cases s.threads.stale t with
  | false => exact ⟨rfl, fun _ _ => rfl⟩
  | true => exact ⟨Function.update_self .., fun t' ht => Function.update_of_ne ht ..⟩

theorem step_changes (s : Counted T) (size : ℕ) (t : T) :
    (s.step size t).changes.count t = s.changes.count t + (s.threads.changes t).toNat ∧
      others (s.step size t).changes t = others s.changes t ∧
      ∀ t', t' ≠ t → (s.step size t).changes.count t' = s.changes.count t' ∧
        others (s.step size t).changes t' = others s.changes t' + (s.threads.changes t).toNat := by
  unfold Counted.step
  cases s.threads.changes t with
  | false => exact ⟨rfl, rfl, fun _ _ => ⟨rfl, rfl⟩⟩
  | true =>
    refine ⟨?_, ?_, fun t' ht => ⟨?_, ?_⟩⟩
    · simp
    · simp [others_concat]
    · simp [Ne.symm ht]
    · simp [others_concat, Ne.symm ht]

/-- **A step.** Where another thread changes the index, the compare-and-swap of a thread
may fail, but then there is one more change by others. -/
theorem Inv.step (h : Inv s) (hpc : s.threads.pc t ≠ .idle) : Inv (s.step size t) := by
  obtain ⟨hrounds, hleft, hfresh⟩ := step_own s.threads size hpc
  obtain ⟨hretries, hretries'⟩ := step_retries s size t
  obtain ⟨hcount, hothers, hchanges'⟩ := step_changes s size t
  have hthreads : (s.step size t).threads = s.threads.step size t := rfl
  refine ⟨fun t' => ?_, fun t' => ?_, fun t' => ?_⟩
  · have hsteps := h.steps t'
    by_cases ht : t' = t
    · subst ht
      have hstep : (s.step size t').steps t' = s.steps t' + 1 := Function.update_self ..
      rw [hstep, hretries, hthreads]
      simp only [Counted.step]
      omega
    · have hstep : (s.step size t).steps t' = s.steps t' := Function.update_of_ne ht ..
      rw [hstep, hretries' t' ht, hthreads, (step_other s.threads size ht).1]
      exact hsteps
  · have hchanges := h.changes t'
    by_cases ht : t' = t
    · subst ht
      rw [hcount, hthreads]
      simp only [Counted.step]
      omega
    · rw [(hchanges' t' ht).1, hthreads, (step_other s.threads size ht).1]
      exact hchanges
  · have hold := h.retries t'
    by_cases ht : t' = t
    · subst ht
      rw [hretries, hthreads, hfresh, hothers]
      exact hold
    · obtain ⟨hsame, hindex⟩ := step_other s.threads size ht
      rw [hretries' t' ht, hthreads, (hchanges' t' ht).2]
      cases hchange : s.threads.changes t with
      | false =>
        rw [stale_congr hsame (hindex hchange)]
        exact hold
      | true =>
        have hle := Bool.toNat_le ((s.threads.step size t).stale t')
        simp only [Bool.toNat_true]
        omega

theorem Run.inv (h : Run size index count s) : Inv s := by
  induction h with
  | start => exact .start
  | call _ hidle _ _ ih => exact ih.call hidle _
  | step t _ hpc ih => exact ih.step hpc

/-- Every thread makes at most two changes for each of its calls, and so do the others
of a thread together. -/
theorem Inv.others_le (h : Inv s) (t : T) : others s.changes t ≤ 2 * others s.calls t := by
  have hsub : s.changes.Subperm (s.calls ++ s.calls) := by
    rw [List.subperm_iff_count]
    intro t'
    have hchanges := h.changes t'
    rw [List.count_append]
    omega
  calc
    others s.changes t ≤ others (s.calls ++ s.calls) t := hsub.countP_le _
    _ = 2 * others s.calls t := by rw [others, List.countP_append, Nat.two_mul, others]

/-- **Allocation does not block.** In every run a thread has taken at most seven steps
for each of its own calls and six for each call of another thread. -/
theorem allocate_steps_le (h : Run size index count s) (t : T) :
    s.steps t ≤ 7 * s.calls.count t + 6 * others s.calls t := by
  have hinv := h.inv
  have hsteps := hinv.steps t
  have hretries := hinv.retries t
  have hothers := hinv.others_le t
  omega

/-- Two threads reduce the index at once, and one of them fails. -/
theorem allocate_steps_le_example : ∃ s : Counted Bool, Run 4096 4294957056 0 s ∧ s.retries false = 1 ∧
    s.steps false = 5 ∧ s.steps false ≤ 7 * s.calls.count false + 6 * others s.calls false := by
  have hcalled : Run 4096 4294957056 0 ((start 4294957056 0 : Counted Bool).call false 1) :=
    .call .start rfl (by decide) (by decide)
  have hloaded := (((hcalled.step false (by decide)).step false (by decide)).step false
    (by decide)).step false (by decide)
  have hother := hloaded.call (t := true) (n := 1) rfl (by decide) (by decide)
  have hreduced := ((((hother.step true (by decide)).step true (by decide)).step true
    (by decide)).step true (by decide)).step
    true (by decide)
  have hfailed := hreduced.step false (by decide)
  exact ⟨_, hfailed, rfl, rfl, allocate_steps_le hfailed false⟩

end Counted
end Memlog
