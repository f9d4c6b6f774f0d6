/-
# Compare-and-swap in a loop

Any number of threads change one word by calls that read it, compute a new value from
what they have read, and write it by a compare-and-swap; if that fails they start over.
The word may have had other values in between when the swap succeeds.

In every interleaving of these steps the calls that are done make a history of the word:
each has computed its value from the one that the call before it has left (`Inv.history`).
And a call starts over only when another one has been done since it read the word; so
no thread starts over more often than the others get done (`Inv.failed_le`).

Key definitions: `State`, `Step`, `History`, `Inv`.
Key theorems: `Steps.inv`, `Steps.returned`.
-/
import Mathlib.Data.Nat.Notation
import Mathlib.Logic.Function.Basic
import Mathlib.Logic.Relation
import Mathlib.Order.Nat
import Mathlib.Tactic.Common

namespace Cas

variable {σ ω T : Type} [DecidableEq σ] [DecidableEq T]

/-- Where a thread stands: outside, before it reads the word, before the swap. -/
inductive Pc (σ ω : Type) where
  | idle
  | read (op : ω)
  | swap (op : ω) (seen : σ)

/-- A call that is done: its thread, its operation, the value that it has written. -/
structure Done (σ ω T : Type) where
  thread : T
  op : ω
  result : σ

/-- The word, the threads, the calls that are done in the order of their swaps, and how
often each thread has started over. -/
structure State (σ ω T : Type) where
  value : σ
  pc : T → Pc σ ω
  calls : List (Done σ ω T)
  failed : T → ℕ

def State.goto (s : State σ ω T) (t : T) (p : Pc σ ω) : State σ ω T :=
  { s with pc := Function.update s.pc t p }

/-- No call is under way yet. -/
def start (initial : σ) : State σ ω T := ⟨initial, fun _ => .idle, [], fun _ => 0⟩

variable (apply : ω → σ → σ)

/-- A compare-and-swap. -/
def State.swap (s : State σ ω T) (t : T) (op : ω) (seen : σ) : State σ ω T :=
  if s.value = seen then
    { s.goto t .idle with value := apply op seen, calls := s.calls ++ [⟨t, op, apply op seen⟩] }
  else
    { s.goto t (.read op) with failed := Function.update s.failed t (s.failed t + 1) }

inductive Step : State σ ω T → State σ ω T → Prop
  | call {s t} (op : ω) : s.pc t = .idle → Step s (s.goto t (.read op))
  | read {s t op} : s.pc t = .read op → Step s (s.goto t (.swap op s.value))
  | swap {s t op seen} : s.pc t = .swap op seen → Step s (s.swap apply t op seen)

/-- Runs. -/
abbrev Steps : State σ ω T → State σ ω T → Prop := Relation.ReflTransGen (Step apply)

/-- Each call has computed its value from the one before it. -/
def History : σ → List (Done σ ω T) → Prop
  | _, [] => True
  | v, c :: cs => c.result = apply c.op v ∧ History c.result cs

/-- What the calls leave. -/
def last : σ → List (Done σ ω T) → σ
  | v, [] => v
  | _, c :: cs => last c.result cs

variable {apply} {s s' : State σ ω T} {t t' : T} {initial : σ}

omit [DecidableEq σ] [DecidableEq T] in
theorem History.concat {c : Done σ ω T} : ∀ {v : σ} {cs : List (Done σ ω T)}, History apply v cs →
    c.result = apply c.op (last v cs) → History apply v (cs ++ [c])
  | _, [], _, hc => ⟨hc, trivial⟩
  | _, _ :: _, ⟨h, hs⟩, hc => ⟨h, hs.concat hc⟩

omit [DecidableEq σ] [DecidableEq T] in
theorem last_concat (c : Done σ ω T) : ∀ (v : σ) (cs : List (Done σ ω T)), last v (cs ++ [c]) = c.result
  | _, [] => rfl
  | _, c' :: cs => last_concat c c'.result cs

omit [DecidableEq σ] [DecidableEq T] in
theorem History.last_eq : ∀ {v : σ} {cs : List (Done σ ω T)}, History apply v cs →
    last v cs = (cs.map Done.op).foldl (fun v op => apply op v) v
  | _, [], _ => rfl
  | _, c :: cs, ⟨h, hs⟩ => by
    rw [last, hs.last_eq, List.map_cons, List.foldl_cons, h]

omit [DecidableEq σ] [DecidableEq T] in
/-- What a call has written is what the operations up to its own make of the initial
value. -/
theorem History.result : ∀ {v : σ} {cs : List (Done σ ω T)}, History apply v cs → ∀ {k : ℕ} {c : Done σ ω T},
    cs[k]? = some c → c.result = ((cs.take (k + 1)).map Done.op).foldl (fun v op => apply op v) v
  | _, c :: cs, ⟨h, hs⟩, 0, d, hk => by
    obtain rfl := Option.some.inj hk
    simpa using h
  | _, c :: cs, ⟨h, hs⟩, k + 1, d, hk => by
    rw [hs.result hk, List.take_succ_cons, List.map_cons, List.foldl_cons, h]

/-- What thread `t` has read is no longer the value of the word. -/
def Stale (s : State σ ω T) (t : T) : Prop := ∃ op seen, s.pc t = .swap op seen ∧ s.value ≠ seen

/-- How many calls of other threads are done. -/
def others (s : State σ ω T) (t : T) : ℕ := (s.calls.filter fun c => c.thread ≠ t).length

/-- What holds in every state. -/
structure Inv (apply : ω → σ → σ) (initial : σ) (s : State σ ω T) : Prop where
  history : History apply initial s.calls
  value : s.value = last initial s.calls
  failed_le : ∀ t, s.failed t ≤ others s t
  failed_lt : ∀ t, Stale s t → s.failed t < others s t

omit [DecidableEq σ] in
theorem Inv.start : Inv apply initial (start initial : State σ ω T) where
  history := trivial
  value := rfl
  failed_le _ := Nat.zero_le _
  failed_lt t := by
    rintro ⟨op, seen, hpc, -⟩
    cases hpc

omit [DecidableEq σ] in
@[simp] theorem goto_pc (p : Pc σ ω) : (s.goto t p).pc t = p := Function.update_self ..

omit [DecidableEq σ] in
theorem goto_pc_of_ne (h : t' ≠ t) (p : Pc σ ω) : (s.goto t p).pc t' = s.pc t' := Function.update_of_ne h ..

omit [DecidableEq σ] in
/-- A thread that has not just read another value than the word has. -/
theorem Inv.goto {p : Pc σ ω} (h : Inv apply initial s) (hp : ∀ op seen, p = .swap op seen → s.value = seen) :
    Inv apply initial (s.goto t p) where
  history := h.history
  value := h.value
  failed_le := h.failed_le
  failed_lt t' := by
    rintro ⟨op, seen, hpc, hne⟩
    by_cases ht : t' = t
    · subst ht
      exact absurd (hp op seen ((goto_pc p).symm.trans hpc)) hne
    · exact h.failed_lt t' ⟨op, seen, (goto_pc_of_ne ht p).symm.trans hpc, hne⟩

theorem swap_of_eq {op : ω} {seen : σ} (h : s.value = seen) : s.swap apply t op seen =
    { s.goto t .idle with value := apply op seen, calls := s.calls ++ [⟨t, op, apply op seen⟩] } := if_pos h

theorem Step.inv (h : Step apply s s') (hi : Inv apply initial s) : Inv apply initial s' := by
  cases h with
  | call op _ => exact hi.goto nofun
  | read _ =>
    refine hi.goto fun op seen hp => ?_
    obtain ⟨-, rfl⟩ := Pc.swap.inj hp
    rfl
  | @swap t op seen hpc =>
    unfold State.swap
    split_ifs with heq
    · -- the others may have to start over, for a call more
      have hothers : ∀ t', t' ≠ t → others { s.goto t .idle with
          value := apply op seen, calls := s.calls ++ [⟨t, op, apply op seen⟩] } t' = others s t' + 1 := by
        intro t' ht
        simp [others, List.filter_append, ht.symm]
      have hown : others { s.goto t .idle with
          value := apply op seen, calls := s.calls ++ [⟨t, op, apply op seen⟩] } t = others s t := by
        simp [others, List.filter_append]
      refine ⟨hi.history.concat (by rw [← hi.value, heq]),
        (last_concat ⟨t, op, apply op seen⟩ initial s.calls).symm,
        fun t' => ?_, fun t' hstale => ?_⟩
      · by_cases ht : t' = t
        · subst ht
          rw [hown]
          exact hi.failed_le t'
        · rw [hothers t' ht]
          exact Nat.le_succ_of_le (hi.failed_le t')
      · obtain ⟨op', seen', hpc', -⟩ := hstale
        by_cases ht : t' = t
        · subst ht
          cases (goto_pc (s := s) (t := t') .idle).symm.trans hpc'
        · rw [hothers t' ht]
          exact Nat.lt_succ_of_le (hi.failed_le t')
    · have hlt := hi.failed_lt t ⟨op, seen, hpc, heq⟩
      have hgoto := hi.goto (t := t) (p := .read op) nofun
      refine ⟨hgoto.history, hgoto.value, fun t' => ?_, fun t' hstale => ?_⟩
      · by_cases ht : t' = t
        · subst ht
          simp only [Function.update_self]
          exact hlt
        · simp only [Function.update_of_ne ht]
          exact hi.failed_le t'
      · obtain ⟨op', seen', hpc', hne⟩ := hstale
        by_cases ht : t' = t
        · subst ht
          cases (goto_pc (s := s) (t := t') (.read op)).symm.trans hpc'
        · simp only [Function.update_of_ne ht]
          exact hi.failed_lt t' ⟨op', seen', (goto_pc_of_ne ht (.read op)).symm.trans hpc', hne⟩

theorem Steps.inv (h : Steps apply s s') (hi : Inv apply initial s) : Inv apply initial s' := by
  induction h with
  | refl => exact hi
  | tail _ hstep ih => exact hstep.inv ih

/-- **In every run** the value is what the calls make of the initial one, each call has
written what it and those before it make, and no thread has started over more often
than others got done. -/
theorem Steps.returned (h : Steps apply (start initial) s) :
    s.value = (s.calls.map Done.op).foldl (fun v op => apply op v) initial ∧
    (∀ k c, s.calls[k]? = some c →
      c.result = ((s.calls.take (k + 1)).map Done.op).foldl (fun v op => apply op v) initial) ∧
    ∀ t, s.failed t ≤ others s t := by
  have hi := Steps.inv h Inv.start
  exact ⟨hi.value.trans hi.history.last_eq, fun k c hk => hi.history.result hk, hi.failed_le⟩

end Cas
