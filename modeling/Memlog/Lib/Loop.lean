/-
# Loops that may fail or run on

`run out body n s` iterates `body` from `s` at most `n` times: a round goes
again with a new state, leaves the loop with a result, or fails; a loop still
running after `n` rounds fails with `out`. A loop that ends is the same for
every larger number of rounds (`run_mono`), and rounds compose (`Reaches`). A
loop whose measure falls every round is the function its rounds unfold
(`run_eq`), and does not run on (`run_ne_out`); one that ends has the result that
its invariant gives (`run_partial`). `Visits` are the states it comes through.

Key definitions: `Next`, `run`, `Reaches`, `Visits`.
Key theorems: `run_again`, `run_done`, `run_mono`, `run_eq`, `run_ne_out`, `run_partial`.
-/
import Mathlib.Data.Nat.Notation
import Mathlib.Tactic.Common

namespace Loop

variable {ε σ β γ : Type}

@[simp] theorem ok_bind (a : β) (f : β → Except ε γ) : (Except.ok a >>= f) = f a := rfl

@[simp] theorem error_bind (e : ε) (f : β → Except ε γ) :
    ((Except.error e : Except ε β) >>= f) = .error e := rfl

@[simp] theorem pure_eq_ok (a : β) : (pure a : Except ε β) = .ok a := rfl

@[simp] theorem throw_eq_error (e : ε) : (throw e : Except ε β) = .error e := rfl

theorem bind_eq_ok {x : Except ε β} {f : β → Except ε γ} {c : γ} :
    (x >>= f) = .ok c ↔ ∃ b, x = .ok b ∧ f b = .ok c := by
  cases x with
  | error e => simp
  | ok b => simp

theorem bind_eq_error {x : Except ε β} {f : β → Except ε γ} {e : ε} :
    (x >>= f) = .error e ↔ x = .error e ∨ ∃ b, x = .ok b ∧ f b = .error e := by
  cases x with
  | error e' => simp
  | ok b => simp

/-- A computation in two parts does not fail with `e` when neither part does. -/
theorem bind_ne_error {x : Except ε β} {f : β → Except ε γ} {e : ε} (hx : x ≠ .error e)
    (hf : ∀ b, x = .ok b → f b ≠ .error e) : (x >>= f) ≠ .error e := by
  cases x with
  | error e' =>
    intro h
    rw [error_bind] at h
    cases h
    exact hx rfl
  | ok b => exact hf b rfl

/-- How a round of a loop ends. -/
inductive Next (σ β : Type) where
  | again (s : σ)
  | done (b : β)

/-- At most `n` rounds of `body` from `s`. -/
def run (out : ε) (body : σ → Except ε (Next σ β)) : ℕ → σ → Except ε β
  | 0, _ => .error out
  | n + 1, s =>
    match body s with
    | .error e => .error e
    | .ok (.done b) => .ok b
    | .ok (.again s') => run out body n s'

variable {out : ε} {body : σ → Except ε (Next σ β)}

theorem run_again {s s' : σ} (h : body s = .ok (.again s')) (n : ℕ) :
    run out body (n + 1) s = run out body n s' := by
  rw [run, h]

theorem run_done {s : σ} {b : β} (h : body s = .ok (.done b)) (n : ℕ) :
    run out body (n + 1) s = .ok b := by
  rw [run, h]

theorem run_error {s : σ} {e : ε} (h : body s = .error e) (n : ℕ) :
    run out body (n + 1) s = .error e := by
  rw [run, h]

/-- What the first round of a loop that ends has done. -/
theorem run_inv {n : ℕ} {s : σ} {b : β} (h : run out body n s = .ok b) :
    body s = .ok (.done b) ∨ ∃ m s', body s = .ok (.again s') ∧ run out body m s' = .ok b := by
  cases n with
  | zero => cases h
  | succ n =>
    cases hb : body s with
    | error e => rw [run_error hb] at h; cases h
    | ok r =>
      cases r with
      | done b' =>
        rw [run_done hb] at h
        exact .inl (by rw [Except.ok.inj h])
      | again s' =>
        rw [run_again hb] at h
        exact .inr ⟨n, s', rfl, h⟩

/-- A loop that has ended is not changed by more rounds. -/
theorem run_mono : ∀ {n m : ℕ} {s : σ} {b : β}, n ≤ m → run out body n s = .ok b →
    run out body m s = .ok b
  | 0, _, _, _, _, h => by simp [run] at h
  | n + 1, 0, _, _, hnm, _ => by omega
  | n + 1, m + 1, s, b, hnm, h => by
    cases hb : body s with
    | error e => rw [run_error hb] at h; cases h
    | ok r =>
      cases r with
      | done b' => rw [run_done hb] at h ⊢; exact h
      | again s' => rw [run_again hb] at h ⊢; exact run_mono (by omega) h

/-- Some rounds, at most `k`, lead from `s` to `s'`. -/
def Reaches (out : ε) (body : σ → Except ε (Next σ β)) (k : ℕ) (s s' : σ) : Prop :=
  ∃ j ≤ k, ∀ n, run out body (n + j) s = run out body n s'

theorem Reaches.refl (s : σ) : Reaches out body 0 s s := ⟨0, Nat.le_refl 0, fun _ => rfl⟩

theorem Reaches.single {s s' : σ} (h : body s = .ok (.again s')) : Reaches out body 1 s s' :=
  ⟨1, Nat.le_refl 1, fun n => run_again h n⟩

theorem Reaches.trans {s s' s'' : σ} {k k' : ℕ} (h : Reaches out body k s s')
    (h' : Reaches out body k' s' s'') :
    Reaches out body (k + k') s s'' := by
  obtain ⟨j, hj, hrun⟩ := h
  obtain ⟨j', hj', hrun'⟩ := h'
  refine ⟨j' + j, by omega, fun n => ?_⟩
  rw [← Nat.add_assoc, hrun, hrun']

theorem Reaches.mono {s s' : σ} {k k' : ℕ} (h : Reaches out body k s s') (hk : k ≤ k') :
    Reaches out body k' s s' := by
  obtain ⟨j, hj, hrun⟩ := h
  exact ⟨j, Nat.le_trans hj hk, hrun⟩

theorem Reaches.run_done {s s' : σ} {b : β} {k n : ℕ} (h : Reaches out body k s s')
    (hb : body s' = .ok (.done b)) (hn : k < n) : run out body n s = .ok b := by
  obtain ⟨j, hj, hrun⟩ := h
  obtain ⟨m, rfl⟩ : ∃ m, n = m + 1 + j := ⟨n - 1 - j, by omega⟩
  rw [hrun, Loop.run_done hb]

/-- A loop whose measure falls every round is the function `f` its rounds
unfold. -/
theorem run_eq (I : σ → Prop) (μ : σ → ℕ) (f : σ → Except ε β)
    (hf : ∀ s, I s → (∃ e, body s = .error e ∧ f s = .error e) ∨
      (∃ b, body s = .ok (.done b) ∧ f s = .ok b) ∨
      (∃ s', body s = .ok (.again s') ∧ f s = f s' ∧ I s' ∧ μ s' < μ s)) :
    ∀ {n : ℕ} {s : σ}, I s → μ s < n → run out body n s = f s
  | 0, _, _, hn => by omega
  | n + 1, s, hI, hn => by
    rcases hf s hI with ⟨e, hb, he⟩ | ⟨b, hb, he⟩ | ⟨s', hb, he, hI', hμ⟩
    · rw [run_error hb, he]
    · rw [run_done hb, he]
    · rw [run_again hb, he]
      exact run_eq I μ f hf hI' (by omega)

/-- Under an invariant that every round keeps, a result of the loop meets the
postcondition, however many rounds it took. -/
theorem run_partial (I : σ → Prop) (P : β → Prop)
    (hd : ∀ s b, I s → body s = .ok (.done b) → P b)
    (ha : ∀ s s', I s → body s = .ok (.again s') → I s') :
    ∀ {n : ℕ} {s : σ} {b : β}, I s → run out body n s = .ok b → P b
  | 0, _, _, _, h => by simp [run] at h
  | n + 1, s, b, hI, h => by
    cases hb : body s with
    | error e => rw [run_error hb] at h; cases h
    | ok r =>
      cases r with
      | done b' =>
        rw [run_done hb] at h
        cases h
        exact hd s _ hI hb
      | again s' =>
        rw [run_again hb] at h
        exact run_partial I P hd ha (ha s s' hI hb) h

/-- A loop whose rounds do not fail with `out`, and whose measure falls every
round, does not run on. -/
theorem run_ne_out (I : σ → Prop) (μ : σ → ℕ)
    (h : ∀ s, I s → body s ≠ .error out ∧ ∀ s', body s = .ok (.again s') → I s' ∧ μ s' < μ s) :
    ∀ {n : ℕ} {s : σ}, I s → μ s < n → run out body n s ≠ .error out
  | 0, _, _, hn => by omega
  | n + 1, s, hI, hn => by
    obtain ⟨hout, hagain⟩ := h s hI
    cases hb : body s with
    | error e =>
      rw [run_error hb]
      intro he
      cases he
      exact hout hb
    | ok r =>
      cases r with
      | done b =>
        rw [run_done hb]
        exact fun he => by cases he
      | again s' =>
        obtain ⟨hI', hμ⟩ := hagain s' hb
        rw [run_again hb]
        exact run_ne_out I μ h hI' (by omega)

theorem run_out (I : σ → Prop) (h : ∀ s, I s → ∃ s', body s = .ok (.again s') ∧ I s') :
    ∀ (n : ℕ) {s : σ}, I s → run out body n s = .error out
  | 0, _, _ => rfl
  | n + 1, s, hI => by
    obtain ⟨s', hb, hI'⟩ := h s hI
    rw [run_again hb]
    exact run_out I h n hI'

/-- The states that a loop from `s` comes through. -/
inductive Visits (body : σ → Except ε (Next σ β)) (s : σ) : σ → Prop
  | start : Visits body s s
  | next {s' s'' : σ} : Visits body s s' → body s' = .ok (.again s'') → Visits body s s''

theorem Visits.inv {s s' : σ} (I : σ → Prop) (h : Visits body s s') (h0 : I s)
    (hround : ∀ s s', I s → body s = .ok (.again s') → I s') : I s' := by
  induction h with
  | start => exact h0
  | next _ hb ih => exact hround _ _ ih hb

end Loop
