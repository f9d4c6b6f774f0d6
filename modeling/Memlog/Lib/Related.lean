/-
# Two computations side by side

`Related S x y`: of two computations that may fail, either both fail, in the same way,
or both succeed, with results that `S` relates. Sequences of related parts are related
(`Related.bind`), and so are loops whose rounds are (`run_related`), however many
rounds they are allowed.

Key definitions: `Related`, `Next.Related`.
Key theorems: `Related.bind`, `run_related`.
-/
import Memlog.Lib.Loop

namespace Loop

variable {ε σ τ β γ β' γ' : Type}

/-- Both fail alike, or both succeed with related results. -/
def Related (S : β → γ → Prop) : Except ε β → Except ε γ → Prop
  | .ok b, .ok c => S b c
  | .error e, .error e' => e = e'
  | .ok _, .error _ => False
  | .error _, .ok _ => False

/-- Two rounds of loops go again from related states, or leave with related results. -/
inductive Next.Related (R : σ → τ → Prop) (S : β → γ → Prop) : Next σ β → Next τ γ → Prop
  | again {s t} : R s t → Next.Related R S (.again s) (.again t)
  | done {b c} : S b c → Next.Related R S (.done b) (.done c)

variable {S : β → γ → Prop} {S' : β' → γ' → Prop} {x : Except ε β} {y : Except ε γ}

theorem Related.of_eq {S : β → β → Prop} {x y : Except ε β} (h : x = y) (hS : ∀ b, S b b) :
    Related S x y := by
  subst h
  cases x with
  | ok b => exact hS b
  | error e => exact rfl

theorem Related.bind {f : β → Except ε β'} {g : γ → Except ε γ'} (h : Related S x y)
    (hfg : ∀ b c, x = .ok b → y = .ok c → S b c → Related S' (f b) (g c)) :
    Related S' (x >>= f) (y >>= g) := by
  cases x with
  | ok b =>
    cases y with
    | ok c => exact hfg b c rfl rfl h
    | error e => exact h.elim
  | error e =>
    cases y with
    | ok c => exact h.elim
    | error e' => exact h

theorem Related.ok_left {b : β} (h : Related S x y) (hx : x = .ok b) : ∃ c, y = .ok c ∧ S b c := by
  subst hx
  cases y with
  | ok c => exact ⟨c, rfl, h⟩
  | error e => exact h.elim

/-- Loops whose rounds are related. -/
theorem run_related {R : σ → τ → Prop} {out : ε} {body : σ → Except ε (Next σ β)}
    {body' : τ → Except ε (Next τ γ)}
    (h : ∀ s t, R s t → Related (Next.Related R S) (body s) (body' t)) :
    ∀ (n : ℕ) {s : σ} {t : τ}, R s t → Related S (run out body n s) (run out body' n t)
  | 0, _, _, _ => rfl
  | n + 1, s, t, hst => by
    have hround := h s t hst
    cases hs : body s with
    | error e =>
      rw [hs] at hround
      cases ht : body' t with
      | ok r => rw [ht] at hround; exact hround.elim
      | error e' =>
        rw [run_error hs, run_error ht]
        rw [ht] at hround
        exact hround
    | ok r =>
      obtain ⟨r', ht, hr⟩ := hround.ok_left hs
      cases hr with
      | again hagain =>
        rw [run_again hs, run_again ht]
        exact run_related h n hagain
      | done hdone =>
        rw [run_done hs, run_done ht]
        exact hdone

end Loop
