/-
# Places in a list

A place in a list is written `pre ++ a :: post`. Two places of one list are the
same, or one is in front of the other (`cons_cases`), and a place in a list that
has grown at its end is an old one or the new one (`concat_cases`).
-/
import Mathlib.Data.List.Basic
import Mathlib.Tactic.Common

namespace Split

variable {α : Type*} {a b : α}

/-- Two places in one list: the same, or one in front of the other. -/
theorem cons_cases {pre pre' post post' : List α} (h : pre ++ a :: post = pre' ++ b :: post') :
    (pre = pre' ∧ a = b ∧ post = post') ∨ (∃ mid, pre = pre' ++ b :: mid ∧ post' = mid ++ a :: post) ∨
      ∃ mid, pre' = pre ++ a :: mid ∧ post = mid ++ b :: post' := by
  induction pre generalizing pre' with
  | nil =>
    cases pre' with
    | nil =>
      obtain ⟨rfl, rfl⟩ := List.cons.inj h
      exact .inl ⟨rfl, rfl, rfl⟩
    | cons x pre' =>
      obtain ⟨rfl, rfl⟩ := List.cons.inj h
      exact .inr (.inr ⟨pre', rfl, rfl⟩)
  | cons x pre ih =>
    cases pre' with
    | nil =>
      obtain ⟨rfl, rfl⟩ := List.cons.inj h
      exact .inr (.inl ⟨pre, rfl, rfl⟩)
    | cons y pre' =>
      obtain ⟨rfl, htail⟩ := List.cons.inj h
      rcases ih htail with ⟨rfl, hab, hpost⟩ | ⟨mid, rfl, hpost⟩ | ⟨mid, rfl, hpost⟩
      · exact .inl ⟨rfl, hab, hpost⟩
      · exact .inr (.inl ⟨mid, rfl, hpost⟩)
      · exact .inr (.inr ⟨mid, rfl, hpost⟩)

theorem concat_cases {xs pre post : List α} (h : xs ++ [b] = pre ++ a :: post) :
    (xs = pre ∧ b = a ∧ post = []) ∨ ∃ post', post = post' ++ [b] ∧ xs = pre ++ a :: post' := by
  rcases cons_cases h with ⟨hpre, hb, hpost⟩ | ⟨mid, hpre, hpost⟩ | ⟨mid, -, hpost⟩
  · exact .inl ⟨hpre, hb, hpost.symm⟩
  · exact .inr ⟨mid, hpost, hpre⟩
  · cases mid <;> cases hpost

end Split
