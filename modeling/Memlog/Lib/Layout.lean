/-
# Layouts of fixed and terminated items

A layout is a list of cells: one element (`Cell.fixed`), or a string of elements
that are not the terminator `z`, with the terminator behind it (`Cell.terminated`).
`Stores z X l` says that `l` fills the layout `X`. A reader with a layout of its own
takes one element for a fixed cell, and for a terminated one everything up to a
terminator or to the end (`takes`).

A reader with the layout `Y` takes up exactly what was stored with the layout `X`,
whatever that is, when the layouts are the same, or differ in the last cell only
and the reader takes the last element for a string (`takesUp_iff`).

Key definitions: `Cell`, `Stores`, `takes`, `Agree`.
-/
import Mathlib.Data.Nat.Notation
import Mathlib.Tactic.Common

namespace Layout

inductive Cell where
  | fixed
  | terminated
deriving DecidableEq, Repr

variable {α : Type} (z : α)

/-- What fills a layout. -/
inductive Stores : List Cell → List α → Prop
  | nil : Stores [] []
  | fixed {X : List Cell} {l : List α} (a : α) : Stores X l → Stores (.fixed :: X) (a :: l)
  | terminated {X : List Cell} {l s : List α} : z ∉ s → Stores X l → Stores (.terminated :: X) (s ++ z :: l)

/-- The layouts are the same, but for a last element that is taken for a string. -/
def Agree (X Y : List Cell) : Prop := X = Y ∨ ∃ p, X = p ++ [.fixed] ∧ Y = p ++ [.terminated]

variable {z} {X Y : List Cell} {l s : List α}

theorem Agree.length (h : Agree X Y) : X.length = Y.length := by
  rcases h with rfl | ⟨p, rfl, rfl⟩
  · rfl
  · rw [List.length_append, List.length_append, List.length_singleton, List.length_singleton]

theorem Agree.cons (c : Cell) (h : Agree X Y) : Agree (c :: X) (c :: Y) := by
  rcases h with rfl | ⟨p, rfl, rfl⟩
  · exact .inl rfl
  · exact .inr ⟨c :: p, rfl, rfl⟩

theorem Stores.length_le (h : Stores z X l) : X.length ≤ l.length := by
  induction h with
  | nil => exact Nat.le_refl 0
  | fixed a _ ih => exact Nat.succ_le_succ ih
  | terminated _ _ ih =>
    rw [List.length_append, List.length_cons, List.length_cons]
    omega

theorem Stores.append {X' : List Cell} {l' : List α} (h : Stores z X l) (h' : Stores z X' l') :
    Stores z (X ++ X') (l ++ l') := by
  induction h with
  | nil => exact h'
  | fixed a _ ih => exact .fixed a ih
  | terminated hs _ ih =>
    rw [List.append_assoc]
    exact .terminated hs ih

/-- What fills two layouts one behind the other is what fills each of them. -/
theorem Stores.split {X' : List Cell} : ∀ {X : List Cell} {l : List α}, Stores z (X ++ X') l →
    ∃ l1 l2, l = l1 ++ l2 ∧ Stores z X l1 ∧ Stores z X' l2
  | [], l, h => ⟨[], l, rfl, .nil, h⟩
  | .fixed :: X, _, .fixed a h => by
    obtain ⟨l1, l2, rfl, h1, h2⟩ := Stores.split h
    exact ⟨a :: l1, l2, rfl, .fixed a h1, h2⟩
  | .terminated :: X, _, .terminated hs h => by
    obtain ⟨l1, l2, rfl, h1, h2⟩ := Stores.split h
    exact ⟨_ ++ z :: l1, l2, by rw [List.append_assoc, List.cons_append], .terminated hs h1, h2⟩

theorem Stores.fixed_length : ∀ {n : ℕ} {l : List α}, Stores z (List.replicate n .fixed) l → l.length = n
  | 0, _, .nil => rfl
  | n + 1, _, .fixed a h => by rw [List.length_cons, Stores.fixed_length h]

theorem Stores.replicate : ∀ l : List α, Stores z (List.replicate l.length .fixed) l
  | [] => .nil
  | a :: l => .fixed a (Stores.replicate l)

/-- Layouts can be filled. -/
theorem exists_stores (z : α) : ∀ X : List Cell, ∃ l, Stores z X l ∧ l.length = X.length
  | [] => ⟨[], .nil, rfl⟩
  | .fixed :: X => by
    obtain ⟨l, hl, hlen⟩ := exists_stores z X
    exact ⟨z :: l, .fixed z hl, by rw [List.length_cons, List.length_cons, hlen]⟩
  | .terminated :: X => by
    obtain ⟨l, hl, hlen⟩ := exists_stores z X
    exact ⟨[] ++ z :: l, .terminated List.not_mem_nil hl,
      by rw [List.nil_append, List.length_cons, List.length_cons, hlen]⟩

/-! ### Reading -/

section Reading

variable [DecidableEq α]

/-- The front of `l` that is taken for a terminated string: the last element ends it
like a terminator. -/
def front (z : α) (l : List α) : List α := l.dropLast.takeWhile (· ≠ z)

/-- What a reader with the layout `Y` leaves of `l`, if there is something for every
cell. -/
def takes (z : α) : List Cell → List α → Option (List α)
  | [], l => some l
  | .fixed :: _, [] => none
  | .fixed :: Y, _ :: l => takes z Y l
  | .terminated :: _, [] => none
  | .terminated :: Y, l => takes z Y (l.drop ((front z l).length + 1))

theorem takes_terminated {a : α} (l : List α) :
    takes z (.terminated :: Y) (a :: l) = takes z Y ((a :: l).drop ((front z (a :: l)).length + 1)) := rfl

/-- A reader takes elements for as many fixed cells. -/
theorem takes_replicate : ∀ (n : ℕ) (l : List α),
    takes z (List.replicate n .fixed ++ Y) l = if n ≤ l.length then takes z Y (l.drop n) else none
  | 0, l => by rw [if_pos (Nat.zero_le _)]; rfl
  | n + 1, [] => rfl
  | n + 1, a :: l => by
    have ih := takes_replicate n l
    rw [List.replicate_succ, List.cons_append, takes, ih, List.length_cons, List.drop_succ_cons]
    by_cases h : n ≤ l.length
    · rw [if_pos h, if_pos (Nat.succ_le_succ h)]
    · rw [if_neg h, if_neg fun h' => h (Nat.le_of_succ_le_succ h')]

/-- A terminated string is read up to its terminator. -/
theorem front_append (hs : z ∉ s) (l : List α) : front z (s ++ z :: l) = s := by
  unfold front
  rw [List.dropLast_append_of_ne_nil (List.cons_ne_nil z l),
    List.takeWhile_append_of_pos fun a ha => by simpa using fun h : a = z => hs (h ▸ ha)]
  cases l with
  | nil => exact List.append_nil s
  | cons b l =>
    rw [List.dropLast_cons_of_ne_nil (List.cons_ne_nil b l), List.takeWhile_cons_of_neg (by simp),
      List.append_nil]

/-- A reader takes a terminated string with its terminator. -/
theorem takes_append (hs : z ∉ s) (l : List α) : takes z (.terminated :: Y) (s ++ z :: l) = takes z Y l := by
  have hfront := front_append hs l
  cases s with
  | nil =>
    rw [List.nil_append] at hfront ⊢
    rw [takes_terminated, hfront]
    rfl
  | cons a s =>
    rw [List.cons_append] at hfront ⊢
    rw [takes_terminated, hfront, ← List.cons_append, ← List.drop_drop, List.drop_left]
    rfl

theorem takes_all (h : Stores z X l) : takes z X l = some [] := by
  induction h with
  | nil => rfl
  | fixed a _ ih => exact ih
  | terminated hs _ ih => rw [takes_append hs, ih]

theorem takes_of_agree (h : Agree X Y) (hl : Stores z X l) : takes z Y l = some [] := by
  rcases h with rfl | ⟨p, rfl, rfl⟩
  · exact takes_all hl
  · generalize hX : p ++ [Cell.fixed] = X at hl
    induction hl generalizing p with
    | nil => simp at hX
    | fixed a hl ih =>
      cases p with
      | nil =>
        obtain rfl := (List.cons.inj hX).2
        cases hl
        rfl
      | cons c p =>
        obtain ⟨rfl, htail⟩ := List.cons.inj hX
        exact ih p htail
    | terminated hs hl ih =>
      cases p with
      | nil => cases (List.cons.inj hX).1
      | cons c p =>
        obtain ⟨rfl, htail⟩ := List.cons.inj hX
        rw [List.cons_append, takes_append hs, ih p htail]

/-- The reader takes up everything of at most `X.length + Y.length` elements. -/
def TakesUp (z : α) (X Y : List Cell) : Prop :=
  ∀ l, Stores z X l → l.length ≤ X.length + Y.length → takes z Y l = some []

/-- A first string that may be empty, or not, tells it from an element. -/
theorem agree_of_takesUp {a : α} (ha : a ≠ z) : ∀ {Y X : List Cell}, TakesUp z X Y → Agree X Y
  | [], X, h => by
    obtain ⟨l, hl, hlen⟩ := exists_stores z X
    have hnil : l = [] := Option.some.inj (h l hl (by omega))
    rw [hnil, List.length_nil] at hlen
    exact .inl (List.length_eq_zero_iff.mp hlen.symm)
  | .fixed :: Y, [], h => by cases h [] .nil (Nat.zero_le _)
  | .fixed :: Y, .fixed :: X, h => by
    apply Agree.cons
    apply agree_of_takesUp ha
    intro l hl hlen
    exact h (z :: l) (.fixed z hl) (by simp only [List.length_cons]; omega)
  | .fixed :: Y, .terminated :: X, h => by
    -- behind an empty string, and inside another one, the others read the same
    have hempty : Agree X Y := by
      apply agree_of_takesUp ha
      intro l hl hlen
      exact h ([] ++ z :: l) (.terminated List.not_mem_nil hl)
        (by simp only [List.nil_append, List.length_cons]; omega)
    have hinside : Agree (.terminated :: X) Y := by
      apply agree_of_takesUp ha
      intro l hl hlen
      cases hl with
      | terminated hs hl =>
        refine h (a :: _) (.terminated (s := a :: _) ?_ hl) (by simp only [List.length_cons] at hlen ⊢; omega)
        rw [List.mem_cons, not_or]
        exact ⟨ha.symm, hs⟩
    have hlen := hempty.length.trans hinside.length.symm
    rw [List.length_cons] at hlen
    omega
  | .terminated :: Y, [], h => by cases h [] .nil (Nat.zero_le _)
  | .terminated :: Y, .terminated :: X, h => by
    apply Agree.cons
    apply agree_of_takesUp ha
    intro l hl hlen
    rw [← takes_append (s := []) List.not_mem_nil]
    exact h ([] ++ z :: l) (.terminated List.not_mem_nil hl)
      (by simp only [List.nil_append, List.length_cons]; omega)
  | .terminated :: Y, .fixed :: X, h => by
    -- an element that is a terminator is a string
    have hfirst : Agree X Y := by
      apply agree_of_takesUp ha
      intro l hl hlen
      rw [← takes_append (s := []) List.not_mem_nil]
      exact h (z :: l) (.fixed z hl) (by simp only [List.length_cons]; omega)
    cases X with
    | nil =>
      obtain rfl : Y = [] := List.length_eq_zero_iff.mp hfirst.length.symm
      exact .inr ⟨[], rfl, rfl⟩
    | cons c X =>
      -- and one that is not goes on to the next one
      have hsecond : Agree X Y := by
        apply agree_of_takesUp ha
        intro l hl hlen
        rw [← takes_append (s := [a]) (by simpa using ha.symm)]
        have hlen' : ([a] ++ z :: l).length ≤
            (Cell.fixed :: c :: X).length + (Cell.terminated :: Y).length := by
          simp only [List.length_append, List.length_cons, List.length_nil]
          omega
        cases c with
        | fixed => exact h _ (.fixed a (.fixed z hl)) hlen'
        | terminated => exact h _ (.fixed a (.terminated (s := []) List.not_mem_nil hl)) hlen'
      have hlen := hfirst.length.trans hsecond.length.symm
      rw [List.length_cons] at hlen
      omega

/-- **A reader takes up what was stored**, whatever that is, when the layouts agree. -/
theorem takesUp_iff {a : α} (ha : a ≠ z) : TakesUp z X Y ↔ Agree X Y :=
  ⟨agree_of_takesUp ha, fun h _ hl _ => takes_of_agree h hl⟩

end Reading

end Layout
