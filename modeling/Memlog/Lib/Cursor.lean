/-
# Consumers that share a cursor

A journal grows at its end, and a front of it is published. Any number of consumers
copy it to an output; they share one cursor, the place up to which it has been copied.
A consumer reads how much is published and looks whether the cursor is there already.
If not it looks again: from a cursor before what it has read it copies the items between
the two one by one; if the cursor is not before it, it first copies items of its own
choice and then the journal from the start. It stores where it has arrived as the new
cursor.

Between these steps others may go ahead, so an item may be copied twice, and the
cursor may go back. But no item is passed over: what lies before the cursor has been
copied, in every interleaving (`Inv.covered`). If a consumer begins only when no other
is under way, each item is copied once, in order (`Sole.written`).

Key definitions: `State`, `Step`, `Covered`, `Inv`, `Sole`.
Key theorems: `Steps.grows`, `Steps.inv`, `Steps.sole`.
-/
import Mathlib.Data.Nat.Notation
import Mathlib.Logic.Function.Basic
import Mathlib.Logic.Relation
import Mathlib.Order.Nat
import Mathlib.Tactic.Common

namespace Cursor

variable {α T : Type} [DecidableEq T]

/-- Where a consumer stands: outside, behind its first read, behind its first look at the
cursor, copying what it likes, at item `i` on the way to `stop`. -/
inductive Pc where
  | idle
  | loaded (stop : ℕ)
  | differs (stop : ℕ)
  | rewinding (stop : ℕ)
  | walking (i stop : ℕ)
deriving DecidableEq

/-- The journal, how much of it is published, the cursor, what was copied, and the
consumers. -/
structure State (α T : Type) where
  journal : List α
  published : ℕ
  cursor : ℕ
  written : List α
  pc : T → Pc

def State.goto (s : State α T) (t : T) (p : Pc) : State α T := { s with pc := Function.update s.pc t p }

/-- The steps; `P` is the condition under which a consumer begins. -/
inductive Step (P : State α T → Prop) : State α T → State α T → Prop
  | append {s} (a : α) : Step P s { s with journal := s.journal ++ [a] }
  | publish {s n} : s.published ≤ n → n ≤ s.journal.length → Step P s { s with published := n }
  | load {s t} : s.pc t = .idle → P s → Step P s (s.goto t (.loaded s.published))
  | skip {s t stop} : s.pc t = .loaded stop → s.cursor = stop → Step P s (s.goto t (.walking stop stop))
  | differ {s t stop} : s.pc t = .loaded stop → s.cursor ≠ stop → Step P s (s.goto t (.differs stop))
  | start {s t stop} : s.pc t = .differs stop → s.cursor < stop → Step P s (s.goto t (.walking s.cursor stop))
  | rewind {s t stop} : s.pc t = .differs stop → stop ≤ s.cursor → Step P s (s.goto t (.rewinding stop))
  | rewrite {s t stop a} : s.pc t = .rewinding stop → a ∈ s.journal →
      Step P s { s with written := s.written ++ [a] }
  | restart {s t stop} : s.pc t = .rewinding stop → Step P s (s.goto t (.walking 0 stop))
  | next {s t i stop a} : s.pc t = .walking i stop → i < stop → s.journal[i]? = some a →
      Step P s { s.goto t (.walking (i + 1) stop) with written := s.written ++ [a] }
  | store {s t stop} : s.pc t = .walking stop stop → Step P s { s.goto t .idle with cursor := stop }

/-- Runs. -/
abbrev Steps (P : State α T → Prop) : State α T → State α T → Prop := Relation.ReflTransGen (Step P)

variable {P : State α T → Prop} {s s' : State α T} {t t' : T} {base : ℕ}

@[simp] theorem goto_pc (p : Pc) : (s.goto t p).pc t = p := Function.update_self ..

theorem goto_pc_of_ne (h : t' ≠ t) (p : Pc) : (s.goto t p).pc t' = s.pc t' := Function.update_of_ne h ..

theorem goto_pc_cases {p q : Pc} (h : (s.goto t p).pc t' = q) :
    (t' = t ∧ p = q) ∨ (t' ≠ t ∧ s.pc t' = q) := by
  by_cases ht : t' = t
  · subst ht
    exact .inl ⟨rfl, (goto_pc p).symm.trans h⟩
  · exact .inr ⟨ht, (goto_pc_of_ne ht p).symm.trans h⟩

/-- Nothing that was appended, published or copied is taken back. -/
structure Grows (s s' : State α T) : Prop where
  journal : s.journal <+: s'.journal
  published : s.published ≤ s'.published
  written : s.written <+: s'.written

theorem Step.grows (h : Step P s s') : Grows s s' := by
  cases h with
  | append a => exact ⟨List.prefix_append _ _, le_rfl, List.prefix_refl _⟩
  | publish hle _ => exact ⟨List.prefix_refl _, hle, List.prefix_refl _⟩
  | rewrite _ _ => exact ⟨List.prefix_refl _, le_rfl, List.prefix_append _ _⟩
  | next _ _ _ => exact ⟨List.prefix_refl _, le_rfl, List.prefix_append _ _⟩
  | load _ _ => exact ⟨List.prefix_refl _, le_rfl, List.prefix_refl _⟩
  | skip _ _ => exact ⟨List.prefix_refl _, le_rfl, List.prefix_refl _⟩
  | differ _ _ => exact ⟨List.prefix_refl _, le_rfl, List.prefix_refl _⟩
  | start _ _ => exact ⟨List.prefix_refl _, le_rfl, List.prefix_refl _⟩
  | rewind _ _ => exact ⟨List.prefix_refl _, le_rfl, List.prefix_refl _⟩
  | restart _ => exact ⟨List.prefix_refl _, le_rfl, List.prefix_refl _⟩
  | store _ => exact ⟨List.prefix_refl _, le_rfl, List.prefix_refl _⟩

theorem Steps.grows (h : Steps P s s') : Grows s s' := by
  induction h with
  | refl => exact ⟨List.prefix_refl _, le_rfl, List.prefix_refl _⟩
  | tail _ hstep ih =>
    have hg := hstep.grows
    exact ⟨ih.journal.trans hg.journal, ih.published.trans hg.published, ih.written.trans hg.written⟩

/-! ### Nothing is passed over -/

/-- The items from `base` up to `i` are among what was copied. -/
def Covered (base i : ℕ) (s : State α T) : Prop :=
  ∀ k, base ≤ k → k < i → ∃ a ∈ s.written, s.journal[k]? = some a

omit [DecidableEq T] in
theorem Covered.grows {i : ℕ} (h : Covered base i s) (hg : Grows s s') : Covered base i s' := by
  intro k hk hi
  obtain ⟨a, ha, hget⟩ := h k hk hi
  refine ⟨a, hg.written.subset ha, ?_⟩
  obtain ⟨rest, hrest⟩ := hg.journal
  rw [← hrest, List.getElem?_append_left (List.getElem?_eq_some_iff.mp hget).1, hget]

/-- How much of the journal a consumer has read as published. -/
def Pc.stop : Pc → ℕ
  | .idle => 0
  | .loaded stop => stop
  | .differs stop => stop
  | .rewinding stop => stop
  | .walking _ stop => stop

/-- What holds in every state. -/
structure Inv (base : ℕ) (s : State α T) : Prop where
  published_le : s.published ≤ s.journal.length
  cursor_le : s.cursor ≤ s.published
  written : s.written ⊆ s.journal
  covered : Covered base s.cursor s
  stops : ∀ t, (s.pc t).stop ≤ s.published
  walks : ∀ t i stop, s.pc t = .walking i stop → i ≤ stop ∧ Covered base i s

/-- A consumer that goes on without touching what is shared. -/
theorem Inv.goto {p : Pc} (h : Inv base s) (hstop : p.stop ≤ s.published)
    (hwalk : ∀ i stop, p = .walking i stop → i ≤ stop ∧ Covered base i s) : Inv base (s.goto t p) where
  published_le := h.published_le
  cursor_le := h.cursor_le
  written := h.written
  covered := h.covered
  stops t' := by
    rcases goto_pc_cases (show (s.goto t p).pc t' = _ from rfl) with ⟨-, hp⟩ | ⟨-, hp⟩
    · rw [← hp]
      exact hstop
    · rw [← hp]
      exact h.stops t'
  walks t' i stop hpc := by
    rcases goto_pc_cases hpc with ⟨-, hp⟩ | ⟨-, hp⟩
    · exact hwalk i stop hp
    · exact h.walks t' i stop hp

omit [DecidableEq T] in
/-- More is published or copied. -/
theorem Inv.grows (h : Inv base s) (hg : Grows s s') (hpublished : s'.published ≤ s'.journal.length)
    (hwritten : s'.written ⊆ s'.journal) (hcursor : s'.cursor = s.cursor) (hpc : s'.pc = s.pc) :
    Inv base s' where
  published_le := hpublished
  cursor_le := hcursor ▸ h.cursor_le.trans hg.published
  written := hwritten
  covered := hcursor ▸ h.covered.grows hg
  stops t := by
    rw [hpc]
    exact (h.stops t).trans hg.published
  walks t i stop hwalk := by
    rw [hpc] at hwalk
    exact (h.walks t i stop hwalk).imp_right fun hc => hc.grows hg

theorem Step.inv (h : Step P s s') (hi : Inv base s) : Inv base s' := by
  have hg := h.grows
  have hstop : ∀ {t p} {q : Pc}, s.pc t = p → q.stop = p.stop → q.stop ≤ s.published := by
    rintro t _ q rfl hq
    exact hq ▸ hi.stops t
  cases h with
  | append a =>
    exact hi.grows hg (hi.published_le.trans (by simp))
      (List.subset_append_of_subset_left _ hi.written) rfl rfl
  | publish hle hlen => exact hi.grows hg hlen hi.written rfl rfl
  | rewrite _ ha =>
    exact hi.grows hg hi.published_le (List.append_subset.mpr ⟨hi.written, by simpa using ha⟩) rfl rfl
  | load _ _ => exact hi.goto le_rfl nofun
  | differ hpc _ => exact hi.goto (hstop hpc rfl) nofun
  | rewind hpc _ => exact hi.goto (hstop hpc rfl) nofun
  | skip hpc heq =>
    refine hi.goto (hstop hpc rfl) fun i stop' hp => ?_
    obtain ⟨rfl, rfl⟩ := Pc.walking.inj hp
    exact ⟨le_rfl, heq ▸ hi.covered⟩
  | start hpc hlt =>
    refine hi.goto (hstop hpc rfl) fun i stop' hp => ?_
    obtain ⟨rfl, rfl⟩ := Pc.walking.inj hp
    exact ⟨hlt.le, hi.covered⟩
  | restart hpc =>
    refine hi.goto (hstop hpc rfl) fun i stop' hp => ?_
    obtain ⟨rfl, rfl⟩ := Pc.walking.inj hp
    exact ⟨Nat.zero_le _, fun k _ hk => absurd hk (Nat.not_lt_zero k)⟩
  | @next t i stop a hpc hlt hget =>
    have hgrown : Inv base { s with written := s.written ++ [a] } := hi.grows
      ⟨List.prefix_refl _, le_rfl, List.prefix_append _ _⟩ hi.published_le
      (List.append_subset.mpr ⟨hi.written, by simpa using List.mem_of_getElem? hget⟩) rfl rfl
    refine hgrown.goto (hstop hpc rfl) fun j stop' hp => ?_
    obtain ⟨rfl, rfl⟩ := Pc.walking.inj hp
    refine ⟨hlt, fun k hk hki => ?_⟩
    rcases Nat.lt_succ_iff_lt_or_eq.mp hki with hki | rfl
    · exact (hgrown.walks t i stop hpc).2 k hk hki
    · exact ⟨a, by simp, hget⟩
  | @store t stop hpc =>
    have hidle := hi.goto (t := t) (p := .idle) (Nat.zero_le _) nofun
    exact ⟨hidle.published_le, hstop (q := .walking stop stop) hpc rfl, hidle.written,
      (hi.walks t stop stop hpc).2, hidle.stops, hidle.walks⟩

theorem Steps.inv (h : Steps P s s') (hi : Inv base s) : Inv base s' := by
  induction h with
  | refl => exact hi
  | tail _ hstep ih => exact hstep.inv ih

omit [DecidableEq T] in
/-- No consumer is under way, and the cursor is where the copying starts. -/
theorem Inv.start (hidle : ∀ t, s.pc t = .idle) (hle : s.cursor ≤ s.published)
    (hlen : s.published ≤ s.journal.length) (hwritten : s.written = []) : Inv s.cursor s where
  published_le := hlen
  cursor_le := hle
  written := by
    rw [hwritten]
    exact List.nil_subset _
  covered k hk hlt := absurd hlt (Nat.not_lt.mpr hk)
  stops t := by
    rw [hidle t]
    exact Nat.zero_le _
  walks t i stop hpc := by
    rw [hidle t] at hpc
    cases hpc

/-- Consumer `t` has not begun, or has read at least `n` as published. -/
def Reads (n : ℕ) (s : State α T) (t : T) : Prop := s.pc t = .idle ∨ n ≤ (s.pc t).stop

theorem Reads.goto {n : ℕ} {p : Pc} (h : Reads n s t) (hp : p = .idle ∨ n ≤ p.stop) :
    Reads n (s.goto t' p) t := by
  by_cases ht : t = t'
  · subst ht
    rw [Reads, goto_pc]
    exact hp
  · rw [Reads, goto_pc_of_ne ht]
    exact h

/-- What a consumer reads from now on is at least what is published now. -/
theorem Step.reads {n : ℕ} (h : Step P s s') (hn : n ≤ s.published) (hr : Reads n s t) : Reads n s' t := by
  have hgoto : ∀ {t' p q}, s.pc t' = p → p ≠ .idle → q.stop = p.stop → Reads n (s.goto t' q) t := by
    intro t' p q hpc hp hq
    by_cases ht : t = t'
    · subst ht
      exact hr.goto (.inr (by rw [hq, ← hpc]; exact hr.resolve_left (hpc ▸ hp)))
    · rw [Reads, goto_pc_of_ne ht]
      exact hr
  cases h with
  | append _ => exact hr
  | publish _ _ => exact hr
  | rewrite _ _ => exact hr
  | load _ _ => exact hr.goto (.inr hn)
  | skip hpc _ => exact hgoto hpc nofun rfl
  | differ hpc _ => exact hgoto hpc nofun rfl
  | start hpc _ => exact hgoto hpc nofun rfl
  | rewind hpc _ => exact hgoto hpc nofun rfl
  | restart hpc => exact hgoto hpc nofun rfl
  | next hpc _ _ => exact hgoto hpc nofun rfl
  | store _ => exact hr.goto (.inl rfl)

/-! ### One consumer at a time -/

/-- No consumer is under way. -/
def Alone (s : State α T) : Prop := ∀ t, s.pc t = .idle

/-- Consumer `t` is under way, and no other. -/
def Only (s : State α T) (t : T) (p : Pc) : Prop := s.pc t = p ∧ ∀ t', t' ≠ t → s.pc t' = .idle

/-- How far the copying has come, `n`, as the one consumer under way knows it. -/
def Pc.Copied (n cursor : ℕ) : Pc → Prop
  | .idle => n = cursor
  | .loaded stop => n = cursor ∧ cursor ≤ stop
  | .differs stop => n = cursor ∧ cursor < stop
  | .rewinding _ => False
  | .walking i _ => n = i

/-- What holds if each begins when no other is under way: `n` is how far the copying
has come, and what was copied are the items up to there, in order. -/
structure Sole (base n : ℕ) (s : State α T) : Prop where
  written : s.written = (s.journal.take n).drop base
  base_le : base ≤ n
  le_length : n ≤ s.journal.length
  phase : (Alone s ∧ n = s.cursor) ∨ ∃ t p, p ≠ .idle ∧ Only s t p ∧ p.Copied n s.cursor

omit [DecidableEq T] in
/-- A consumer that is not outside is the one under way. -/
theorem Sole.only {n : ℕ} {p : Pc} (h : Sole base n s) (ht : s.pc t = p) (hp : p ≠ .idle) :
    Only s t p ∧ p.Copied n s.cursor := by
  rcases h.phase with ⟨halone, -⟩ | ⟨t', q, -, ho, hn⟩
  · exact absurd (ht.symm.trans (halone t)) hp
  · obtain rfl : t = t' := by
      by_contra hne
      exact hp (ht.symm.trans (ho.2 t hne))
    obtain rfl : p = q := ht.symm.trans ho.1
    exact ⟨ho, hn⟩

omit [DecidableEq T] in
theorem Sole.alone {n : ℕ} (h : Sole base n s) (halone : Alone s) : n = s.cursor := by
  rcases h.phase with ⟨-, hn⟩ | ⟨t, p, hp, ho, -⟩
  · exact hn
  · exact absurd (ho.1.symm.trans (halone t)) hp

theorem Only.goto {p : Pc} (h : Only s t p) (q : Pc) : Only (s.goto t q) t q :=
  ⟨goto_pc q, fun t' hne => (goto_pc_of_ne hne q).trans (h.2 t' hne)⟩

theorem Sole.goto {n : ℕ} {p q : Pc} (h : Sole base n s) (ho : Only s t p) (hq : q ≠ .idle)
    (hn : q.Copied n s.cursor) :
    Sole base n (s.goto t q) :=
  ⟨h.written, h.base_le, h.le_length, .inr ⟨t, q, hq, ho.goto q, hn⟩⟩

omit [DecidableEq T] in
theorem Sole.start (hidle : Alone s) (hlen : s.cursor ≤ s.journal.length) (hwritten : s.written = []) :
    Sole s.cursor s.cursor s where
  written := by
    rw [hwritten, List.drop_eq_nil_of_le (by rw [List.length_take]; exact Nat.min_le_left _ _)]
  base_le := le_rfl
  le_length := hlen
  phase := .inl ⟨hidle, rfl⟩

theorem Step.sole {n : ℕ} (h : Step Alone s s') (hi : Inv base s) (hs : Sole base n s) :
    ∃ n, Sole base n s' := by
  cases h with
  | append a =>
    refine ⟨n, ?_, hs.base_le, ?_, hs.phase⟩
    · rw [List.take_append_of_le_length hs.le_length]
      exact hs.written
    · rw [List.length_append]
      exact Nat.le_add_right_of_le hs.le_length
  | publish _ _ => exact ⟨n, hs.written, hs.base_le, hs.le_length, hs.phase⟩
  | load hidle halone =>
    exact ⟨n, hs.goto ⟨hidle, fun t' _ => halone t'⟩ nofun ⟨hs.alone halone, hi.cursor_le⟩⟩
  | skip hpc heq =>
    obtain ⟨ho, hn, -⟩ := hs.only hpc nofun
    exact ⟨n, hs.goto ho nofun (hn.trans heq)⟩
  | differ hpc hne =>
    obtain ⟨ho, hn, hle⟩ := hs.only hpc nofun
    exact ⟨n, hs.goto ho nofun ⟨hn, Nat.lt_of_le_of_ne hle hne⟩⟩
  | start hpc _ =>
    obtain ⟨ho, hn, -⟩ := hs.only hpc nofun
    exact ⟨n, hs.goto ho nofun hn⟩
  | rewind hpc hle =>
    -- the cursor is before what the only consumer has read
    obtain ⟨-, -, hlt⟩ := hs.only hpc nofun
    exact absurd hlt (Nat.not_lt.mpr hle)
  | rewrite hpc _ => exact (hs.only hpc nofun).2.elim
  | restart hpc => exact (hs.only hpc nofun).2.elim
  | @next t i stop a hpc hlt hget =>
    obtain ⟨ho, rfl⟩ := hs.only hpc nofun
    have hlen := (List.getElem?_eq_some_iff.mp hget).1
    refine ⟨n + 1, ?_, Nat.le_succ_of_le hs.base_le, hlen,
      .inr ⟨t, .walking (n + 1) stop, nofun, ho.goto _, rfl⟩⟩
    have htake : base ≤ (s.journal.take n).length := by
      rw [List.length_take, Nat.min_eq_left hlen.le]
      exact hs.base_le
    change s.written ++ [a] = (s.journal.take (n + 1)).drop base
    rw [List.take_add_one, hget, Option.toList_some, List.drop_append_of_le_length htake, hs.written]
  | @store t stop hpc =>
    obtain ⟨ho, rfl⟩ := hs.only hpc nofun
    refine ⟨n, hs.written, hs.base_le, hs.le_length, .inl ⟨fun t' => ?_, rfl⟩⟩
    by_cases ht : t' = t
    · subst ht
      exact goto_pc .idle
    · exact (goto_pc_of_ne ht .idle).trans (ho.2 t' ht)

/-- **Each item once.** If each consumer begins when no other is under way, what was
copied are the items up to some place, in order. -/
theorem Steps.sole (h : Steps Alone s s') (hi : Inv base s) (hs : ∃ n, Sole base n s) :
    ∃ n, Sole base n s' := by
  induction h with
  | refl => exact hs
  | tail hsteps hstep ih =>
    obtain ⟨n, hn⟩ := ih
    exact hstep.sole (Steps.inv hsteps hi) hn

end Cursor
