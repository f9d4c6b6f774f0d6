/-
# Reading cells that nobody wrote

A ring that has not been filled has cells that are still zero, and no reader takes
one of them for the start of an entry. A walk that comes upon such a cell writes a
notice, and stays where it is if the next entry is behind its range, or there is
none at all (`walkStep_blank`).

The ring may be smaller than the longest entry: `Fitting` are the entries that a
reader can copy.

Key definitions: `RingBuffer.Blank`, `RingBuffer.Fitting`.
-/
import Memlog.Walk

namespace Memlog

open Circular ByteCodec

/-- The cell of position `q` is zero. -/
def RingBuffer.Blank (rb : RingBuffer) (q : ℕ) : Prop := rb.buffer (q % rb.size) = 0

/-- There is an entry at position `q`, and it fits the ring. -/
def RingBuffer.Fitting (rb : RingBuffer) (q : ℕ) : Prop :=
  ∃ entry, rb.entryAt q = some entry ∧ entry.length ≤ rb.size

namespace Log

variable (env : Env) {log : Log} {q : ℕ}

theorem read_blank (h : log.ringBuffer.Blank q) :
    read log.ringBuffer.size log.ringBuffer.buffer q 4 ≠ leBytes 4 START_PATTERN.toNat := by
  intro heq
  have hhead := congrArg (·[0]?) heq
  rw [getElem?_read (by decide), Nat.add_zero, h] at hhead
  exact absurd hhead (by decide)

theorem getLog_blank (hS : log.ringBuffer.size < 2147483648) (h56 : 56 ≤ log.ringBuffer.size)
    (h : log.ringBuffer.Blank q) (buf : List UInt8) :
    ∃ st, log.getLog q buf = .ok (false, buf, { log with stats := st }) := by
  have hq := Nat.mod_lt q log.ringBuffer.size_pos
  have hmod : q % log.ringBuffer.size % log.ringBuffer.size = q % log.ringBuffer.size := Nat.mod_mod _ _
  have hget : log.ringBuffer.get (log.ringBuffer.normalize q) Header.size =
      .ok (read log.ringBuffer.size log.ringBuffer.buffer q 56) := by
    rw [RingBuffer.normalize, Header.size, log.ringBuffer.get_eq h56 (by omega), read_congr hmod]
  unfold getLog
  simp only [hget, Loop.ok_bind]
  exact ⟨_, if_pos fun hpattern => read_blank h (read_of_pattern hpattern)⟩

theorem printAtIndex_blank (hS : log.ringBuffer.size < 2147483648) (h56 : 56 ≤ log.ringBuffer.size)
    (h : log.ringBuffer.Blank q) (dst : List UInt8) (hdr : Header) :
    ∃ log', printAtIndex env log q dst false hdr = .ok ⟨true, overlay [0] dst, q, hdr, 0, log'⟩ ∧
      log.Same log' := by
  obtain ⟨st, hget⟩ := getLog_blank hS h56 h (stackBuffer env)
  refine ⟨{ log with stats := { st with printFallCount := st.printFallCount + 1 } }, ?_, ⟨_, rfl⟩⟩
  simp [printAtIndex, spin, hget]

/-- A search that ends has found a start pattern, or no entry that fits the ring. -/
theorem getNextHeader_inv {buf buf' : Option (List UInt8)} {i : ℕ} {log' : Log}
    (hS : log.ringBuffer.size < 2147483648) (hq : q + log.ringBuffer.size < 4294967296)
    (h : getNextHeader env log q buf = .ok (i, buf', log')) :
    log.Same log' ∧
      ((q ≤ i ∧ read log.ringBuffer.size log.ringBuffer.buffer i 4 = leBytes 4 START_PATTERN.toNat) ∨
        (i = 0 ∧ ∀ j ≤ log.ringBuffer.size, ¬ log.ringBuffer.Fitting (q + j))) := by
  -- nothing that fits has been passed
  let I : Search → Prop := fun s => log.Same s.log ∧ s.index = q + s.loop ∧ s.loop ≤ log.ringBuffer.size ∧
    ∀ j < s.loop, ¬ log.ringBuffer.Fitting (q + j)
  let P : ℕ × Option (List UInt8) × Log → Prop := fun r => log.Same r.2.2 ∧
    ((q ≤ r.1 ∧ read log.ringBuffer.size log.ringBuffer.buffer r.1 4 = leBytes 4 START_PATTERN.toNat) ∨
      (r.1 = 0 ∧ ∀ j ≤ log.ringBuffer.size, ¬ log.ringBuffer.Fitting (q + j)))
  have hround : ∀ s r, I s → searchStep env s = .ok r → (∀ s', r = .again s' → I s') ∧
      ∀ b, r = .done b → P b := by
    rintro s r ⟨hs, hindex, hloop, hpassed⟩ hstep
    have hrb := hs.ringBuffer
    by_cases hfit : log.ringBuffer.Fitting s.index
    · obtain ⟨entry, hentry, hlen⟩ := hfit
      have hdone := searchStep_some env (s := s) (by rw [hrb]; exact hS) (by rw [hrb]; exact hlen)
        (by rw [hrb]; exact hentry)
      rw [hdone] at hstep
      cases hstep
      refine ⟨fun s' h => (by cases h), fun b hb => ?_⟩
      cases hb
      exact ⟨hs.trans ⟨_, rfl⟩, .inl ⟨by simp only; omega, read_pattern hentry⟩⟩
    · have hpassed' : ∀ j ≤ s.loop, ¬ log.ringBuffer.Fitting (q + j) := by
        intro j hj
        rcases Nat.eq_or_lt_of_le hj with rfl | hlt
        · rwa [← hindex]
        · exact hpassed j hlt
      obtain ⟨buf1, log1, hs1, ⟨rfl, hpattern⟩ | rfl⟩ := searchStep_inv env hstep
      · refine ⟨fun s' h => (by cases h), fun b hb => ?_⟩
        cases hb
        rw [hrb] at hpattern
        exact ⟨hs.trans hs1, .inl ⟨by simp only; omega, hpattern⟩⟩
      · have hsame := hs.trans hs1
        have hsize : log1.ringBuffer.size = log.ringBuffer.size := by rw [hsame.ringBuffer]
        rw [Search.advance]
        by_cases hfull : log1.ringBuffer.size < s.loop + 1
        · rw [if_pos hfull]
          refine ⟨fun s' h => (by cases h), fun b hb => ?_⟩
          cases hb
          exact ⟨hsame.trans ⟨_, rfl⟩, .inr ⟨rfl, fun j hj => hpassed' j (by omega)⟩⟩
        · rw [if_neg hfull]
          refine ⟨fun s' h => ?_, fun b h => (by cases h)⟩
          cases h
          refine ⟨hsame, ?_, by simp only; omega, fun j hj => hpassed' j (by simp only at hj; omega)⟩
          simp only
          rw [u32_of_lt (by omega), hindex]
          omega
  have hP := Loop.run_partial I P (fun s b hI hstep => (hround s _ hI hstep).2 b rfl)
    (fun s s' hI hstep => (hround s _ hI hstep).1 s' rfl)
    (show I ⟨q, 0, buf, log⟩ from ⟨Same.refl _, rfl, Nat.zero_le _,
      fun j hj => absurd hj (Nat.not_lt_zero j)⟩) h
  exact hP

/-- A round of the walk on a blank cell, in a range that is blank from there on: the
walk ends there, with a notice, or starts over in a ring without entries. -/
theorem walkStep_blank {last : ℕ} {w : Walk} {r : Loop.Next Walk Walk}
    (hS : w.log.ringBuffer.size < 2147483648) (h56 : 56 ≤ w.log.ringBuffer.size)
    (hlast : last ≤ w.log.ringBuffer.size) (hin : w.i < last)
    (hblank : ∀ x, w.i ≤ x → x ≤ last → w.log.ringBuffer.Blank x)
    (h : walkStep env last true w = .ok r) :
    ∃ w' t, w.log.Same w'.log ∧ w'.out = w.out ++ [.notice t] ∧
      ((w'.i = w.i ∧ r = .done w') ∨
        (w'.i = 0 ∧ r = .again w' ∧ ∀ j ≤ w.log.ringBuffer.size, ¬ w.log.ringBuffer.Fitting (w.i + j))) := by
  obtain ⟨log1, hprint, hs1⟩ :=
    printAtIndex_blank env hS h56 (hblank w.i (Nat.le_refl _) hin.le) w.traceBuffer
    w.printedHeader
  have hrb := hs1.ringBuffer
  unfold walkStep at h
  rw [if_neg (not_not.mpr hin), show (!true) = false from rfl, hprint] at h
  simp only [Loop.ok_bind, if_true] at h
  obtain ⟨⟨new_i, buf, log2⟩, hnext, h⟩ := Loop.bind_eq_ok.mp h
  obtain ⟨hs2, hfound⟩ := getNextHeader_inv env (by rw [hrb]; exact hS) (by rw [hrb]; omega) hnext
  rw [hrb] at hfound
  simp only [not_true_eq_false, if_false] at h
  rcases hfound with ⟨hge, hpattern⟩ | ⟨rfl, hnone⟩
  · -- the next entry is behind the range
    have hout : last < new_i := by
      by_contra hle
      exact read_blank (hblank new_i hge (by omega)) hpattern
    generalize noticeText env log2 (Header.ofBytes (buf.getD (overlay [0] w.traceBuffer))) new_i
      w.printedHeader = t at h
    rw [if_pos hout] at h
    exact ⟨⟨w.i, overlay (t ++ [0]) (buf.getD (overlay [0] w.traceBuffer)), w.printedHeader, log2,
      w.out ++ [.notice t]⟩, t, hs1.trans hs2, rfl, .inl ⟨rfl, (Except.ok.inj h).symm⟩⟩
  · generalize noticeText env log2 (Header.ofBytes (buf.getD (overlay [0] w.traceBuffer))) 0
      w.printedHeader = t at h
    rw [if_neg (Nat.not_lt_zero _)] at h
    exact ⟨⟨0, overlay (t ++ [0]) (buf.getD (overlay [0] w.traceBuffer)), w.printedHeader, log2,
      w.out ++ [.notice t]⟩, t, hs1.trans hs2, rfl, .inr ⟨rfl, (Except.ok.inj h).symm, hnone⟩⟩

end Log

end Memlog
