/-
# What the collector writes

Runs of one thread that logs and collects in any order (`Run`). `done` are the
records logged before the last `collect`, `pend` those logged since; `Q` is what
a run may be told to log, and `P` the condition under which it collects.

`collect` writes the pending records up to the end of the ring and then those
from its start, each half with its own `dumpRange`. A record that lies across
the end of the ring belongs to neither half: the upper one drops it, the lower
one starts in its middle. Where no record does (`Unsplit`) and the lines pass
`dumpRange`'s assertion, every pending record is written, and no notice
(`collect_loses_nothing`).
-/
import Memlog.Collector
import Memlog.Walk

namespace Memlog

open Circular

/-! ### Runs -/

/-- Runs of one thread: the collector, the records logged before the last
`collect` and those logged since, and what was written to the stream. -/
inductive Run (env : Env) (S : ℕ) (h0 : 4096 ≤ S) (h1 : S < 2147483648) (Q : Call → Prop)
    (P : Collect → List Entry → List Entry → Prop) :
    Collect → List Entry → List Entry → List Chunk → Prop
  | new : Run env S h0 h1 Q P (Collect.new S (Nat.lt_of_lt_of_le (by decide) h0) h1) [] [] []
  | trace {c done pend out call log e} : Run env S h0 h1 Q P c done pend out → Q call →
      c.log.traceVargs env call = .ok (log, e) →
      Run env S h0 h1 Q P { c with log := log } done (pend ++ [e]) out
  | collect {c done pend out fuel c' new} : Run env S h0 h1 Q P c done pend out → P c done pend →
      c.collect env fuel = .ok (c', new) → Run env S h0 h1 Q P c' (done ++ pend) [] (out ++ new)

/-! ### Collecting with more fuel -/

theorem Log.dumpRange_mono {env : Env} {n m : ℕ} {log : Log} {start last : ℕ} {b : Bool}
    {r : ℕ × Log × List Chunk} (hnm : n ≤ m) (h : log.dumpRange env n start last b = .ok r) :
    log.dumpRange env m start last b = .ok r := by
  rw [dumpRange_eq] at h ⊢
  obtain ⟨w, hrun, hr⟩ := Loop.bind_eq_ok.mp h
  rw [Loop.run_mono hnm hrun, Loop.ok_bind]
  exact hr

/-- A `collect` that returns returns the same with more rounds allowed. -/
theorem Collect.collect_mono {env : Env} {n m : ℕ} {c : Collect} {r : Collect × List Chunk} (hnm : n ≤ m)
    (h : c.collect env n = .ok r) : c.collect env m = .ok r := by
  unfold collect at h ⊢
  by_cases h1 : c.log.ringBuffer.normalize c.collectorBookmark =
      c.log.ringBuffer.normalize c.log.bufLastWrittenIndex
  · simp only [if_pos h1] at h ⊢
    exact h
  by_cases h2 : c.log.ringBuffer.normalize c.collectorBookmark <
      c.log.ringBuffer.normalize c.log.bufLastWrittenIndex
  · simp only [if_neg h1, if_pos h2] at h ⊢
    obtain ⟨a, ha, hr⟩ := Loop.bind_eq_ok.mp h
    rw [Log.dumpRange_mono hnm ha]
    exact hr
  · simp only [if_neg h1, if_neg h2] at h ⊢
    obtain ⟨a, ha, h⟩ := Loop.bind_eq_ok.mp h
    obtain ⟨b, hb, hr⟩ := Loop.bind_eq_ok.mp h
    rw [Log.dumpRange_mono hnm ha, Loop.ok_bind, Log.dumpRange_mono hnm hb]
    exact hr

/-- What a `collect` that returns did: nothing, one range, or two. -/
theorem Collect.collect_cases {env : Env} {S fuel : ℕ} {c c' : Collect} {new : List Chunk}
    (hS : c.log.ringBuffer.size = S) (h : c.collect env fuel = .ok (c', new)) :
    (c.collectorBookmark % S = c.log.bufLastWrittenIndex % S ∧
      c' = { c with collectorBookmark := c.log.bufLastWrittenIndex } ∧ new = []) ∨
    (c.collectorBookmark % S < c.log.bufLastWrittenIndex % S ∧ ∃ i log,
      c.log.dumpRange env fuel c.collectorBookmark (u32Sub c.log.bufLastWrittenIndex 1) true =
        .ok (i, log, new) ∧
      c' = ⟨log, i⟩) ∨
    (c.log.bufLastWrittenIndex % S < c.collectorBookmark % S ∧ ∃ i log top i' log' bottom,
      c.log.dumpRange env fuel c.collectorBookmark (u32Sub S 1) true = .ok (i, log, top) ∧
      log.dumpRange env fuel 0 (u32Sub c.log.bufLastWrittenIndex 1) true = .ok (i', log', bottom) ∧
      c' = ⟨log', i'⟩ ∧ new = top ++ bottom) := by
  subst hS
  unfold collect at h
  by_cases h1 : c.log.ringBuffer.normalize c.collectorBookmark =
      c.log.ringBuffer.normalize c.log.bufLastWrittenIndex
  · simp only [if_pos h1] at h
    obtain ⟨rfl, rfl⟩ := Prod.mk.inj (Except.ok.inj h)
    exact .inl ⟨h1, rfl, rfl⟩
  by_cases h2 : c.log.ringBuffer.normalize c.collectorBookmark <
      c.log.ringBuffer.normalize c.log.bufLastWrittenIndex
  · simp only [if_neg h1, if_pos h2] at h
    obtain ⟨⟨i, log, out⟩, hdump, h⟩ := Loop.bind_eq_ok.mp h
    obtain ⟨rfl, rfl⟩ := Prod.mk.inj (Except.ok.inj h)
    exact .inr (.inl ⟨h2, i, log, hdump, rfl⟩)
  · simp only [if_neg h1, if_neg h2] at h
    obtain ⟨⟨i, log, top⟩, htop, h⟩ := Loop.bind_eq_ok.mp h
    obtain ⟨⟨i', log', bottom⟩, hbottom, h⟩ := Loop.bind_eq_ok.mp h
    obtain ⟨rfl, rfl⟩ := Prod.mk.inj (Except.ok.inj h)
    have hlt := Nat.lt_of_le_of_ne (Nat.le_of_not_lt h2) (Ne.symm h1)
    exact .inr (.inr ⟨hlt, i, log, top, i', log', bottom, htop, hbottom, rfl, rfl⟩)

/-! ### Records across the end of the ring -/

/-- No record of `rs`, which lie one behind the other from position `q` on, lies
across the end of the ring. -/
def Unsplit (S : ℕ) : ℕ → List Entry → Prop
  | _, [] => True
  | q, e :: rs => q % S + e.bytes.length ≤ S ∧ Unsplit S (q + e.bytes.length) rs

theorem Unsplit.append {S : ℕ} : ∀ {q : ℕ} {rs rs' : List Entry}, Unsplit S q rs →
    Unsplit S (q + (flat rs).length) rs' → Unsplit S q (rs ++ rs')
  | _, [], _, _, h' => h'
  | q, e :: rs, rs', h, h' => by
    rw [flat_cons, List.length_append, ← Nat.add_assoc] at h'
    exact ⟨h.1, h.2.append h'⟩

theorem Unsplit.of_append {S : ℕ} : ∀ {q : ℕ} {rs rs' : List Entry}, Unsplit S q (rs ++ rs') →
    Unsplit S q rs ∧ Unsplit S (q + (flat rs).length) rs'
  | _, [], _, h => ⟨trivial, h⟩
  | q, e :: rs, rs', h => by
    obtain ⟨h1, h2⟩ := h.2.of_append
    refine ⟨⟨h.1, h1⟩, ?_⟩
    rwa [flat_cons, List.length_append, ← Nat.add_assoc]

/-- Records of which none lies across the end of the ring have a boundary there. -/
theorem Unsplit.split {S m : ℕ} : ∀ {q : ℕ} {rs : List Entry}, Unsplit S q rs → q ≤ m * S →
    m * S ≤ q + (flat rs).length → ∃ top bottom, rs = top ++ bottom ∧ q + (flat top).length = m * S
  | q, [], _, hle, hge => ⟨[], [], rfl, by rw [flat_nil, List.length_nil] at hge ⊢; omega⟩
  | q, e :: rs, h, hle, hge => by
    rcases Nat.lt_or_ge q (m * S) with hlt | hge'
    · -- the next multiple of `S` behind `q` is at most `m * S`
      have hdiv := Nat.div_add_mod q S
      have hm : q / S < m := (Nat.div_lt_iff_lt_mul (by
        rcases Nat.eq_zero_or_pos S with rfl | hS
        · omega
        · exact hS)).mpr hlt
      have hnext : S * (q / S) + S ≤ m * S := by
        rw [← Nat.mul_succ, Nat.mul_comm m]
        exact Nat.mul_le_mul_left S hm
      have hfirst := h.1
      rw [flat_cons, List.length_append] at hge
      obtain ⟨top, bottom, rfl, htop⟩ := h.2.split (m := m) (by omega) (by omega)
      refine ⟨e :: top, bottom, rfl, ?_⟩
      rw [flat_cons, List.length_append]
      omega
    · exact ⟨[], e :: rs, rfl, by rw [flat_nil, List.length_nil]; omega⟩

/-! ### Collecting whole records -/

section Whole

variable {env : Env} {S : ℕ} {line : Entry → List UInt8} {c : Collect} {done pend : List Entry}

theorem Tracks.lastWritten_mod (h : Tracks S c.log (done ++ pend)) :
    c.log.bufLastWrittenIndex % S = ((flat done).length + (flat pend).length) % S := by
  rw [h.lastWritten, h.current, flat_append, List.length_append]

/-- The end of the range up to the last written index: where the journal ends, or
the end of the ring. -/
theorem Tracks.rangeEnd_lastWritten {log : Log} {es : List Entry} (h : Tracks S log es)
    (hne : es ≠ []) (start : ℕ) (hle : start % S ≤ (flat es).length % S ∨ (flat es).length % S = 0) :
    Log.rangeEnd S start (u32Sub log.bufLastWrittenIndex 1) =
      if (flat es).length % S = 0 then S else (flat es).length % S := by
  have hpos : 0 < S := h.size ▸ log.ringBuffer.size_pos
  have hstart := Nat.mod_lt start hpos
  have hlast : 0 < log.bufLastWrittenIndex := by
    rw [h.lastWritten]
    exact h.current_pos hne
  have h32 : log.bufLastWrittenIndex < 4294967296 := by
    rw [h.lastWritten]
    exact log.ringBuffer.currentIndex_lt
  have hmod : log.bufLastWrittenIndex % S = (flat es).length % S := by
    rw [h.lastWritten, h.current]
  rw [Log.rangeEnd, u32Sub_of_le hlast h32]
  by_cases h0 : (flat es).length % S = 0
  · rw [if_pos h0, sub_one_mod_of_dvd (hmod.trans h0) hlast hpos, if_neg (by omega)]
    omega
  · rw [if_neg h0, sub_one_mod (by rwa [hmod]), hmod, if_neg (by omega)]
    omega

/-- The pending records end in front of the end of the ring: they lie between the
bookmark and the last written index. -/
theorem collect_linear (hS : S < 2147483648) (h4096 : 4096 ≤ S) (h : Tracks S c.log (done ++ pend))
    (hb : c.collectorBookmark % S = (flat done).length % S)
    (hp : ∀ e ∈ pend, e.Prints env (line e) ∧ (line e).length ≤ 4096)
    (hlt : (flat done).length % S + (flat pend).length < S) (hne : pend ≠ []) :
    ∃ c', c.log.Same c'.log ∧ c'.collectorBookmark % S = (flat (done ++ pend)).length % S ∧
      ∀ fuel, S < fuel → c.collect env fuel = .ok (c', lines line pend) := by
  have hsize := h.size
  have hpos : 0 < (flat pend).length := by
    have := length_le_flat pend
    have := List.length_pos_iff.mpr hne
    omega
  have hmod : (flat (done ++ pend)).length % S = (flat done).length % S + (flat pend).length := by
    rw [flat_append, List.length_append]
    rcases add_mod_cases (show (flat pend).length < S by omega) with ⟨-, hm⟩ | ⟨hge, -⟩
    · exact hm
    · omega
  have hlast : c.log.bufLastWrittenIndex % S = (flat done).length % S + (flat pend).length := by
    rw [h.lastWritten, h.current, hmod]
  have hend := h.rangeEnd_lastWritten (by simp [hne]) c.collectorBookmark
    (show c.collectorBookmark % S ≤ _ ∨ _ by omega)
  rw [if_neg (by omega), hmod] at hend
  have hat := recordsAt_of_tracks h (by omega)
  obtain ⟨log', hs, hdump⟩ := Log.dumpRange_records env true line c.log pend c.collectorBookmark
    (u32Sub c.log.bufLastWrittenIndex 1) (by rw [hsize]; exact hS) (by rw [hsize]; exact h4096)
    (hat.congr (by rw [hsize, hb, Nat.mod_mod])) hp (by rw [hsize, hend, hb])
  rw [hsize, hend] at hdump
  refine ⟨⟨log', (flat done).length % S + (flat pend).length⟩, hs, ?_, fun fuel hfuel => ?_⟩
  · rw [← hmod, Nat.mod_mod]
  · unfold Collect.collect
    simp only [RingBuffer.normalize, hsize, hb, hlast]
    rw [if_neg (by omega), if_pos (by omega), hdump fuel hfuel]
    rfl

/-- The whole lap that a range from 0 walks when the journal ends at the end of
the ring: it ends with the pending records. -/
theorem exists_lap (hu : Unsplit S 0 (done ++ pend)) (hmod : (flat (done ++ pend)).length % S = 0)
    (hpos : 0 < (flat pend).length) (hlt : (flat pend).length < S) :
    ∃ pre x, done ++ pend = pre ++ (x ++ pend) ∧ (flat pre).length % S = 0 ∧
      (flat (x ++ pend)).length = S := by
  obtain ⟨m, hm⟩ := Nat.dvd_of_mod_eq_zero hmod
  have hm1 : m ≠ 0 := by
    rintro rfl
    rw [Nat.mul_zero, flat_append, List.length_append] at hm
    omega
  obtain ⟨k, rfl⟩ := Nat.exists_eq_succ_of_ne_zero hm1
  rw [Nat.mul_succ] at hm
  have hk : k * S ≤ 0 + (flat (done ++ pend)).length := by
    rw [Nat.mul_comm]
    omega
  obtain ⟨pre, lap, heq, hpre⟩ := hu.split (Nat.zero_le _) hk
  have hlap : (flat lap).length = S := by
    have hlen := congrArg (fun l => (flat l).length) heq
    simp only [flat_append, List.length_append] at hlen hm
    rw [Nat.mul_comm] at hm
    omega
  rcases List.append_eq_append_iff.mp heq with ⟨x, -, hx⟩ | ⟨x, -, hx⟩
  · -- the pending records alone are shorter than a lap
    rw [hx, flat_append, List.length_append] at hlt
    omega
  · subst hx
    refine ⟨pre, x, heq, ?_, hlap⟩
    have hpre' : (flat pre).length = S * k := by rw [Nat.mul_comm]; omega
    rw [hpre', Nat.mul_mod_right]

/-- The pending records pass the end of the ring. -/
theorem collect_wrapped (hS : S < 2147483648) (h4096 : 4096 ≤ S) (h : Tracks S c.log (done ++ pend))
    (hb : c.collectorBookmark % S = (flat done).length % S) (hu : Unsplit S 0 (done ++ pend))
    (hp : ∀ e ∈ done ++ pend, e.Prints env (line e) ∧ (line e).length ≤ 4096)
    (hge : S ≤ (flat done).length % S + (flat pend).length) (hlt : (flat pend).length < S) :
    ∃ c' rs, c.log.Same c'.log ∧ c'.collectorBookmark % S = (flat (done ++ pend)).length % S ∧
      ((flat (done ++ pend)).length % S = 0 → rs ≠ []) ∧
      ∀ fuel, S < fuel → c.collect env fuel = .ok (c', lines line (rs ++ pend)) := by
  have hsize := h.size
  have hd := Nat.mod_lt (flat done).length (show 0 < S by omega)
  have hne : pend ≠ [] := by
    rintro rfl
    rw [flat_nil, List.length_nil] at hge
    omega
  have hmod : (flat (done ++ pend)).length % S = (flat done).length % S + (flat pend).length - S := by
    rw [flat_append, List.length_append]
    rcases add_mod_cases (a := (flat done).length) hlt with ⟨hl, -⟩ | ⟨-, hm⟩
    · omega
    · exact hm
  have hlast : c.log.bufLastWrittenIndex % S = (flat (done ++ pend)).length % S := by
    rw [h.lastWritten, h.current]
  -- the pending records have a boundary at the end of the ring
  have hdiv := Nat.div_add_mod (flat done).length S
  have hturn : ((flat done).length / S + 1) * S = (flat done).length - (flat done).length % S + S := by
    rw [Nat.add_one_mul, Nat.mul_comm]
    omega
  obtain ⟨top, bottom, hsplit, htop⟩ :=
    hu.of_append.2.split (m := (flat done).length / S + 1) (by omega) (by omega)
  rw [Nat.zero_add] at htop
  have htoplen : (flat done).length % S + (flat top).length = S := by omega
  have hbottomlen : (flat bottom).length = (flat (done ++ pend)).length % S := by
    have hlen := congrArg (fun l => (flat l).length) hsplit
    simp only [flat_append, List.length_append] at hlen
    omega
  -- the upper half
  have hpend : ∀ e ∈ pend, e ∈ done ++ pend := fun e he => List.mem_append_right _ he
  have hat := recordsAt_of_tracks h (by omega)
  rw [hsplit] at hat
  have hendtop : Log.rangeEnd S c.collectorBookmark (u32Sub S 1) = S :=
    Log.rangeEnd_sub_one (Nat.mod_lt _ (by omega)) (Nat.le_refl S) (by omega)
  obtain ⟨log1, hs1, hdump1⟩ := Log.dumpRange_records env true line c.log top c.collectorBookmark (u32Sub S 1)
    (by rw [hsize]; exact hS) (by rw [hsize]; exact h4096)
      (hat.append.1.congr (by rw [hsize, hb, Nat.mod_mod]))
    (fun e he => hp e (hpend e (by rw [hsplit]; exact List.mem_append_left _ he)))
    (by rw [hsize, hendtop, hb, htoplen])
  rw [hsize, hendtop] at hdump1
  -- the lower half: what lies between the start of the ring and the last written index
  have hbot : ∃ x rs, lines line top ++ lines line rs = lines line (x ++ pend) ∧
      ((flat (done ++ pend)).length % S = 0 → x ≠ []) ∧ RecordsAt c.log.ringBuffer 0 rs ∧
        (∀ e ∈ rs, e ∈ done ++ pend) ∧
      (flat rs).length = Log.rangeEnd S 0 (u32Sub c.log.bufLastWrittenIndex 1) := by
    have hrange := h.rangeEnd_lastWritten (by simp [hne]) 0 (by rw [Nat.zero_mod]; omega)
    by_cases h0 : (flat (done ++ pend)).length % S = 0
    · -- the journal ends at the end of the ring, and the lower half is the whole ring
      obtain ⟨pre, x, heq, hpre, hlap⟩ := exists_lap hu h0 (by omega) hlt
      refine ⟨top ++ x, x ++ pend, ?_, fun _ hnil => ?_, ?_, ?_, by rw [hrange, if_pos h0, hlap]⟩
      · simp only [lines, List.map_append, List.append_assoc]
      · -- the upper half is not empty
        rw [(List.append_eq_nil_iff.mp hnil).1, flat_nil, List.length_nil] at htoplen
        omega
      · have hlapAt := recordsAt_of_tracks (heq ▸ h) (by omega)
        exact hlapAt.congr (by rw [hsize, hpre, Nat.zero_mod])
      · intro e he
        rw [heq]
        exact List.mem_append_right _ he
    · refine ⟨[], bottom, ?_, fun h => absurd h h0, ?_, ?_, by rw [hrange, if_neg h0, hbottomlen]⟩
      · rw [List.nil_append, hsplit, lines, lines, lines, List.map_append]
      · have hbotAt := hat.append.2
        rw [htop] at hbotAt
        exact hbotAt.congr (by rw [hsize, Nat.mul_mod_left, Nat.zero_mod])
      · intro e he
        exact hpend e (by rw [hsplit]; exact List.mem_append_right _ he)
  obtain ⟨x, rs, hlines, hxne, hatrs, hmem, hlenrs⟩ := hbot
  have hrb := hs1.ringBuffer
  obtain ⟨log2, hs2, hdump2⟩ :=
    Log.dumpRange_records env true line log1 rs 0 (u32Sub c.log.bufLastWrittenIndex 1)
    (by rw [hrb, hsize]; exact hS) (by rw [hrb, hsize]; exact h4096) (by rw [hrb, Nat.zero_mod]; exact hatrs)
    (fun e he => hp e (hmem e he)) (by rw [hrb, hsize, Nat.zero_mod, Nat.zero_add, hlenrs])
  rw [hrb, hsize] at hdump2
  refine ⟨⟨log2, Log.rangeEnd S 0 (u32Sub c.log.bufLastWrittenIndex 1)⟩, x, hs1.trans hs2, ?_, hxne,
    fun fuel hfuel => ?_⟩
  · have hrange := h.rangeEnd_lastWritten (by simp [hne]) 0 (by rw [Nat.zero_mod]; omega)
    rw [hrange]
    by_cases h0 : (flat (done ++ pend)).length % S = 0
    · rw [if_pos h0, h0, Nat.mod_self]
    · rw [if_neg h0, Nat.mod_mod]
  · unfold Collect.collect
    simp only [RingBuffer.normalize, hsize, hb, hlast]
    rw [if_neg (by omega), if_neg (by omega), hdump1 fuel hfuel, Loop.ok_bind]
    simp only [hdump2 fuel hfuel, Loop.ok_bind, hlines, Loop.pure_eq_ok]

/-- **A `collect` over whole records** writes the pending ones, in order and last,
and sets the bookmark behind them. -/
theorem collect_pending (hS : S < 2147483648) (h4096 : 4096 ≤ S) (h : Tracks S c.log (done ++ pend))
    (hb : c.collectorBookmark % S = (flat done).length % S) (hu : Unsplit S 0 (done ++ pend))
    (hp : ∀ e ∈ done ++ pend, e.Prints env (line e) ∧ (line e).length ≤ 4096) (hlt : (flat pend).length < S) :
    ∃ c' rs, c.log.Same c'.log ∧ c'.collectorBookmark % S = (flat (done ++ pend)).length % S ∧
      ∀ fuel, S < fuel → c.collect env fuel = .ok (c', lines line (rs ++ pend)) := by
  by_cases hne : pend = []
  · -- nothing is pending
    subst hne
    have hlast := h.lastWritten_mod
    rw [flat_nil, List.length_nil, Nat.add_zero] at hlast
    refine ⟨{ c with collectorBookmark := c.log.bufLastWrittenIndex }, [], Log.Same.refl _, ?_,
      fun fuel _ => ?_⟩
    · rw [List.append_nil]
      exact hlast
    · unfold Collect.collect
      simp only [RingBuffer.normalize, h.size, hb, hlast, if_true]
      rfl
  · rcases Nat.lt_or_ge ((flat done).length % S + (flat pend).length) S with hl | hge
    · obtain ⟨c', hs, hb', hrun⟩ := collect_linear hS h4096 h hb
        (fun x hx => hp x (List.mem_append_right _ hx)) hl hne
      exact ⟨c', [], hs, hb', hrun⟩
    · obtain ⟨c', rs, hs, hb', -, hrun⟩ := collect_wrapped hS h4096 h hb hu hp hge hlt
      exact ⟨c', rs, hs, hb', hrun⟩

end Whole

/-! ### Nothing is lost -/

/-- The line of a record whose call prints `text`. -/
def Entry.line (env : Env) (text : Call → List UInt8) (e : Entry) : List UInt8 :=
  Log.printPrefix env e.header ++ text e.call

/-- A call whose format and arguments round-trip to `text`. -/
def Renders (env : Env) (text : Call → List UInt8) (call : Call) : Prop :=
  RoundTrips env (env.strings call.format) call.args (text call)

/-- The pending records do not fill the ring. -/
def Unfilled (S : ℕ) (pend : List Entry) : Prop := (flat pend).length < S

/-- No pending record lies across the end of the ring, and every pending line
passes `dumpRange`'s assertion. -/
def Whole (env : Env) (S : ℕ) (text : Call → List UInt8) (done pend : List Entry) : Prop :=
  Unsplit S (flat done).length pend ∧ ∀ e ∈ pend, (e.line env text).length ≤ 4096

/-- The output has the lines of all of `pend`, and no notice. -/
def Delivers (line : Entry → List UInt8) (pend : List Entry) (out : List Chunk) : Prop :=
  lines line pend <:+ out ∧ ∀ x ∈ out, ∃ hdr text, x = .line hdr text

theorem Traced.prints_line {env : Env} {text : Call → List UInt8} {log log' : Log} {call : Call} {e : Entry}
    (ht : Traced env log call log' e) (hcall : Renders env text call) : e.Prints env (e.line env text) := by
  rw [Entry.line, ht.forCall]
  exact ht.prints hcall

section Lossless

variable {env : Env} {S : ℕ} {h0 : 4096 ≤ S} {h1 : S < 2147483648} {text : Call → List UInt8} {c : Collect}
  {done pend : List Entry} {out : List Chunk}

/-- What holds in every run that collects whole records only. -/
structure Caught (env : Env) (S : ℕ) (text : Call → List UInt8) (c : Collect) (done pend : List Entry) :
    Prop where
  tracks : Tracks S c.log (done ++ pend)
  bookmark : c.collectorBookmark % S = (flat done).length % S
  unsplit : Unsplit S 0 done
  short : ∀ e ∈ done, (e.line env text).length ≤ 4096
  prints : ∀ e ∈ done ++ pend, e.Prints env (e.line env text)

theorem Caught.collect (h : Caught env S text c done pend) (h0 : 4096 ≤ S) (h1 : S < 2147483648)
    (hfill : Unfilled S pend) (hw : Whole env S text done pend) :
    ∃ c' new, Caught env S text c' (done ++ pend) [] ∧ Delivers (Entry.line env text) pend new ∧
      ∀ fuel, S < fuel → c.collect env fuel = .ok (c', new) := by
  have hu : Unsplit S 0 (done ++ pend) := h.unsplit.append (by rw [Nat.zero_add]; exact hw.1)
  have hshort : ∀ e ∈ done ++ pend, (e.line env text).length ≤ 4096 := by
    intro e he
    rcases List.mem_append.mp he with he | he
    · exact h.short e he
    · exact hw.2 e he
  obtain ⟨c', rs, hs, hb, hrun⟩ := collect_pending h1 h0 h.tracks h.bookmark hu
    (fun e he => ⟨h.prints e he, hshort e he⟩) hfill
  refine ⟨c', _, ⟨?_, hb, hu, hshort, ?_⟩, ⟨?_, ?_⟩, hrun⟩
  · rw [List.append_nil]
    exact h.tracks.same hs
  · rw [List.append_nil]
    exact h.prints
  · exact ⟨lines (Entry.line env text) rs, by simp only [lines, List.map_append]⟩
  · intro x hx
    obtain ⟨e, -, rfl⟩ := List.mem_map.mp hx
    exact ⟨_, _, rfl⟩

theorem Caught.new (h0 : 0 < S) (h1 : S < 2147483648) : Caught env S text (Collect.new S h0 h1) [] [] :=
  ⟨Tracks.new _ h1, rfl, trivial, by simp, by simp⟩

theorem Caught.trace {call : Call} {log : Log} {e : Entry} (h : Caught env S text c done pend) (h0 : 4096 ≤ S)
    (h1 : S < 2147483648) (hcall : Renders env text call) (ht : Traced env c.log call log e) :
    Caught env S text { c with log := log } done (pend ++ [e]) := by
  refine ⟨?_, h.bookmark, h.unsplit, h.short, ?_⟩
  · rw [← List.append_assoc]
    exact h.tracks.step h1 ht (ht.genuine.length_le.trans h0)
  · intro x hx
    rw [← List.append_assoc] at hx
    rcases List.mem_append.mp hx with hx | hx
    · exact h.prints x hx
    · obtain rfl := List.mem_singleton.mp hx
      exact ht.prints_line hcall

theorem Run.caught (h : Run env S h0 h1 (Renders env text)
    (fun _ done pend => Unfilled S pend ∧ Whole env S text done pend) c done pend out) :
    Caught env S text c done pend := by
  induction h with
  | new => exact Caught.new _ _
  | @trace c done pend out call log e hrun hcall htrace ih =>
    have hsize := ih.tracks.size
    have ht := traced_of_ok (by rw [hsize]; exact h1) (by rw [hsize]; exact h0) htrace
    exact ih.trace h0 h1 hcall ht
  | @collect c done pend out fuel c' new hrun hP hcollect ih =>
    obtain ⟨c'', new', hcaught, -, hall⟩ := ih.collect h0 h1 hP.1 hP.2
    have hmono := Collect.collect_mono (Nat.le_add_right fuel (S + 1)) hcollect
    rw [hall _ (by omega)] at hmono
    obtain ⟨rfl, rfl⟩ := Prod.mk.inj (Except.ok.inj hmono)
    exact hcaught

/-- **The collector loses nothing but records across the end of the ring.** In
every run that collects whole records only, the next such `collect` returns, with
the lines of all pending records and without a notice. -/
theorem collect_loses_nothing (hrun : Run env S h0 h1 (Renders env text)
    (fun _ done pend => Unfilled S pend ∧ Whole env S text done pend) c done pend out)
    (hfill : Unfilled S pend) (hw : Whole env S text done pend) :
    ∃ c' new, Delivers (Entry.line env text) pend new ∧
      ∀ fuel, S < fuel → c.collect env fuel = .ok (c', new) := by
  obtain ⟨c', new, -, hdel, hall⟩ := hrun.caught.collect h0 h1 hfill hw
  exact ⟨c', new, hdel, hall⟩

theorem Caught.trace_letters (h : Caught stringEnv S callText c done pend) (h0 : 4096 ≤ S)
    (h1 : S < 2147483648) (n : ℕ) (hn : n + 65 ≤ 4096) :
    ∃ log e, Traced stringEnv c.log (stringCall (letters n (by omega))) log e ∧
      c.log.traceVargs stringEnv (stringCall (letters n (by omega))) = .ok (log, e) ∧
      Caught stringEnv S callText { c with log := log } done (pend ++ [e]) ∧ e.bytes.length = n + 65 ∧
      e.args = List.replicate n (chr 'a') ++ [0] ∧ (e.line stringEnv callText).length = n := by
  have hlen := letters_length n (by omega)
  have hsize := h.tracks.size
  obtain ⟨log, e, hok, ht, hargs, hbytes, hpre⟩ := trace_string c.log (letters n (by omega))
    (by rw [hsize]; exact h1) (by rw [hsize]; exact h0) (by rw [hlen]; exact hn)
  refine ⟨log, e, ht, hok, h.trace h0 h1 (roundTrips_string _) ht, by rw [hbytes, hlen], hargs, ?_⟩
  rw [Entry.line, hpre, ht.forCall, List.nil_append]
  exact hlen

end Lossless

/-- A ring of 4096 bytes in which two records of 69 bytes were collected, and then one of
3958 bytes up to the end of the ring and one of 69 from its start are pending. -/
structure Turned (P : Collect → List Entry → List Entry → Prop) (c : Collect) (e1 e2 e3 e4 : Entry)
    (out : List Chunk) : Prop where
  run : Run stringEnv 4096 (le_refl _) (by decide) (Renders stringEnv callText) P c [e1, e2] [e3, e4] out
  caught : Caught stringEnv 4096 callText c [e1, e2] [e3, e4]
  done : (flat [e1, e2]).length = 138
  pend : (flat [e3, e4]).length = 4027
  length4 : e4.bytes.length = 69
  whole : Unfilled 4096 [e3, e4] ∧ Whole stringEnv 4096 callText [e1, e2] [e3, e4]
  written : lines (Entry.line stringEnv callText) [e1, e2] <:+ out

theorem exists_turned {P : Collect → List Entry → List Entry → Prop}
    (hP : ∀ c e1 e2, Caught stringEnv 4096 callText c [] [e1, e2] → Unfilled 4096 [e1, e2] →
      Whole stringEnv 4096 callText [] [e1, e2] → (flat [e1, e2]).length = 138 → P c [] [e1, e2]) :
    ∃ c e1 e2 e3 e4 out, Turned P c e1 e2 e3 e4 out := by
  have h0 : 4096 ≤ 4096 := le_refl _
  have h1 : 4096 < 2147483648 := by decide
  obtain ⟨log1, e1, -, hok1, hc1, hlen1, -, hline1⟩ :=
    (Caught.new (by decide) h1).trace_letters h0 h1 4 (by decide)
  obtain ⟨log2, e2, -, hok2, hc2, hlen2, -, hline2⟩ := hc1.trace_letters h0 h1 4 (by decide)
  have hdone : (flat [e1, e2]).length = 138 := by simp [hlen1, hlen2]
  have hfill : Unfilled 4096 [e1, e2] := hdone.trans_lt (by decide)
  have hwhole : Whole stringEnv 4096 callText [] [e1, e2] :=
    ⟨⟨by simp [hlen1], by simp [hlen1, hlen2], trivial⟩, by simp [hline1, hline2]⟩
  obtain ⟨c, out, hc, hdel, hall⟩ := hc2.collect h0 h1 hfill hwhole
  have hrun : Run stringEnv 4096 h0 h1 (Renders stringEnv callText) P c [e1, e2] [] ([] ++ out) :=
    .collect (.trace (.trace .new (roundTrips_string _) hok1) (roundTrips_string _) hok2)
      (hP _ _ _ hc2 hfill hwhole hdone)
      (hall 4097 (by decide))
  obtain ⟨log3, e3, -, hok3, hc3, hlen3, -, hline3⟩ := hc.trace_letters h0 h1 3893 (by decide)
  obtain ⟨log4, e4, -, hok4, hc4, hlen4, -, hline4⟩ := hc3.trace_letters h0 h1 4 (by decide)
  have hpend : (flat [e3, e4]).length = 4027 := by simp [hlen3, hlen4]
  exact ⟨_, e1, e2, e3, e4, _,
    .trace (.trace hrun (roundTrips_string _) hok3) (roundTrips_string _) hok4, hc4, hdone,
    hpend, hlen4, ⟨hpend.trans_lt (by decide), ⟨by omega, by omega, trivial⟩,
      by simp [hline3, hline4]⟩, hdel.1⟩

section Turned

variable {P : Collect → List Entry → List Entry → Prop} {c : Collect} {e1 e2 e3 e4 : Entry} {out : List Chunk}

theorem Turned.total (h : Turned P c e1 e2 e3 e4 out) : (flat ([e1, e2] ++ [e3, e4])).length = 4165 := by
  rw [flat_append, List.length_append, h.done, h.pend]

theorem Turned.wraps (h : Turned P c e1 e2 e3 e4 out) :
    c.collectorBookmark % 4096 = 138 ∧ c.log.bufLastWrittenIndex % 4096 = 69 :=
  ⟨h.caught.bookmark.trans (by rw [h.done]), h.caught.tracks.lastWritten_mod.trans (by rw [h.done, h.pend])⟩

end Turned

/-- A second `collect`, around the end of the ring. -/
theorem collect_loses_nothing_example : ∃ c e1 e2 e3 e4 out c' new,
    Run stringEnv 4096 (le_refl _) (by decide) (Renders stringEnv callText)
      (fun _ done pend => Unfilled 4096 pend ∧
        Whole stringEnv 4096 callText done pend) c [e1, e2] [e3, e4] out ∧
    c.log.bufLastWrittenIndex % 4096 < c.collectorBookmark % 4096 ∧
    Delivers (Entry.line stringEnv callText) [e3, e4] new ∧
    ∀ fuel, 4096 < fuel → c.collect stringEnv fuel = .ok (c', new) := by
  obtain ⟨c, e1, e2, e3, e4, out, h⟩ := exists_turned (P := fun _ done pend => Unfilled 4096 pend ∧
    Whole stringEnv 4096 callText done pend) fun _ _ _ _ hfill hwhole _ => ⟨hfill, hwhole⟩
  obtain ⟨c', new, hdel, hall⟩ := collect_loses_nothing h.run h.whole.1 h.whole.2
  obtain ⟨hbookmark, hlast⟩ := h.wraps
  exact ⟨c, e1, e2, e3, e4, out, c', new, h.run, by rw [hbookmark, hlast]; decide, hdel, hall⟩

theorem Run.mono {env : Env} {S : ℕ} {h0 : 4096 ≤ S} {h1 : S < 2147483648} {Q : Call → Prop}
    {P P' : Collect → List Entry → List Entry → Prop} {c : Collect} {done pend : List Entry}
    {out : List Chunk} (h : Run env S h0 h1 Q P c done pend out)
    (hP : ∀ c done pend, P c done pend → P' c done pend) :
    Run env S h0 h1 Q P' c done pend out := by
  induction h with
  | new => exact .new
  | trace _ hcall htrace ih => exact .trace ih hcall htrace
  | collect _ hc hcollect ih => exact .collect ih (hP _ _ _ hc) hcollect

/-- A ring of 4096 bytes with a record of 3996 bytes that was collected, and one of 164
bytes across its end. -/
structure Straddling (log1 : Log) (c2 : Collect) (log3 : Log) (e1 e3 : Entry) (out : List Chunk) : Prop where
  traced1 : Traced stringEnv (Log.new 4096 (by decide) (by decide))
    (stringCall (letters 3931 (by decide))) log1 e1
  collected : (Collect.mk log1 0).collect stringEnv 4097 = .ok (c2, out)
  tracks1 : Tracks 4096 c2.log [e1]
  traced3 : Traced stringEnv c2.log (stringCall (letters 99 (by decide))) log3 e3
  run : Run stringEnv 4096 (le_refl _) (by decide) (Renders stringEnv callText)
    (fun _ _ pend => Unfilled 4096 pend) { c2 with log := log3 } [e1] [e3] out
  caught : Caught stringEnv 4096 callText { c2 with log := log3 } [e1] [e3]
  length1 : e1.bytes.length = 3996
  length3 : e3.bytes.length = 164
  args1 : e1.args = List.replicate 3931 (chr 'a') ++ [0]
  args3 : e3.args = List.replicate 99 (chr 'a') ++ [0]
  line3 : (e3.line stringEnv callText).length = 99

theorem exists_straddling : ∃ log1 c2 log3 e1 e3 out, Straddling log1 c2 log3 e1 e3 out := by
  have h0 : 4096 ≤ 4096 := le_refl _
  have h1 : 4096 < 2147483648 := by decide
  obtain ⟨log1, e1, ht1, hok1, hc1, hlen1, hargs1, hline1⟩ :=
    (Caught.new (by decide) h1).trace_letters h0 h1 3931 (by decide)
  rw [List.nil_append] at hc1
  have hfill1 : Unfilled 4096 [e1] := by
    rw [Unfilled, flat_cons, flat_nil, List.append_nil, hlen1]
    decide
  obtain ⟨c2, new2, hc2, -, hall2⟩ := hc1.collect h0 h1 hfill1 ⟨⟨by simp [hlen1], trivial⟩, by simp [hline1]⟩
  obtain ⟨log3, e3, ht3, hok3, hc3, hlen3, hargs3, hline3⟩ := hc2.trace_letters h0 h1 99 (by decide)
  have htracks := hc2.tracks
  simp only [List.nil_append, List.append_nil] at hc3 htracks
  exact ⟨log1, c2, log3, e1, e3, new2, ht1, hall2 4097 (by decide), htracks, ht3,
    .trace (.collect (.trace .new (roundTrips_string _) hok1) hfill1 (hall2 4097 (by decide)))
      (roundTrips_string _) hok3,
    hc3, hlen1, hlen3, hargs1, hargs3, hline3⟩

section Straddling

variable {log1 log3 : Log} {c2 : Collect} {e1 e3 : Entry} {out : List Chunk}

theorem Straddling.flat1 (h : Straddling log1 c2 log3 e1 e3 out) : (flat [e1]).length = 3996 := by
  rw [flat_cons, flat_nil, List.append_nil, h.length1]

theorem Straddling.flat3 (h : Straddling log1 c2 log3 e1 e3 out) : (flat [e3]).length = 164 := by
  rw [flat_cons, flat_nil, List.append_nil, h.length3]

theorem Straddling.bookmark (h : Straddling log1 c2 log3 e1 e3 out) : c2.collectorBookmark % 4096 = 3996 :=
  h.caught.bookmark.trans (by rw [h.flat1])

theorem Straddling.lastWritten (h : Straddling log1 c2 log3 e1 e3 out) :
    log3.bufLastWrittenIndex % 4096 = 64 :=
  h.caught.tracks.lastWritten_mod.trans (by rw [h.flat1, h.flat3])

end Straddling

/-- A record across the end of the ring is lost: the ring of 4096 bytes holds a
record of 3996 bytes, which was collected, and then one of 164. -/
theorem collect_loses_straddling : ∃ c done pend out,
    Run stringEnv 4096 (le_refl _) (by decide) (Renders stringEnv callText)
      (fun _ _ pend => Unfilled 4096 pend)
      c done pend out ∧ Unfilled 4096 pend ∧
    ¬ ∃ fuel c' new, c.collect stringEnv fuel = .ok (c', new) ∧
      Delivers (Entry.line stringEnv callText) pend new := by
  obtain ⟨log1, c2, log3, e1, e3, out, h⟩ := exists_straddling
  refine ⟨_, _, _, _, h.run, (h.flat3.trans_lt (by decide) : Unfilled 4096 [e3]), ?_⟩
  rintro ⟨fuel, c', new, hcollect, -, hlines⟩
  -- the lower half starts in the middle of the second record, on a letter
  have h1 : 4096 < 2147483648 := by decide
  have hsize : log3.ringBuffer.size = 4096 := h.caught.tracks.size
  have hb := h.bookmark
  have hlast := h.lastWritten
  have hread : read 4096 log3.ringBuffer.buffer (flat [e1]).length e3.bytes.length = e3.bytes :=
    h.caught.tracks.read (by rw [h.length3, flat_nil]; decide)
  have hcell : log3.ringBuffer.buffer 0 = chr 'a' := by
    have hget := congrArg (·[100]?) hread
    simp only [h.flat1] at hget
    rw [getElem?_read (by rw [h.length3]; decide), Entry.bytes, record, h.args3,
      List.getElem?_append_right (by rw [Header.bytes_length]; decide), Header.bytes_length,
      List.getElem?_append_left (by simp), List.getElem?_append_left (by simp),
        List.getElem?_replicate] at hget
    simpa using hget
  have hentry : log3.ringBuffer.entryAt 0 = none := by
    cases hentry : log3.ringBuffer.entryAt 0 with
    | none => rfl
    | some entry =>
      have hpat := congrArg (·[0]?) (Log.read_pattern hentry)
      rw [hsize, getElem?_read (by decide), Nat.zero_add, Nat.zero_mod, hcell] at hpat
      exact absurd hpat (by decide)
  rcases Collect.collect_cases hsize hcollect with ⟨heq, -⟩ | ⟨hlt, -⟩ |
    ⟨-, i, log4, top, i', log5, bottom, htop, hbottom, -, rfl⟩
  · simp only [hb, hlast] at heq
    exact absurd heq (by decide)
  · simp only [hb, hlast] at hlt
    exact absurd hlt (by decide)
  · have hrb : log4.ringBuffer = log3.ringBuffer := (Log.dumpRange_same stringEnv htop).ringBuffer
    have hpos : 0 < Log.rangeEnd log4.ringBuffer.size 0 (u32Sub log3.bufLastWrittenIndex 1) := by
      unfold Log.rangeEnd
      split
      · rw [hrb, hsize]
        decide
      · exact Nat.succ_pos _
    obtain ⟨t, ht⟩ := Log.dumpRange_notice stringEnv (by rw [hrb, hsize]; exact h1) (by rw [hrb, hsize])
      (by rw [Nat.zero_mod]; exact hpos) (by rw [hrb, Nat.zero_mod]; exact hentry) hbottom
    obtain ⟨_, _, hline⟩ := hlines _ (List.mem_append_right _ ht)
    cases hline

end Memlog
