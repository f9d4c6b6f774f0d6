/-
# Walking past what is no record

`dumpRange` over a ring of any contents. Where a range starts with positions that
`getLog` rejects, one round writes the notice and moves to the first record, and
the walk goes on over the records from there; a walk that does not go on after a
failure returns that position (`dumpRange_recovers`).

A round on an entry moves behind what the decoder read, and a round elsewhere
moves to the next entry, so every round moves on, except in a ring without
entries: there the search returns 0, which the walk takes for the next position
(`dumpRange_ends_iff`).

Key definitions: `Log.Ends`.
-/
import Memlog.Collected

namespace Memlog

open Circular

/-! ### Records behind a part without entries -/

theorem recordsAt_of_read {rb : RingBuffer} : ∀ {q : ℕ} {rs : List Entry}, (∀ e ∈ rs, e.Genuine) →
    read rb.size rb.buffer q (flat rs).length = flat rs → RecordsAt rb q rs
  | _, [], _, _ => trivial
  | q, e :: rs, hg, h => by
    rw [flat_cons, List.length_append, read_append] at h
    obtain ⟨h1, h2⟩ := List.append_inj h (read_length _ _ _ _)
    exact ⟨(hg e List.mem_cons_self).entryAt h1,
      recordsAt_of_read (fun x hx => hg x (List.mem_cons_of_mem _ hx)) h2⟩

namespace Log

variable {env : Env} {log : Log} {start s : ℕ} {rs : List Entry} {line : Entry → List UInt8}

theorem rangeEnd_interval {S start stop : ℕ} (h : start < stop) (hS : stop ≤ S) :
    rangeEnd S start (stop - 1) = stop ∧ start % S = start := by
  have hstart : start % S = start := Nat.mod_eq_of_lt (by omega)
  refine ⟨?_, hstart⟩
  rw [rangeEnd_eq (by omega) (by omega)]
  omega

/-- A round in front of the records, where there is no entry. -/
theorem walkStep_garbage {w : Walk} {last : ℕ} (b : Bool) (hS : w.log.ringBuffer.size < 2147483648)
    (h4096 : 4096 ≤ w.log.ringBuffer.size) (hlast : last ≤ w.log.ringBuffer.size) (his : w.i < s)
    (hs : s ≤ last) (hnone : ∀ q, w.i ≤ q → q < s → w.log.ringBuffer.entryAt q = none)
    (hentry : w.log.ringBuffer.entryAt s ≠ none) :
    ∃ t, ∃ w' : Walk, w'.i = s ∧ w.log.Same w'.log ∧ w'.out = w.out ++ [.notice t] ∧
      walkStep env last b w = .ok (if b then .again w' else .done w') := by
  obtain ⟨new_i, t, w', hsame, hout, hfound, hstep⟩ := walkStep_search env b hS h4096 hlast (by omega)
    (hnone w.i (Nat.le_refl _) his)
  have hnew : new_i = s := by
    rcases hfound with ⟨hlt, hne, hmin⟩ | ⟨-, hall⟩
    · rcases Nat.lt_trichotomy new_i s with h | h | h
      · exact absurd (hnone new_i hlt.le h) hne
      · exact h
      · exact absurd (hmin s his.le h) hentry
    · -- the ring is not without entries
      have hs' := hall (s - w.i)
      rw [Nat.add_sub_cancel' his.le] at hs'
      exact absurd hs' hentry
  subst hnew
  refine ⟨t, { w' with i := new_i }, rfl, hsame, hout, ?_⟩
  rw [hstep]
  cases b with
  | false => rfl
  | true => rw [if_neg (not_not.mpr rfl), if_neg (Nat.not_lt.mpr hs), if_pos rfl]

/-- A range that starts with positions without entries, and ends with records. -/
theorem dumpRange_garbage (hS : log.ringBuffer.size < 2147483648)
    (h4096 : 4096 ≤ log.ringBuffer.size) (hstart : start < s)
    (hnone : ∀ q, start ≤ q → q < s → log.ringBuffer.entryAt q = none)
    (hat : RecordsAt log.ringBuffer s rs) (hne : rs ≠ [])
    (hp : ∀ e ∈ rs, e.Prints env (line e) ∧ (line e).length ≤ 4096)
    (hend : s + (flat rs).length ≤ log.ringBuffer.size) :
    (∃ log' t, ∀ fuel, log.ringBuffer.size < fuel →
      dumpRange env fuel log start (s + (flat rs).length - 1) true =
        .ok (s + (flat rs).length, log', .notice t :: lines line rs)) ∧
    ∃ log' t, ∀ fuel, log.ringBuffer.size < fuel →
      dumpRange env fuel log start (s + (flat rs).length - 1) false = .ok (s, log', [.notice t]) := by
  obtain ⟨e, rs', rfl⟩ := List.exists_cons_of_ne_nil hne
  have hcount := length_le_flat (e :: rs')
  rw [List.length_cons] at hcount
  obtain ⟨hrange, hmod⟩ := rangeEnd_interval (show start < s + (flat (e :: rs')).length by omega) hend
  have hentry : log.ringBuffer.entryAt s ≠ none := by simp [hat.1]
  have hround := fun b =>
    @walkStep_garbage env s ⟨start, stackBuffer env, zeroHeader, log, []⟩ _ b hS h4096 hend hstart
      (Nat.le_add_right _ _) hnone hentry
  constructor
  · obtain ⟨t, w1, hi, hs1, hout, hstep⟩ := hround true
    have hrb := hs1.ringBuffer
    obtain ⟨w2, hreach, hi2, hout2, -⟩ := walk_lines env true (w := w1)
      (show s + (flat (e :: rs')).length < 2147483648 by omega) (by rw [hrb]; exact hS)
        (by rw [hrb, hi]; exact hat)
      (by rw [hrb]; exact fit_of_recordsAt h4096 hat) hp (by rw [hi])
    rw [hi] at hi2
    refine ⟨w2.log, t, fun fuel hfuel => ?_⟩
    have hrun := ((Loop.Reaches.single hstep).trans hreach).run_done (walkStep_end env true hi2.ge)
      (show 1 + (e :: rs').length < fuel by rw [List.length_cons]; omega)
    rw [dumpRange_eq, hrange, hmod, hrun, Loop.ok_bind, hi2, hout2, hout]
    rfl
  · obtain ⟨t, w1, hi, -, hout, hstep⟩ := hround false
    refine ⟨w1.log, t, fun fuel hfuel => ?_⟩
    obtain ⟨n, rfl⟩ : ∃ n, fuel = n + 1 := ⟨fuel - 1, by omega⟩
    rw [dumpRange_eq, hrange, hmod, Loop.run_done hstep, Loop.ok_bind, hi, hout]
    rfl

/-- **The walk recovers.** A range of a ring of any contents whose positions up to
`s` `getLog` rejects, and which from `s` on holds records of calls that round-trip,
with lines that pass the assertion. From `s` itself `dumpRange` writes their lines
and returns the end of the range. From a position before `s` it writes one notice,
and then the same, or, when it is not to go on after a failure, returns `s`. -/
theorem dumpRange_recovers (env : Env) (log : Log) (h0 : 4096 ≤ log.ringBuffer.size)
    (h1 : log.ringBuffer.size < 2147483648) (text : Call → List UInt8) (start s : ℕ) (rs : List Entry)
    (hstart : start ≤ s) (hgarbage : ∀ q, start ≤ q → q < s → ¬ log.Accepts q) (hne : rs ≠ [])
    (hend : s + (flat rs).length ≤ log.ringBuffer.size)
    (hbytes : log.ringBuffer.get s (flat rs).length = .ok (flat rs))
    (hwritten : ∀ e ∈ rs, ∃ log0 log1 : Log, log0.ringBuffer.size = log.ringBuffer.size ∧
      log0.traceVargs env e.call = .ok (log1, e))
    (hround : ∀ e ∈ rs, Renders env text e.call) (hshort : ∀ e ∈ rs, (e.line env text).length ≤ 4096) :
    (start = s → ∀ b, ∃ log', ∀ fuel, log.ringBuffer.size < fuel →
      dumpRange env fuel log start (s + (flat rs).length - 1) b =
        .ok (s + (flat rs).length, log', lines (Entry.line env text) rs)) ∧
    (start < s →
      (∃ log' t, ∀ fuel, log.ringBuffer.size < fuel →
        dumpRange env fuel log start (s + (flat rs).length - 1) true =
          .ok (s + (flat rs).length, log', .notice t :: lines (Entry.line env text) rs)) ∧
      ∃ log' t, ∀ fuel, log.ringBuffer.size < fuel →
        dumpRange env fuel log start (s + (flat rs).length - 1) false = .ok (s, log', [.notice t])) := by
  have htraced : ∀ e ∈ rs, ∃ log0 log1, Traced env log0 e.call log1 e := by
    intro e he
    obtain ⟨log0, log1, hsize, hok⟩ := hwritten e he
    exact ⟨log0, log1, traced_of_ok (by rw [hsize]; exact h1) (by rw [hsize]; exact h0) hok⟩
  have hat : RecordsAt log.ringBuffer s rs := by
    refine recordsAt_of_read (fun e he => ?_) ?_
    · obtain ⟨log0, log1, ht⟩ := htraced e he
      exact ht.genuine
    · rw [log.ringBuffer.get_eq (by omega) (by have := Nat.mod_le s log.ringBuffer.size; omega)] at hbytes
      exact Except.ok.inj hbytes
  have hp : ∀ e ∈ rs, e.Prints env (e.line env text) ∧ (e.line env text).length ≤ 4096 := by
    intro e he
    obtain ⟨log0, log1, ht⟩ := htraced e he
    exact ⟨ht.prints (hround e he), hshort e he⟩
  constructor
  · rintro rfl b
    have hcount := length_le_flat rs
    have hpos := List.length_pos_iff.mpr hne
    obtain ⟨hrange, hmod⟩ := rangeEnd_interval (show start < start + (flat rs).length by omega) hend
    obtain ⟨log', -, hdump⟩ := dumpRange_records env b (Entry.line env text) log rs start
      (start + (flat rs).length - 1) h1 h0 (by rw [hmod]; exact hat) hp (by rw [hmod, hrange])
    rw [hrange] at hdump
    exact ⟨log', hdump⟩
  · intro hlt
    refine dumpRange_garbage h1 h0 hlt (fun q hq hqs => ?_) hat hne hp hend
    exact not_not.mp fun h => hgarbage q hq hqs ((accepts_iff h1 h0).mpr h)

/-- A hundred zeros, and then a record. -/
theorem dumpRange_recovers_example : ∃ log e log' t, e.bytes.length = 70 ∧ ∀ fuel, 4096 < fuel →
    dumpRange stringEnv fuel log 0 169 true =
      .ok (170, log', .notice t :: lines (Entry.line stringEnv callText) [e]) := by
  let rb : RingBuffer := { RingBuffer.new 4096 (by decide) (by decide) with
    currentIndex := 100, currentIndex_lt := by decide }
  let log0 : Log := { Log.new 4096 (by decide) (by decide) with ringBuffer := rb }
  obtain ⟨log, e, hok, ht, -, hlen, hpre⟩ :=
    trace_string log0 (letters 5 (by decide)) (by decide) (by decide) (by decide)
  rw [letters_length] at hlen
  have hflat : flat [e] = e.bytes := List.append_nil _
  have hsize : log.ringBuffer.size = 4096 := ht.size
  have hbuffer : log.ringBuffer.buffer = write 4096 (fun _ => 0) 100 e.bytes := by
    rw [ht.buffer, ht.location]
    rfl
  have hline : e.line stringEnv callText = List.replicate 5 (chr 'a') := by
    rw [Entry.line, hpre, ht.forCall]
    rfl
  have hblank : ∀ q, 0 ≤ q → q < 100 → ¬ log.Accepts q := by
    intro q _ hq haccepts
    obtain ⟨entry, hentry⟩ := Option.ne_none_iff_exists'.mp
      ((accepts_iff (by rw [hsize]; decide) (by rw [hsize])).mp haccepts)
    have hhead := congrArg (·[0]?) (read_pattern hentry)
    rw [getElem?_read (by decide), hsize, hbuffer, Nat.add_zero,
      write_before _ hq (by rw [hlen]; omega)] at hhead
    exact absurd (Option.some.inj hhead) (by decide)
  have hbytes : log.ringBuffer.get 100 (flat [e]).length = .ok (flat [e]) := by
    rw [hflat, log.ringBuffer.get_eq (by rw [hlen, hsize]; decide) (by rw [hlen, hsize]; decide),
      hsize, hbuffer]
    exact congrArg Except.ok (read_write_same (by decide) _ _ (by rw [hlen]; decide))
  obtain ⟨-, hrecover⟩ :=
    dumpRange_recovers stringEnv log (by rw [hsize]) (by rw [hsize]; decide) callText 0 100 [e]
    (Nat.zero_le 100) hblank (by simp) (by rw [hflat, hlen, hsize]; decide) hbytes
    (List.forall_mem_singleton.mpr ⟨log0, log, hsize.symm, by rw [ht.forCall]; exact hok⟩)
    (List.forall_mem_singleton.mpr (by rw [ht.forCall]; exact roundTrips_string _))
    (List.forall_mem_singleton.mpr (by rw [hline]; decide))
  obtain ⟨log', t, hdump⟩ := (hrecover (by decide)).1
  rw [hsize, hflat, hlen] at hdump
  exact ⟨log, e, log', t, hlen, hdump⟩

/-! ### Every round moves on -/

variable {last : ℕ} {b : Bool} {w w' : Walk}

theorem printAtIndex_ne_fuel {entry : List UInt8} {q : ℕ} (hS : log.ringBuffer.size < 2147483648)
    (h4096 : 4096 ≤ log.ringBuffer.size) (hentry : log.ringBuffer.entryAt q = some entry) (dst : List UInt8)
    (retry : Bool) (hdr : Header) : printAtIndex env log q dst retry hdr ≠ .error .fuel := by
  obtain ⟨rest, -, hprint⟩ :=
    printAtIndex_some env hS ((RingBuffer.entry_length hentry).2.2.trans h4096) hentry dst
    retry hdr
  rw [hprint]
  apply Loop.bind_ne_error decodeFromArgsBuffer_ne_fuel
  intro r _
  dsimp only
  split <;> exact fun h => by cases h

theorem walkStep_ne_fuel (hS : w.log.ringBuffer.size < 2147483648) (h4096 : 4096 ≤ w.log.ringBuffer.size)
    (hlast : last ≤ w.log.ringBuffer.size) : walkStep env last b w ≠ .error .fuel := by
  by_cases hin : w.i < last
  swap
  · rw [walkStep_end env b (Nat.le_of_not_lt hin)]
    exact fun h => by cases h
  cases hentry : w.log.ringBuffer.entryAt w.i with
  | none =>
    obtain ⟨new_i, t, w', -, -, -, hstep⟩ := walkStep_search env b hS h4096 hlast hin hentry
    rw [hstep]
    exact fun h => by cases h
  | some entry =>
    unfold walkStep
    rw [if_neg (not_not.mpr hin)]
    apply Loop.bind_ne_error (printAtIndex_ne_fuel hS h4096 hentry _ _ _)
    intro p hp
    obtain ⟨-, -, -, -, herr, -⟩ := printAtIndex_inv env hS
      ((RingBuffer.entry_length hentry).2.2.trans h4096) hentry (by omega) hp
    simp only [herr, Bool.false_eq_true, if_false]
    split
    · exact fun h => by cases h
    split <;> exact fun h => by cases h

/-- A round that goes again stands further on in the range, if there is an entry
in the ring, or it does not go on after a failure. -/
theorem walkStep_advances (hS : w.log.ringBuffer.size < 2147483648) (h4096 : 4096 ≤ w.log.ringBuffer.size)
    (hlast : last ≤ w.log.ringBuffer.size) (hb : b = false ∨ ∃ q, w.log.ringBuffer.entryAt q ≠ none)
    (h : walkStep env last b w = .ok (.again w')) : w.i < w'.i ∧ w'.i ≤ last ∧ w.log.Same w'.log := by
  by_cases hin : w.i < last
  swap
  · rw [walkStep_end env b (Nat.le_of_not_lt hin)] at h
    cases h
  cases hentry : w.log.ringBuffer.entryAt w.i with
  | none =>
    obtain ⟨new_i, t, w1, hs, -, hfound, hstep⟩ := walkStep_search env b hS h4096 hlast hin hentry
    rw [hstep] at h
    cases b with
    | false => cases h
    | true =>
      rw [if_neg (not_not.mpr rfl)] at h
      by_cases hbehind : last < new_i
      · rw [if_pos hbehind] at h
        cases h
      rw [if_neg hbehind] at h
      cases h
      refine ⟨?_, Nat.le_of_not_lt hbehind, hs⟩
      rcases hfound with ⟨hlt, -, -⟩ | ⟨-, hnone⟩
      · exact hlt
      · -- the ring is not without entries
        obtain ⟨q, hq⟩ := hb.resolve_left (by decide)
        obtain ⟨j, -, entry, hj, -⟩ := exists_first_entry w.log.ringBuffer w.i ⟨q, hq⟩
        rw [hnone j] at hj
        cases hj
  | some entry =>
    obtain ⟨w1, hs, ⟨-, -, hr⟩ | ⟨hr, hle, rest, d, text, -, -, hi, -⟩⟩ :=
      walkStep_entry env b hS h4096 hlast hin hentry h
    · cases hr
    · cases hr
      exact ⟨by omega, hle, hs⟩

/-- The loop of `dumpRange` ends: it does not run on, and every round that goes
again stands further on in the range. -/
def Ends (env : Env) (log : Log) (start last : ℕ) (b : Bool) : Prop :=
  (∃ n, dumpRange env n log start last b ≠ .error .fuel) ∧
    ∀ w w', Loop.Visits (walkStep env (rangeEnd log.ringBuffer.size start last) b)
      ⟨start % log.ringBuffer.size, stackBuffer env, zeroHeader, log, []⟩ w →
      walkStep env (rangeEnd log.ringBuffer.size start last) b w = .ok (.again w') →
      w.i < w'.i ∧ w'.i ≤ rangeEnd log.ringBuffer.size start last

theorem ends_of_entry (hS : log.ringBuffer.size < 2147483648) (h4096 : 4096 ≤ log.ringBuffer.size)
    (start last : ℕ) (hb : b = false ∨ ∃ q, log.ringBuffer.entryAt q ≠ none) :
    Ends env log start last b := by
  have hle := rangeEnd_le log.ringBuffer.size_pos start last
  constructor
  · refine ⟨rangeEnd log.ringBuffer.size start last + 1, ?_⟩
    rw [dumpRange_eq]
    refine Loop.bind_ne_error (Loop.run_ne_out (fun w => log.Same w.log)
      (fun w => rangeEnd log.ringBuffer.size start last - w.i) (fun w hs => ?_) (Same.refl log) (by omega))
      fun _ _ h => by cases h
    have hrb := hs.ringBuffer
    refine ⟨walkStep_ne_fuel (by rw [hrb]; exact hS) (by rw [hrb]; exact h4096) (by rw [hrb]; exact hle),
      fun w' hstep => ?_⟩
    obtain ⟨hlt, hle', hs'⟩ := walkStep_advances (by rw [hrb]; exact hS) (by rw [hrb]; exact h4096)
      (by rw [hrb]; exact hle) (by rw [hrb]; exact hb) hstep
    exact ⟨hs.trans hs', by omega⟩
  · intro w w' hvisit hstep
    have hround : ∀ w w', log.Same w.log → walkStep env
        (rangeEnd log.ringBuffer.size start last) b w = .ok (.again w') →
        w.i < w'.i ∧ w'.i ≤ rangeEnd log.ringBuffer.size start last ∧ w.log.Same w'.log := by
      intro w w' hs hstep
      have hrb := hs.ringBuffer
      exact walkStep_advances (by rw [hrb]; exact hS) (by rw [hrb]; exact h4096) (by rw [hrb]; exact hle)
        (by rw [hrb]; exact hb) hstep
    have hs := hvisit.inv (fun w => log.Same w.log) (Same.refl log)
      fun w w' hs hstep => hs.trans (hround w w' hs hstep).2.2
    obtain ⟨hlt, hle', -⟩ := hround w w' hs hstep
    exact ⟨hlt, hle'⟩

/-- In a ring without entries a walk that goes on after a failure starts over. -/
theorem not_ends_of_none (hS : log.ringBuffer.size < 2147483648)
    (h4096 : 4096 ≤ log.ringBuffer.size) {start last : ℕ}
    (hnone : ∀ q, log.ringBuffer.entryAt q = none)
    (hstart : start % log.ringBuffer.size < rangeEnd log.ringBuffer.size start last) :
    ¬ Ends env log start last true := by
  rintro ⟨⟨n, hn⟩, -⟩
  have hle := rangeEnd_le log.ringBuffer.size_pos start last
  refine hn ?_
  rw [dumpRange_eq, Loop.run_out (fun w => log.Same w.log ∧
    w.i < rangeEnd log.ringBuffer.size start last) ?_ n
    ⟨Same.refl log, hstart⟩]
  · rfl
  · rintro w ⟨hs, hin⟩
    have hrb := hs.ringBuffer
    obtain ⟨new_i, t, w', hs', -, hfound, hstep⟩ := walkStep_search env true (by rw [hrb]; exact hS)
      (by rw [hrb]; exact h4096) (by rw [hrb]; exact hle) hin (by rw [hrb]; exact hnone w.i)
    obtain ⟨rfl, -⟩ := hfound.resolve_left (by rw [hrb]; simp [hnone])
    rw [if_neg (not_not.mpr rfl), if_neg (Nat.not_lt_zero _)] at hstep
    exact ⟨_, hstep, hs.trans hs', by simp only; omega⟩

theorem ends_of_empty {start last : ℕ}
    (h : rangeEnd log.ringBuffer.size start last ≤ start % log.ringBuffer.size) :
    Ends env log start last b := by
  constructor
  · refine ⟨1, ?_⟩
    rw [dumpRange_eq, Loop.run_done (walkStep_end env b h)]
    exact fun h => by cases h
  · intro w w' hvisit hstep
    have hin := hvisit.inv (fun w => rangeEnd log.ringBuffer.size start last ≤ w.i) h fun w w' hin hstep => by
      rw [walkStep_end env b hin] at hstep
      cases hstep
    rw [walkStep_end env b hin] at hstep
    cases hstep

/-- **The walk ends, except in an empty log.** After any calls `dumpRange` ends
over every range, unless nothing has been logged, the range is not empty, and it
is to go on after a failure. -/
theorem dumpRange_ends_iff (env : Env) (S : ℕ) (h0 : 4096 ≤ S) (h1 : S < 2147483648)
    (calls : List Call) (log : Log) (es : List Entry)
    (hrun : traceAll env (Log.new S (lines_pos h0) h1) calls = .ok (log, es)) (start last : ℕ)
    (b : Bool) : Ends env log start last b ↔ calls ≠ [] ∨ b = false ∨ start % S = last % S + 1 := by
  obtain ⟨htracks, hcalls, -⟩ := traceAll_traced h0 h1 (Tracks.new (by omega) h1) hrun
  rw [List.nil_append] at htracks
  have hsize := htracks.size
  have hlog : log.ringBuffer.size < 2147483648 := by omega
  have hlog' : 4096 ≤ log.ringBuffer.size := by omega
  rcases List.eq_nil_or_concat calls with hnil | ⟨calls', call, hconcat⟩
  · -- nothing has been logged
    subst hnil
    obtain ⟨rfl, -⟩ := Prod.mk.inj (Except.ok.inj hrun)
    simp only [ne_eq, not_true_eq_false, false_or]
    cases b with
    | false => exact iff_of_true (ends_of_entry hlog hlog' start last (.inl rfl)) (.inl rfl)
    | true =>
      have hpos : 0 < S := by omega
      have hmod := Nat.mod_lt start hpos
      have hrange : start % S < rangeEnd S start last ↔ start % S ≠ last % S + 1 := by
        unfold rangeEnd
        split <;> omega
      by_cases hempty : start % S = last % S + 1
      · refine iff_of_true (ends_of_empty (Nat.le_of_not_lt ?_)) (.inr hempty)
        rw [hsize]
        exact fun hlt => hrange.mp hlt hempty
      · refine iff_of_false (not_ends_of_none hlog hlog' (entryAt_zero fun _ => rfl) ?_)
          (by simpa using hempty)
        rw [hsize]
        exact hrange.mpr hempty
  · -- the last record is in the ring
    rw [List.concat_eq_append] at hconcat
    subst hconcat
    obtain ⟨pre, tail, rfl, -, htail⟩ := List.map_eq_append_iff.mp hcalls
    obtain ⟨e, post, rfl, -, hpost⟩ := List.map_eq_cons_iff.mp htail
    obtain rfl := List.map_eq_nil_iff.mp hpost
    have hlen := (htracks.genuine e (by simp)).length_le
    have hentry := htracks.entryAt
      (show e.bytes.length + (flat []).length ≤ S by rw [flat_nil, List.length_nil]; omega)
    exact iff_of_true (ends_of_entry hlog hlog' start last
      (.inr ⟨_, by rw [hentry]; exact Option.some_ne_none _⟩))
      (.inl (by simp))

/-- A log with a record: the walk ends. -/
theorem dumpRange_ends_example : ∃ log es,
    traceAll stringEnv (Log.new 4096 (by decide) (by decide)) [stringCall (letters 5 (by decide))] =
      .ok (log, es) ∧
      Ends stringEnv log 0 0 true := by
  obtain ⟨log, es, hrun, -, -⟩ := traceAll_strings (le_refl 4096) (by decide) [letters 5 (by decide)]
    (by simp [letters_length])
  exact ⟨log, es, hrun, (dumpRange_ends_iff stringEnv 4096 (le_refl _) (by decide) _ log es hrun 0 0 true).mpr
    (.inl (List.cons_ne_nil _ _))⟩

/-- In the empty log a walk over the first byte starts over without end. -/
theorem dumpRange_runs_on : ¬ Ends stringEnv (Log.new 4096 (by decide) (by decide)) 0 0 true :=
  not_ends_of_none (by decide) (le_refl 4096) (entryAt_zero fun _ => rfl) (by decide)

end Log
end Memlog
