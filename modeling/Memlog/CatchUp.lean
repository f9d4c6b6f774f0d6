/-
# Catching up

After a `collect` nothing is left to collect if the bookmark has come to the last
written index. That depends on the last range the `collect` dumps: from where it
starts the walk looks for the first entry, and from the start of a record it comes
to the end of the range (`dumpRange_arrives`). If the first entry is behind the
range the walk stays where it is (`dumpRange_stays`), and the next `collect` starts
over (`collect_falls_behind`).

Key definitions: `RingBuffer.FirstFrom`, `Collect.Realigns`, `Collect.CaughtUp`.
-/
import Memlog.Dump

namespace Memlog

open Circular ByteCodec

/-- `x` is the first position from `a` on at which `getLog` finds an entry. -/
structure RingBuffer.FirstFrom (rb : RingBuffer) (a x : ℕ) : Prop where
  le : a ≤ x
  entry : rb.entryAt x ≠ none
  first : ∀ y, a ≤ y → y < x → rb.entryAt y = none

theorem RingBuffer.FirstFrom.unique {rb : RingBuffer} {a x y : ℕ} (hx : rb.FirstFrom a x)
    (hy : rb.FirstFrom a y) :
    x = y := by
  rcases Nat.lt_trichotomy x y with hlt | heq | hlt
  · exact absurd (hy.first x hx.le hlt) hx.entry
  · exact heq
  · exact absurd (hx.first y hy.le hlt) hy.entry

theorem RingBuffer.exists_firstFrom {rb : RingBuffer} {a q : ℕ} (hq : a ≤ q) (h : rb.entryAt q ≠ none) :
    ∃ x ≤ q, rb.FirstFrom a x := by
  classical
  have hex : ∃ x, a ≤ x ∧ rb.entryAt x ≠ none := ⟨q, hq, h⟩
  refine ⟨Nat.find hex, Nat.find_min' hex ⟨hq, h⟩, (Nat.find_spec hex).1, (Nat.find_spec hex).2,
    fun y hy hlt => ?_⟩
  by_contra hne
  exact Nat.find_min hex hlt ⟨hy, hne⟩

namespace Collect

/-- Where the last range that `collect` dumps starts. -/
def lastStart (S : ℕ) (c : Collect) : ℕ :=
  if c.collectorBookmark % S < c.log.bufLastWrittenIndex % S then c.collectorBookmark % S else 0

/-- Where a range up to the last written index ends: a whole lap is not empty. -/
def lastEnd (S : ℕ) (c : Collect) : ℕ :=
  if c.log.bufLastWrittenIndex % S = 0 then S else c.log.bufLastWrittenIndex % S

/-- There is nothing to collect, or the first entry that the walk over the last range
finds is a record of the journal `es` that ends in the range, or lies right behind
the range. -/
def Realigns (S : ℕ) (c : Collect) (es : List Entry) : Prop :=
  c.collectorBookmark % S = c.log.bufLastWrittenIndex % S ∨
  ∃ x ≤ c.lastEnd S, c.log.ringBuffer.FirstFrom (c.lastStart S) x ∧
    (x = c.lastEnd S ∨ ∃ e, StartsAt es ((flat es).length - (c.lastEnd S - x)) e)

/-- Nothing is left to collect, the worker thread idles, and another `collect` writes
nothing. -/
structure CaughtUp (env : Env) (c : Collect) : Prop where
  bookmark : c.log.ringBuffer.normalize c.collectorBookmark =
    c.log.ringBuffer.normalize c.log.bufLastWrittenIndex
  idle : ∀ bufferThresholdPct, c.shallCollect bufferThresholdPct = false
  silent : ∀ fuel, ∃ c', c.collect env fuel = .ok (c', [])

theorem caughtUp_iff {env : Env} {S : ℕ} {c : Collect} (hS : c.log.ringBuffer.size = S) :
    c.CaughtUp env ↔ c.collectorBookmark % S = c.log.bufLastWrittenIndex % S := by
  subst hS
  refine ⟨CaughtUp.bookmark, fun h => ⟨h, fun pct => ?_, fun fuel => ?_⟩⟩
  · unfold shallCollect
    simp only [RingBuffer.normalize, h, if_true]
  · unfold collect
    simp only [RingBuffer.normalize, h, if_true]
    exact ⟨_, rfl⟩

end Collect

/-! ### The last range -/

section Range

variable {env : Env} {S : ℕ} {log log' : Log} {es : List Entry} {line : Entry → List UInt8}
  {start last fuel i stop : ℕ}
  {out : List Chunk}

/-- From the start of a record the walk gets to the next one, or to the end of the
range. -/
theorem walkStep_next {w : Log.Walk} {r : Loop.Next Log.Walk Log.Walk} {e : Entry}
    (h1 : S < 2147483648) (h0 : 4096 ≤ S) (ht : Tracks S log es) (hp : e.Prints env (line e))
    (hstop : stop ≤ S) (hmod : stop % S = (flat es).length % S) (hle : stop ≤ (flat es).length)
    (hs : log.Same w.log) (hin : w.i < stop) (he : StartsAt es ((flat es).length - (stop - w.i)) e)
    (h : Log.walkStep env stop true w = .ok r) :
    ∃ w', r = .again w' ∧ w'.i ≤ stop ∧
      (w'.i = stop ∨ ∃ f, StartsAt es ((flat es).length - (stop - w'.i)) f) := by
  have hsize := (ht.same hs).size
  -- the cell of the record
  have hturn : ((flat es).length - stop) % S = 0 := Nat.sub_mod_eq_zero_of_mod_eq hmod.symm
  have hpos : (flat es).length - (stop - w.i) = (flat es).length - stop + w.i := by omega
  have hcell : ((flat es).length - (stop - w.i)) % w.log.ringBuffer.size = w.i % w.log.ringBuffer.size := by
    rw [hsize, hpos, Nat.add_mod, hturn, Nat.zero_add, Nat.mod_mod]
  have hentry := he.entryAt (ht.same hs) (by omega)
  rw [w.log.ringBuffer.entryAt_congr hcell] at hentry
  have hend := he.end_le
  have hgenuine : e.Genuine := by
    obtain ⟨pre, post, rfl, -⟩ := he
    exact ht.genuine e (by simp)
  have hlen := hgenuine.length_le
  rcases Log.walkStep_record env true (by rw [hsize]; exact h1) (by rw [hsize]; omega)
      (by omega) hentry hgenuine hp
    hin h with ⟨hout, -⟩ | ⟨hin', -, w', rfl, hi, -⟩
  · omega
  refine ⟨w', rfl, by omega, ?_⟩
  have hpos' : (flat es).length - (stop - w.i) + e.bytes.length = (flat es).length - (stop - w'.i) := by omega
  rcases he.next with hnext | ⟨f, hf⟩
  · exact .inl (by omega)
  · rw [hpos'] at hf
    exact .inr ⟨f, hf⟩

/-- A walk that comes upon a record arrives at the end of the range. -/
theorem dumpRange_arrives (h1 : S < 2147483648) (h0 : 4096 ≤ S) (ht : Tracks S log es)
    (hp : ∀ e ∈ es, e.Prints env (line e)) (hstop : Log.rangeEnd S start last = stop)
    (hmod : stop % S = (flat es).length % S) (hle : stop ≤ (flat es).length) {x : ℕ} (hx : x ≤ stop)
    (hfirst : log.ringBuffer.FirstFrom (start % S) x)
    (hstart : x = stop ∨ ∃ e, StartsAt es ((flat es).length - (stop - x)) e)
    (h : log.dumpRange env fuel start last true = .ok (i, log', out)) : log.Same log' ∧ i = stop := by
  have hsize := ht.size
  have hstopS : stop ≤ S := hstop ▸ Log.rangeEnd_le (by omega) start last
  have hprints : ∀ q e, StartsAt es q e → e.Prints env (line e) := by
    rintro q e ⟨pre, post, rfl, -⟩
    exact hp e (by simp)
  let I : Log.Walk → Prop := fun w => w.i ≤ stop ∧
    (w.i = start % S ∨ w.i = stop ∨ ∃ e, StartsAt es ((flat es).length - (stop - w.i)) e)
  have hround : ∀ w r, log.Same w.log → I w → Log.walkStep env stop true w = .ok r →
      (∀ w', r = .again w' → I w') ∧ ∀ w', r = .done w' → w'.i = stop := by
    rintro w r hs ⟨hwi, hI⟩ hstep
    have hrb := hs.ringBuffer
    rcases Nat.lt_or_ge w.i stop with hin | hge
    swap
    · rw [Log.walkStep_end env true hge] at hstep
      obtain rfl := Except.ok.inj hstep
      refine ⟨fun w' h => (by cases h), fun w' h => ?_⟩
      obtain rfl := Loop.Next.done.inj h
      exact Nat.le_antisymm hwi hge
    -- on a record
    have hrecord : (∃ e, StartsAt es ((flat es).length - (stop - w.i)) e) →
        (∀ w', r = .again w' → I w') ∧ ∀ w', r = .done w' → w'.i = stop := by
      rintro ⟨e, he⟩
      obtain ⟨w', rfl, hle', hnext⟩ := walkStep_next h1 h0 ht (hprints _ e he) hstopS hmod hle hs hin he hstep
      refine ⟨fun w'' h => ?_, fun w'' h => by cases h⟩
      obtain rfl := Loop.Next.again.inj h
      exact ⟨hle', .inr hnext⟩
    rcases hI with hi | hi | he
    · rcases Nat.eq_or_lt_of_le hfirst.le with hxi | hlt
      · rcases hstart with heq | he
        · omega
        · rw [← hxi, ← hi] at he
          exact hrecord he
      · -- in front of the first entry
        have hentry : w.log.ringBuffer.entryAt w.i = none := by
          rw [hrb, hi]
          exact hfirst.first _ (Nat.le_refl _) hlt
        obtain ⟨new_i, t, w', -, -, hfound, hround⟩ :=
          Log.walkStep_search env true (by rw [hrb, hsize]; exact h1)
          (by rw [hrb, hsize]; exact h0) (by rw [hrb, hsize]; exact hstopS) hin hentry
        rw [hrb, hi] at hfound
        have hnew : new_i = x := by
          rcases hfound with ⟨hlt', hne, hnone⟩ | ⟨-, hnone⟩
          · exact (RingBuffer.FirstFrom.unique ⟨hlt'.le, hne, hnone⟩ hfirst)
          · obtain ⟨k, rfl⟩ := Nat.exists_eq_add_of_le hfirst.le
            exact absurd (hnone k) hfirst.entry
        rw [hround, hnew, if_neg (not_not.mpr rfl), if_neg (by omega)] at hstep
        obtain rfl := Except.ok.inj hstep
        refine ⟨fun w'' h => ?_, fun w'' h => by cases h⟩
        obtain rfl := Loop.Next.again.inj h
        exact ⟨hx, .inr hstart⟩
    · omega
    · exact hrecord he
  obtain ⟨hs, w, hw, rfl, -⟩ := Log.dumpRange_induct env true I (fun w => w.i = stop) h
    (fun buf => ⟨by rw [hsize]; exact hfirst.le.trans hx, .inl (by rw [hsize])⟩)
    (fun w w' hs hw hstep => (hround w _ hs hw (by rw [← hstop, ← hsize]; exact hstep)).1 w' rfl)
    (fun w w' hs hw hstep => (hround w _ hs hw (by rw [← hstop, ← hsize]; exact hstep)).2 w' rfl)
  exact ⟨hs, hw⟩

/-- A walk over a range in which there is no entry, nor right behind it, stays where it
starts. -/
theorem dumpRange_stays (h1 : S < 2147483648) (h0 : 4096 ≤ S) (hsize : log.ringBuffer.size = S)
    (hstop : Log.rangeEnd S start last = stop) (hin : start % S < stop)
    (hnone : ∀ x ≤ stop, ¬ log.ringBuffer.FirstFrom (start % S) x) {q : ℕ} (hq : start % S ≤ q)
    (hentry : log.ringBuffer.entryAt q ≠ none) (hfuel : 0 < fuel) :
    ∃ log' t, log.dumpRange env fuel start last true = .ok (start % S, log', [.notice t]) := by
  have hstopS : stop ≤ S := hstop ▸ Log.rangeEnd_le (by omega) start last
  obtain ⟨x, -, hfirst⟩ := RingBuffer.exists_firstFrom hq hentry
  have hbehind : stop < x := by
    by_contra hle
    exact hnone x (by omega) hfirst
  obtain ⟨n, rfl⟩ := Nat.exists_eq_add_of_lt hfuel
  obtain ⟨new_i, t, w', -, hout, hfound, hround⟩ := @Log.walkStep_search env true stop
    ⟨start % S, Log.stackBuffer env, Log.zeroHeader, log, []⟩
    (by rw [hsize]; exact h1) (by rw [hsize]; exact h0)
    (by rw [hsize]; exact hstopS) hin (hfirst.first _ (Nat.le_refl _) (hin.trans hbehind))
  have hnew : new_i = x := by
    rcases hfound with ⟨hlt', hne, hnone⟩ | ⟨-, hnone⟩
    · exact RingBuffer.FirstFrom.unique ⟨hlt'.le, hne, hnone⟩ hfirst
    · obtain ⟨k, rfl⟩ := Nat.exists_eq_add_of_le hfirst.le
      exact absurd (hnone k) hfirst.entry
  rw [hnew, if_neg (not_not.mpr rfl), if_pos hbehind] at hround
  refine ⟨w'.log, t, ?_⟩
  rw [Log.dumpRange_eq, hsize, hstop, Loop.run_done hround, Loop.ok_bind]
  simp only [hout, List.nil_append]
  rfl

end Range

/-! ### Every collect -/

section CatchUp

variable {env : Env} {S : ℕ} {c c' : Collect} {es done pend : List Entry}
  {text : Call → List UInt8} {fuel : ℕ}
  {new out : List Chunk}

theorem Collect.collect_same (hcollect : c.collect env fuel = .ok (c', new)) : c.log.Same c'.log := by
  rcases Collect.collect_cases rfl hcollect with ⟨-, rfl, -⟩ | ⟨-, i, log, hdump, rfl⟩ |
    ⟨-, i, log, top, i', log', bottom, htop, hbottom, rfl, -⟩
  · exact Log.Same.refl _
  · exact Log.dumpRange_same env hdump
  · exact (Log.dumpRange_same env htop).trans (Log.dumpRange_same env hbottom)

/-- What holds in every run of calls that round-trip. -/
structure Reached (env : Env) (S : ℕ) (text : Call → List UInt8) (c : Collect) (es : List Entry) : Prop where
  tracks : Tracks S c.log es
  prints : ∀ e ∈ es, e.Prints env (e.line env text)
  empty : es = [] → c.collectorBookmark % S = c.log.bufLastWrittenIndex % S

theorem Reached.trace {call : Call} {log : Log} {e : Entry} (h : Reached env S text c es) (h0 : 4096 ≤ S)
    (h1 : S < 2147483648) (hcall : Renders env text call) (ht : Traced env c.log call log e) :
    Reached env S text { c with log := log } (es ++ [e]) where
  tracks := h.tracks.step h1 ht (ht.genuine.length_le.trans h0)
  prints x hx := by
    rcases List.mem_append.mp hx with hx | hx
    · exact h.prints x hx
    · obtain rfl := List.mem_singleton.mp hx
      exact ht.prints_line hcall
  empty hnil := absurd hnil (List.append_ne_nil_of_right_ne_nil es (List.cons_ne_nil e []))

theorem Reached.collect (h : Reached env S text c es)
    (hcollect : c.collect env fuel = .ok (c', new)) : Reached env S text c' es where
  tracks := h.tracks.same (Collect.collect_same hcollect)
  prints := h.prints
  empty hnil := by
    rcases Collect.collect_cases h.tracks.size hcollect with ⟨-, rfl, -⟩ | ⟨hlt, -⟩ | ⟨hlt, -⟩
    · rfl
    all_goals exact absurd (h.empty hnil) (by omega)

theorem Run.reached {h0 : 4096 ≤ S} {h1 : S < 2147483648} {P : Collect → List Entry → List Entry → Prop}
    (h : Run env S h0 h1 (Renders env text) P c done pend out) : Reached env S text c (done ++ pend) := by
  induction h with
  | new => exact ⟨Tracks.new _ h1, by simp, fun _ => rfl⟩
  | @trace c done pend out call log e hrun hcall htrace ih =>
    have hsize := ih.tracks.size
    have ht := traced_of_ok (by rw [hsize]; exact h1) (by rw [hsize]; exact h0) htrace
    rw [← List.append_assoc]
    exact ih.trace h0 h1 hcall ht
  | @collect c done pend out fuel c' new hrun hP hcollect ih =>
    rw [List.append_nil]
    exact ih.collect hcollect

/-- The last range that a `collect` dumps, and the bookmark it leaves. -/
theorem Reached.lastRange {log log' : Log} {start i : ℕ} (h : Reached env S text c es) (h0 : 4096 ≤ S)
    (h1 : S < 2147483648) (hne : es ≠ []) (hs : c.log.Same log) (hstart : start % S = c.lastStart S)
    (hin : c.lastStart S < c.lastEnd S)
    (hdump : log.dumpRange env fuel start (u32Sub c.log.bufLastWrittenIndex 1) true = .ok (i, log', out)) :
    ((∃ x ≤ c.lastEnd S, c.log.ringBuffer.FirstFrom (c.lastStart S) x ∧
        (x = c.lastEnd S ∨ ∃ e, StartsAt es ((flat es).length - (c.lastEnd S - x)) e)) →
      i % S = c.log.bufLastWrittenIndex % S) ∧
    (i % S = c.log.bufLastWrittenIndex % S →
      ∃ x ≤ c.lastEnd S, c.log.ringBuffer.FirstFrom (c.lastStart S) x) := by
  have hsize := h.tracks.size
  have hrb := hs.ringBuffer
  have hlast : c.log.bufLastWrittenIndex % S = (flat es).length % S := by
    rw [h.tracks.lastWritten, h.tracks.current]
  have hT := Nat.mod_lt (flat es).length (show 0 < S by omega)
  have hTle := Nat.mod_le (flat es).length S
  have hpos := length_le_flat es
  have hes := List.length_pos_iff.mpr hne
  have hend : c.lastEnd S = if (flat es).length % S = 0 then S else (flat es).length % S := by
    rw [Collect.lastEnd, hlast]
  have hstop : Log.rangeEnd S start (u32Sub c.log.bufLastWrittenIndex 1) = c.lastEnd S := by
    rw [hend] at hin ⊢
    refine h.tracks.rangeEnd_lastWritten hne start ?_
    rw [hstart]
    split at hin <;> omega
  constructor
  · rintro ⟨x, hx, hfirst, hx'⟩
    have hmod : c.lastEnd S % S = (flat es).length % S := by
      rw [hend]
      split
      · rw [Nat.mod_self]
        omega
      · exact Nat.mod_mod _ _
    have hle : c.lastEnd S ≤ (flat es).length := by
      rw [hend]
      split
      · exact Nat.le_of_dvd (by omega) (Nat.dvd_of_mod_eq_zero ‹_›)
      · exact hTle
    rw [← hrb, ← hstart] at hfirst
    obtain ⟨-, rfl⟩ := dumpRange_arrives h1 h0 (h.tracks.same hs) h.prints hstop hmod hle hx hfirst hx' hdump
    rw [hmod, hlast]
  · intro hi
    by_contra hno
    -- the newest record is in the ring
    obtain ⟨pre, e, rfl⟩ : ∃ pre e, es = pre ++ [e] := ⟨_, _, (List.dropLast_append_getLast hne).symm⟩
    have he : StartsAt (pre ++ [e]) (flat pre).length e := ⟨pre, [], rfl, rfl⟩
    have hentry := he.entryAt h.tracks (by
      have hle := (h.tracks.genuine e (by simp)).length_le
      rw [flat_append, List.length_append, flat_cons, flat_nil, List.append_nil]
      omega)
    have hnewest : ∀ q, q % S = (flat pre).length % S → c.log.ringBuffer.entryAt q ≠ none := by
      intro q hq
      rw [← hsize] at hq
      rw [c.log.ringBuffer.entryAt_congr hq, hentry]
      exact Option.some_ne_none _
    have hnone : ∀ x ≤ c.lastEnd S, ¬ log.ringBuffer.FirstFrom (start % S) x := by
      rw [hrb, hstart]
      exact fun x hx hfirst => hno ⟨x, hx, hfirst⟩
    obtain ⟨log'', t, hstays⟩ :=
      @dumpRange_stays env S log start _ (fuel + 1) _ h1 h0 (by rw [hrb, hsize]) hstop
      (by rw [hstart]; exact hin) hnone ((flat pre).length + S)
      (by rw [hstart]; exact (hin.le.trans (by rw [hend]; split <;> omega)).trans (Nat.le_add_left _ _))
      (by rw [hrb]; exact hnewest _ (Nat.add_mod_right _ _)) (Nat.succ_pos _)
    have hmono := Log.dumpRange_mono (Nat.le_succ fuel) hdump
    rw [hstays] at hmono
    obtain ⟨rfl, -⟩ := Prod.mk.inj (Except.ok.inj hmono)
    rw [hstart, hlast] at hi
    by_cases hzero : (flat (pre ++ [e])).length % S = 0
    · -- the range is a whole lap, and the newest record is in it
      have hfrom : c.lastStart S = 0 := by
        rw [Collect.lastStart, hlast, hzero, if_neg (Nat.not_lt_zero _)]
      have hcell := Nat.mod_lt (flat pre).length (show 0 < S by omega)
      obtain ⟨x, hx, hfirst⟩ := RingBuffer.exists_firstFrom (Nat.zero_le ((flat pre).length % S))
        (hnewest _ (Nat.mod_mod _ _))
      exact hno ⟨x, by rw [hend, if_pos hzero]; omega, by rw [hfrom]; exact hfirst⟩
    · rw [hend, if_neg hzero] at hin
      rw [Nat.mod_eq_of_lt (hin.trans hT)] at hi
      omega

/-- **A `collect` catches up** if the walk over its last range realigns on a record;
and only if it finds an entry that is not behind the range. -/
theorem collect_catches_up {h0 : 4096 ≤ S} {h1 : S < 2147483648}
    (hrun : Run env S h0 h1 (Renders env text) (fun _ _ _ => True) c done pend out)
    (hcollect : c.collect env fuel = .ok (c', new)) :
    (c.Realigns S (done ++ pend) → c'.CaughtUp env) ∧
    (c'.CaughtUp env → c.collectorBookmark % S = c.log.bufLastWrittenIndex % S ∨
      ∃ x ≤ c.lastEnd S, c.log.ringBuffer.FirstFrom (c.lastStart S) x) := by
  have h := hrun.reached
  generalize done ++ pend = es at h ⊢
  have hsize := h.tracks.size
  have hs := Collect.collect_same hcollect
  have hsize' := (h.tracks.same hs).size
  have hlast : c'.log.bufLastWrittenIndex = c.log.bufLastWrittenIndex := by
    obtain ⟨st, hst⟩ := hs
    rw [hst]
  have hmod := Nat.mod_lt c.log.bufLastWrittenIndex (show 0 < S by omega)
  rw [Collect.caughtUp_iff hsize', hlast]
  rcases Collect.collect_cases hsize hcollect with ⟨heq, rfl, -⟩ | ⟨hlt, i, log, hdump, rfl⟩ |
    ⟨hlt, i, log, top, i', log', bottom, htop, hbottom, rfl, -⟩
  · exact ⟨fun _ => rfl, fun _ => .inl heq⟩
  · have hne : es ≠ [] := fun hnil => by
      have heq := h.empty hnil
      omega
    have hstart : c.lastStart S = c.collectorBookmark % S := if_pos hlt
    have hend : c.lastEnd S = c.log.bufLastWrittenIndex % S := if_neg (by omega)
    obtain ⟨hup, hdown⟩ :=
      h.lastRange h0 h1 hne (Log.Same.refl _) hstart.symm (by rw [hstart, hend]; exact hlt) hdump
    exact ⟨fun hre => hup (hre.resolve_left (by omega)), fun hc => .inr (hdown hc)⟩
  · have hne : es ≠ [] := fun hnil => by
      have heq := h.empty hnil
      omega
    have hstart : c.lastStart S = 0 := if_neg (by omega)
    have hend : 0 < c.lastEnd S := by
      unfold Collect.lastEnd
      split <;> omega
    have hs1 := Log.dumpRange_same env htop
    obtain ⟨hup, hdown⟩ :=
      h.lastRange h0 h1 hne hs1 (by rw [hstart, Nat.zero_mod]) (by rw [hstart]; exact hend) hbottom
    exact ⟨fun hre => hup (hre.resolve_left (by omega)), fun hc => .inr (hdown hc)⟩

end CatchUp

/-- A second `collect`, around the end of the ring, realigns on the last of four records. -/
theorem collect_catches_up_example : ∃ c e1 e2 e3 e4 out c' new,
    Run stringEnv 4096 (le_refl _) (by decide) (Renders stringEnv callText)
      (fun _ _ _ => True) c [e1, e2] [e3, e4] out ∧
      c.log.bufLastWrittenIndex % 4096 < c.collectorBookmark % 4096 ∧
      c.collect stringEnv 4097 = .ok (c', new) ∧ c'.CaughtUp stringEnv := by
  obtain ⟨c, e1, e2, e3, e4, out, h⟩ := exists_turned (P := fun _ _ _ => True) fun _ _ _ _ _ _ _ => trivial
  obtain ⟨c', new, -, -, hall⟩ := h.caught.collect (le_refl _) (by decide) h.whole.1 h.whole.2
  obtain ⟨hbookmark, hlast⟩ := h.wraps
  have hstart : StartsAt ([e1, e2] ++ [e3, e4]) 4096 e4 := by
    refine ⟨[e1, e2, e3], [], rfl, ?_⟩
    have htotal := h.total
    have hlen := h.length4
    simp only [flat_append, flat_cons, flat_nil, List.append_nil, List.length_append] at htotal ⊢
    omega
  have hentry : c.log.ringBuffer.entryAt 0 ≠ none := by
    have hcell : 0 % c.log.ringBuffer.size = 4096 % c.log.ringBuffer.size := by rw [h.caught.tracks.size]
    rw [c.log.ringBuffer.entryAt_congr hcell, hstart.entryAt h.caught.tracks (by rw [h.total]; decide)]
    exact Option.some_ne_none _
  have hfrom : c.lastStart 4096 = 0 := by
    rw [Collect.lastStart, hbookmark, hlast]
    rfl
  have hto : c.lastEnd 4096 = 69 := by
    rw [Collect.lastEnd, hlast]
    rfl
  have hrealigns : c.Realigns 4096 ([e1, e2] ++ [e3, e4]) := by
    refine .inr ⟨0, Nat.zero_le _,
      ⟨by rw [hfrom], hentry, fun y _ hy => absurd hy (Nat.not_lt_zero y)⟩, .inr ⟨e4, ?_⟩⟩
    rw [h.total, hto]
    exact hstart
  exact ⟨c, e1, e2, e3, e4, out, c', new, h.run, by rw [hbookmark, hlast]; decide, hall 4097 (by decide),
    (collect_catches_up h.run (hall 4097 (by decide))).1 hrealigns⟩

/-- The bookmark stays behind a record that lies across the end of the ring and is the
last one: in a ring of 4096 bytes, a record of 3996 bytes that was collected, and then
one of 164. -/
theorem collect_falls_behind : ∃ c done pend out c' new,
    Run stringEnv 4096 (le_refl _) (by decide) (Renders stringEnv callText)
      (fun _ _ _ => True) c done pend out ∧
      c.collect stringEnv 1 = .ok (c', new) ∧ ¬ c'.CaughtUp stringEnv := by
  have h0 : 4096 ≤ 4096 := le_refl _
  have h1 : 4096 < 2147483648 := by decide
  obtain ⟨log1, c2, log3, e1, e3, out, h⟩ := exists_straddling
  have hflat : (flat ([e1] ++ [e3])).length = 4160 := by
    rw [flat_append, List.length_append, h.flat1, h.flat3]
  have htracks := h.caught.tracks
  have hsize : log3.ringBuffer.size = 4096 := htracks.size
  have hb := h.bookmark
  have hlast := h.lastWritten
  have hlen1 := h.length1
  have hlen3 := h.length3
  -- the ring has no other entries
  have hu1 : e1.Unmarked := h.traced1.unmarked_string (by rw [h.args1]; decide +kernel)
    (by rw [h.traced1.header_location (Tracks.new (by decide) h1)]; decide)
    (by rw [h.traced1.header_id]; exact (show 0xce ∉ leBytes 4 0 by decide))
    (by rw [h.traced1.header_length, hlen1]; decide)
  have hid : c2.log.globalId = 1 := by
    obtain ⟨st, hst⟩ := Collect.collect_same h.collected
    rw [hst]
    exact h.traced1.globalId
  have hu3 : e3.Unmarked := h.traced3.unmarked_string (by rw [h.args3]; decide +kernel)
    (by rw [h.traced3.header_location h.tracks1, h.flat1]; decide)
    (by rw [h.traced3.header_id, hid]; decide) (by rw [h.traced3.header_length, hlen3]; decide)
  have hu : ∀ e ∈ [e1] ++ [e3], e.Unmarked := by
    intro e he
    rcases List.mem_pair.mp he with rfl | rfl
    · exact hu1
    · exact hu3
  have hstarts : ∀ p e, StartsAt ([e1] ++ [e3]) p e → p = 0 ∨ p = 3996 := by
    intro p e he
    rcases he.cons_cases with ⟨hp, -⟩ | ⟨y, hy, he⟩
    · exact .inl hp
    rcases StartsAt.cons_cases he with ⟨hy0, -⟩ | ⟨z, -, pre, post, heq, -⟩
    · exact .inr (by omega)
    · exact absurd (congrArg List.length heq) (by simp)
  have hblank : ∀ x ≤ 64, log3.ringBuffer.entryAt x = none := by
    intro x hx
    by_contra hentry
    rcases Nat.eq_or_lt_of_le hx with rfl | hlt
    · obtain ⟨e, he⟩ := htracks.startsAt_of_entryAt hu (by rw [hflat]) (by rw [hflat]; decide) hentry
      exact absurd (hstarts _ e he) (by decide)
    · have hcell : (4096 + x) % log3.ringBuffer.size = x % log3.ringBuffer.size := by
        rw [hsize, Nat.add_mod_left]
      rw [← log3.ringBuffer.entryAt_congr hcell] at hentry
      obtain ⟨e, he⟩ := htracks.startsAt_of_entryAt hu (by rw [hflat]; omega) (by rw [hflat]; omega) hentry
      have hp := hstarts _ e he
      omega
  have hentry3 : log3.ringBuffer.entryAt 3996 = some e3.bytes := by
    have hstart : StartsAt ([e1] ++ [e3]) 3996 e3 := ⟨[e1], [], rfl, h.flat1⟩
    exact hstart.entryAt htracks (by rw [hflat]; decide)
  -- the upper half stops in front of the second record, the lower one at its start
  have hend : Log.rangeEnd 4096 c2.collectorBookmark (u32Sub 4096 1) = 4096 := by
    rw [Log.rangeEnd, hb]
    decide
  have hend' : Log.rangeEnd 4096 0 (u32Sub log3.bufLastWrittenIndex 1) = 64 := by
    have hrange := htracks.rangeEnd_lastWritten (by simp) 0 (.inl (by rw [Nat.zero_mod]; exact Nat.zero_le _))
    rw [hflat] at hrange
    exact hrange
  obtain ⟨w, hstep, hi, hout, hs⟩ := @Log.walkStep_overrun stringEnv true 4096
    ⟨3996, Log.stackBuffer stringEnv, Log.zeroHeader, log3, []⟩ e3 _ (by rw [hsize]; exact h1)
    (by rw [hlen3, hsize]; decide) h1 hentry3 (htracks.genuine e3 (by simp)) (h.caught.prints e3 (by simp))
    (show 3996 < 4096 by decide) (show 4096 < 3996 + e3.bytes.length by omega) (by rw [h.line3]; decide)
  have htop : log3.dumpRange stringEnv 1 c2.collectorBookmark (u32Sub 4096 1) true =
      .ok (3996, w.log, []) := by
    rw [Log.dumpRange_eq, hsize, hend, hb, Loop.run_done hstep, Loop.ok_bind, hi, hout]
    rfl
  have hrb := hs.ringBuffer
  obtain ⟨log4, t, hbottom⟩ :=
    @dumpRange_stays stringEnv 4096 w.log 0 (u32Sub log3.bufLastWrittenIndex 1) 1 64 h1 h0
    (by rw [hrb]; exact hsize) hend' (by decide)
    (fun x hx hfirst => hfirst.entry (by rw [hrb]; exact hblank x hx)) 3996 (by decide)
    (by rw [hrb, hentry3]; exact Option.some_ne_none _) Nat.one_pos
  have hcollect : Collect.collect stringEnv 1 { c2 with log := log3 } =
      .ok (⟨log4, 0⟩, [] ++ [.notice t]) := by
    unfold Collect.collect
    simp only [RingBuffer.normalize, hsize, hb, hlast]
    rw [if_neg (by decide), if_neg (by decide), htop, Loop.ok_bind]
    simp only [hbottom, Loop.ok_bind]
    rfl
  refine ⟨_, _, _, _, _, _, h.run.mono fun _ _ _ _ => trivial, hcollect, fun hcaught => ?_⟩
  have hs4 := Collect.collect_same hcollect
  have hbookmark := (Collect.caughtUp_iff (hs4.ringBuffer ▸ hsize)).mp hcaught
  obtain ⟨st, hst⟩ := hs4
  rw [hst] at hbookmark
  simp only [hlast] at hbookmark
  exact absurd hbookmark (by decide)

end Memlog
