/-
# What the collector delivers of many producers

In a run whose `collect`s are all settled, the lines of the records before the bookmark
have been written, once (`Consumed`, `Inv.collect`). When all calls are done, a last
`collect` writes the rest if the last written index is the index of the ring, and only
then (`collect_exactly_once`).

Key definitions: `Consumed`, `Inv`.
-/
import Memlog.Producers

namespace Memlog

open Circular

namespace Producers

/-! ### What is consumed -/

/-- The lines of an output, without its notices. -/
def linesOf (out : List Chunk) : List Chunk :=
  out.filter fun
    | .line _ _ => true
    | .notice _ => false

theorem linesOf_append (out out' : List Chunk) : linesOf (out ++ out') = linesOf out ++ linesOf out' :=
  List.filter_append ..

theorem eq_of_flat_length {a a' b b' : List Entry} (h : a ++ b = a' ++ b')
    (hlen : (flat a).length = (flat a').length) :
    a = a' ∧ b = b' := by
  induction a generalizing a' with
  | nil =>
    have hcount := length_le_flat a'
    rw [flat_nil, List.length_nil] at hlen
    obtain rfl := List.eq_nil_of_length_eq_zero (show a'.length = 0 by omega)
    exact ⟨rfl, h⟩
  | cons x a ih =>
    cases a' with
    | nil =>
      have hx := x.length_eq
      rw [flat_cons, flat_nil, List.length_append, List.length_nil] at hlen
      omega
    | cons y a' =>
      obtain ⟨rfl, htail⟩ := List.cons.inj h
      rw [flat_cons, flat_cons, List.length_append, List.length_append] at hlen
      obtain ⟨rfl, rfl⟩ := ih htail (Nat.add_left_cancel hlen)
      exact ⟨rfl, rfl⟩

theorem exists_between {a a' b b' : List Entry} (h : a ++ b = a' ++ b')
    (hle : (flat a).length ≤ (flat a').length) :
    ∃ mid, a' = a ++ mid ∧ b = mid ++ b' := by
  rcases List.append_eq_append_iff.mp h with ⟨mid, ha, hb⟩ | ⟨mid, ha, hb⟩
  · exact ⟨mid, ha, hb⟩
  · rw [ha, flat_append, List.length_append] at hle
    have hcount := length_le_flat mid
    obtain rfl := List.eq_nil_of_length_eq_zero (show mid.length = 0 by omega)
    rw [List.append_nil] at ha
    exact ⟨[], by rw [ha, List.append_nil], hb.symm⟩

/-- The records before position `b` are set, and their lines have been written, each
once and in their order, and no others. -/
structure Consumed (line : Entry → List UInt8) (b : ℕ) (ps : List Producer) (out : List Chunk) : Prop where
  set : ∀ p ∈ ps, p.entry.location < b → p.stage ≠ .allocated
  delivered : ∃ done rest, records ps = done ++ rest ∧ (flat done).length = b ∧ linesOf out = lines line done

section Consumed

variable {line : Entry → List UInt8} {b : ℕ} {ps pre post : List Producer} {out : List Chunk} {e : Entry}

theorem Consumed.le (h : Consumed line b ps out) : b ≤ (flat (records ps)).length := by
  obtain ⟨done, rest, heq, hb, -⟩ := h.delivered
  rw [heq, flat_append, List.length_append]
  omega

theorem Consumed.boundary (h : Consumed line b ps out) : Boundary (records ps) b := by
  obtain ⟨done, rest, heq, hb, -⟩ := h.delivered
  rw [heq]
  cases rest with
  | nil =>
    left
    rw [List.append_nil, hb]
  | cons e rest => exact .inr ⟨e, done, rest, rfl, hb⟩

theorem Consumed.notice (h : Consumed line b ps out) (t : List UInt8) :
    Consumed line b ps (out ++ [.notice t]) := by
  refine ⟨h.set, ?_⟩
  rw [linesOf_append]
  exact (List.append_nil (linesOf out)).symm ▸ h.delivered

/-- The line of the next record is written. -/
theorem Consumed.next {s : Stage} (h : Consumed line b ps out) (hps : ps = pre ++ ⟨e, s⟩ :: post)
    (hb : (flat (records pre)).length = b) (hs : s ≠ .allocated)
    (hloc : ∀ x f, StartsAt (records ps) x f → f.location = x) :
    Consumed line (b + e.bytes.length) ps (out ++ [.line e.header (line e)]) := by
  obtain ⟨done, rest, heq, hdone, hlines⟩ := h.delivered
  refine ⟨fun p hp hlt => ?_, ?_⟩
  · rcases location_cases hloc hps hp with rfl | hbefore | hbehind
    · exact hs
    · have hlen := p.entry.length_eq
      exact h.set p hp (by omega)
    · simp only at hbehind
      omega
  · have hrecords : records ps = records pre ++ e :: records post := by
      rw [hps, records_append, records_cons]
    obtain ⟨rfl, rfl⟩ := eq_of_flat_length (heq.symm.trans hrecords) (hdone.trans hb.symm)
    refine ⟨records pre ++ [e], records post, by rw [hrecords, List.append_assoc]; rfl, ?_, ?_⟩
    · rw [flat_append, List.length_append, hdone, flat_cons, flat_nil, List.append_nil]
    · rw [linesOf_append, hlines, lines, lines, List.map_append]
      rfl

theorem Consumed.all (h : Consumed line (flat (records ps)).length ps out) :
    linesOf out = lines line (records ps) := by
  obtain ⟨done, rest, heq, hdone, hlines⟩ := h.delivered
  obtain ⟨rfl, -⟩ := eq_of_flat_length (heq.symm.trans (List.append_nil _).symm) hdone
  exact hlines

theorem Consumed.new (ps : List Producer) : Consumed line 0 ps [] :=
  ⟨fun _ _ hlt => absurd hlt (Nat.not_lt_zero _), [], records ps, rfl, rfl, rfl⟩

/-- A call that allocates does so behind position `b`. -/
theorem Consumed.allocate (h : Consumed line b ps out) (hb : b ≤ e.location) :
    Consumed line b (ps ++ [⟨e, .allocated⟩]) out := by
  obtain ⟨done, rest, heq, hdone, hlines⟩ := h.delivered
  refine ⟨fun p hp hlt => ?_, done, rest ++ [e], ?_, hdone, hlines⟩
  · rcases List.mem_append.mp hp with hp | hp
    · exact h.set p hp hlt
    · obtain rfl := List.mem_singleton.mp hp
      exact absurd hlt (Nat.not_lt.mpr hb)
  · rw [records_append, heq, List.append_assoc]
    rfl

theorem Consumed.stage {s s' : Stage} (h : Consumed line b (pre ++ ⟨e, s⟩ :: post) out)
    (hs' : s' ≠ .allocated) :
    Consumed line b (pre ++ ⟨e, s'⟩ :: post) out := by
  refine ⟨fun p hp hlt => ?_, by rw [records_stage pre post e s' s]; exact h.delivered⟩
  rcases List.mem_append.mp hp with hp | hp
  · exact h.set p (List.mem_append_left _ hp) hlt
  · rcases List.mem_cons.mp hp with rfl | hp
    · exact hs'
    · exact h.set p (List.mem_append_right _ (List.mem_cons_of_mem _ hp)) hlt

end Consumed

/-! ### A `collect` -/

section Collect

variable {env : Env} {S : ℕ} {line : Entry → List UInt8} {log : Log} {ps : List Producer} {b last : ℕ}
  {out : List Chunk}

theorem Placed.exists_producer (h : Placed env S line log ps) {x : ℕ} {e : Entry}
    (he : StartsAt (records ps) x e) :
    ∃ pre s post, ps = pre ++ ⟨e, s⟩ :: post ∧ (flat (records pre)).length = x ∧ e.location = x := by
  have hloc := h.located x e he
  obtain ⟨esPre, esPost, heq, hx⟩ := he
  obtain ⟨pre, ps', rfl, rfl, htail⟩ := List.map_eq_append_iff.mp heq
  obtain ⟨⟨f, s⟩, post, rfl, rfl, -⟩ := List.map_eq_cons_iff.mp htail
  exact ⟨pre, s, post, rfl, hx, hloc⟩

/-- Bytes in front of which none that are set lie: the range is blank from a call on
that has not set its own. -/
theorem Placed.blank_range (h : Placed env S line log ps) (htotal : (flat (records ps)).length < S) {x : ℕ}
    (hlast : last ≤ (flat (records ps)).length)
    (hunset : ∀ p ∈ ps, x < p.entry.location + p.entry.bytes.length → p.entry.location ≤ last →
      p.stage = .allocated) :
    ∀ y, x ≤ y → y ≤ last → log.ringBuffer.Blank y := by
  intro y hxy hy
  rcases Nat.lt_or_ge y (flat (records ps)).length with hlt | hge
  · obtain ⟨z, e, he, hzy, hyz⟩ := exists_startsAt hlt
    obtain ⟨pre, s, post, rfl, -, hloc⟩ := h.exists_producer he
    obtain rfl : s = .allocated := hunset ⟨e, s⟩ (by simp) (by simp only; omega) (by simp only; omega)
    exact h.blank htotal (by omega) (by omega)
  · exact h.blank_behind hge (by omega)

theorem Placed.exists_fitting (h : Placed env S line log ps)
    (htotal : (flat (records ps)).length < S) {p : Producer} (hp : p ∈ ps)
    (hset : p.stage ≠ .allocated) (x : ℕ) : ∃ j < S, log.ringBuffer.Fitting (x + j) := by
  obtain ⟨pre, post, rfl⟩ := List.append_of_mem hp
  have hsize := h.size
  have hloc := h.location
  have hend : (flat (records pre)).length + p.entry.bytes.length ≤
      (flat (records (pre ++ p :: post))).length := by
    rw [records_append, records_cons, flat_append, flat_cons, List.length_append, List.length_append]
    omega
  obtain ⟨j, hj, hmod⟩ := exists_dist (show p.entry.location < S by omega) x
  refine ⟨j, hj, p.entry.bytes, ?_, by omega⟩
  have hcell : (x + j) % log.ringBuffer.size = p.entry.location % log.ringBuffer.size := by
    rw [hsize, ← hmod, Nat.mod_eq_of_lt (by omega)]
  rw [log.ringBuffer.entryAt_congr hcell]
  exact h.entryAt hset htotal

theorem Placed.round_set {w : Log.Walk} {r : Loop.Next Log.Walk Log.Walk} {pre post : List Producer}
    {e : Entry} {s : Stage} {stop : ℕ} (h : Placed env S line log ps) (h1 : S < 2147483648)
    (htotal : (flat (records ps)).length < S) (hps : ps = pre ++ ⟨e, s⟩ :: post)
    (hset : s ≠ .allocated) (hpre : (flat (records pre)).length = w.i) (hs : log.Same w.log)
    (hend : w.i + e.bytes.length ≤ stop) (hstop : stop ≤ S)
    (hw : Consumed line w.i ps (out ++ w.out)) (hstep : Log.walkStep env stop true w = .ok r) :
    ∃ w', r = .again w' ∧ log.Same w'.log ∧ w'.i = w.i + e.bytes.length ∧
      Consumed line w'.i ps (out ++ w'.out) := by
  have h' := h.same hs
  have hsize := h'.size
  have hlen := e.length_eq
  have hentry : w.log.ringBuffer.entryAt w.i = some e.bytes := by
    subst hps
    rw [← hpre, ← h'.location]
    exact h'.entryAt hset htotal
  obtain ⟨hgenuine, hprints⟩ := h.sound e (by rw [hps, records_append]; simp [records])
  rcases Log.walkStep_record env true (by rw [hsize]; exact h1) (by rw [hsize]; omega)
      (by omega) hentry hgenuine
    hprints (by omega) hstep with ⟨hout, -⟩ | ⟨-, -, w', rfl, hi, hout, hsame⟩
  · omega
  · refine ⟨w', rfl, hs.trans hsame, hi, ?_⟩
    rw [hi, hout, ← List.append_assoc]
    exact hw.next hps hpre hset h.located

/-- **A round of the walk** up to the last written index: it writes the next record,
or ends in front of one whose bytes are not set. -/
theorem Placed.round {w : Log.Walk} {r : Loop.Next Log.Walk Log.Walk} (h : Placed env S line log ps)
    (h1 : S < 2147483648) (htotal : (flat (records ps)).length < S) (hset : ∃ p ∈ ps, p.stage ≠ .allocated)
    (hgapless : Gapless b last ps)
    (hlast : Boundary (records ps) last) (hs : log.Same w.log) (hb : b ≤ w.i) (hin : w.i < last)
    (hw : Consumed line w.i ps (out ++ w.out)) (hstep : Log.walkStep env last true w = .ok r) :
    ∃ w', log.Same w'.log ∧ b ≤ w'.i ∧ w'.i ≤ last ∧ Consumed line w'.i ps (out ++ w'.out) ∧
      (r = .again w' ∨ (r = .done w' ∧ ∃ p ∈ ps, p.stage = .allocated)) := by
  have h' := h.same hs
  have hsize := h'.size
  have hle := hlast.le
  obtain ⟨e, he⟩ : ∃ e, StartsAt (records ps) w.i e := by
    rcases hw.boundary with heq | he
    · omega
    · exact he
  obtain ⟨pre, s, post, rfl, hpre, hloc⟩ := h.exists_producer he
  by_cases hstage : s = .allocated
  · -- nothing that is set lies before the end of the range
    subst hstage
    have hunset : ∀ p ∈ pre ++ ⟨e, .allocated⟩ :: post, w.i < p.entry.location + p.entry.bytes.length →
        p.entry.location ≤ last → p.stage = .allocated := by
      intro p hp hend hle
      by_contra hset
      rcases location_cases h.located rfl hp with rfl | hbefore | hbehind
      · exact hset rfl
      · omega
      · have hlen := e.length_eq
        simp only at hbehind
        exact hgapless ⟨e, .allocated⟩ (by simp) p hp (by simp only; omega) (by simp only; omega) hle hset rfl
    have hlen := e.length_eq
    have hfits := he.end_le
    obtain ⟨w', t, hsame, hout, ⟨hi, rfl⟩ | ⟨-, -, hnone⟩⟩ := Log.walkStep_blank env (by rw [hsize]; exact h1)
      (by rw [hsize]; omega) (by rw [hsize]; omega) hin (h'.blank_range htotal hle hunset) hstep
    · refine ⟨w', hs.trans hsame, by omega, by omega, ?_, .inr ⟨rfl, ⟨e, .allocated⟩, by simp, rfl⟩⟩
      rw [hi, hout, ← List.append_assoc]
      exact hw.notice t
    · -- some record is set, and a search for it would find one
      obtain ⟨q, hq, hqset⟩ := hset
      obtain ⟨j, hj, hfit⟩ := h'.exists_fitting htotal hq hqset w.i
      exact absurd hfit (hnone j (by omega))
  · have hend := hlast.end_le he hin
    obtain ⟨w', rfl, hs', hi, hw'⟩ := h.round_set h1 htotal rfl hstage hpre hs hend (by omega) hw hstep
    exact ⟨w', hs', by omega, by omega, hw', .inl rfl⟩

/-- **The range** up to the last written index: records are consumed, up to one
whose bytes are not set if there is any. -/
theorem Placed.dumpRange {log' : Log} {fuel i : ℕ} {new : List Chunk} (h : Placed env S line log ps)
    (h1 : S < 2147483648) (htotal : (flat (records ps)).length < S) (hset : ∃ p ∈ ps, p.stage ≠ .allocated)
    (hgapless : Gapless b last ps)
    (hlast : Boundary (records ps) last) (hb : b < last) (hc : Consumed line b ps out)
    (hdump : log.dumpRange env fuel b (u32Sub last 1) true = .ok (i, log', new)) :
    log.Same log' ∧ Consumed line i ps (out ++ new) ∧ (i = last ∨ ∃ p ∈ ps, p.stage = .allocated) := by
  have hsize := h.size
  have hle := hlast.le
  have hrange : Log.rangeEnd S b (u32Sub last 1) = last :=
    Log.rangeEnd_sub_one (by rwa [Nat.mod_eq_of_lt (by omega)]) (by omega) (by omega)
  let I : Log.Walk → Prop := fun w => b ≤ w.i ∧ w.i ≤ last ∧ Consumed line w.i ps (out ++ w.out)
  have hround : ∀ w r, log.Same w.log → I w →
      Log.walkStep env (Log.rangeEnd log.ringBuffer.size b (u32Sub last 1)) true w = .ok r → ∃ w', I w' ∧
        (r = .again w' ∨ (r = .done w' ∧ (w'.i = last ∨ ∃ p ∈ ps, p.stage = .allocated))) := by
    rintro w r hs ⟨hbw, hwl, hw⟩ hstep
    rw [hsize, hrange] at hstep
    rcases Nat.lt_or_ge w.i last with hin | hout
    · obtain ⟨w', -, hb', hl', hw', hr⟩ := h.round h1 htotal hset hgapless hlast hs hbw hin hw hstep
      exact ⟨w', ⟨hb', hl', hw'⟩, hr.imp id fun hr => ⟨hr.1, .inr hr.2⟩⟩
    · rw [Log.walkStep_end env true hout] at hstep
      exact ⟨w, ⟨hbw, hwl, hw⟩, .inr ⟨(Except.ok.inj hstep).symm, .inl (Nat.le_antisymm hwl hout)⟩⟩
  have hstart : ∀ buf, I ⟨b % log.ringBuffer.size, buf, Log.zeroHeader, log, []⟩ := by
    intro buf
    rw [hsize, Nat.mod_eq_of_lt (show b < S by omega)]
    exact ⟨Nat.le_refl b, hb.le, by rw [List.append_nil]; exact hc⟩
  obtain ⟨hs, w, ⟨hw, hend⟩, rfl, rfl⟩ := Log.dumpRange_induct env true I
    (fun w => Consumed line w.i ps (out ++ w.out) ∧
      (w.i = last ∨ ∃ p ∈ ps, p.stage = .allocated)) hdump hstart
    (fun w w1 hs hI hstep => by
      obtain ⟨w', hI', hr | ⟨hr, -⟩⟩ := hround w _ hs hI hstep
      · cases hr
        exact hI'
      · cases hr)
    (fun w w1 hs hI hstep => by
      obtain ⟨w', ⟨-, -, hw⟩, hr | ⟨hr, hend⟩⟩ := hround w _ hs hI hstep
      · cases hr
      · cases hr
        exact ⟨hw, hend⟩)
  exact ⟨hs, hw, hend⟩

/-- The range up to the end of the ring has all records that are left, if their bytes
are all set. -/
theorem Placed.dumpRange_rest {log' : Log} {fuel i : ℕ} {new : List Chunk} (h : Placed env S line log ps)
    (h1 : S < 2147483648) (htotal : (flat (records ps)).length < S) (hset : ∀ p ∈ ps, p.stage ≠ .allocated)
    (hc : Consumed line b ps out) (hdump : log.dumpRange env fuel b (u32Sub S 1) true = .ok (i, log', new)) :
    log.Same log' ∧ (records ps).length ≤ (linesOf (out ++ new)).length := by
  have hsize := h.size
  have hle := hc.le
  have hrange : Log.rangeEnd S b (u32Sub S 1) = S :=
    Log.rangeEnd_sub_one (Nat.mod_lt _ (by omega)) (Nat.le_refl S) (by omega)
  -- behind the last record nothing that was written is taken back
  let I : Log.Walk → Prop := fun w => (records ps).length ≤ (linesOf (out ++ w.out)).length ∨
    (w.i < (flat (records ps)).length ∧ Consumed line w.i ps (out ++ w.out))
  have hall : ∀ w : Log.Walk, Consumed line w.i ps (out ++ w.out) → I w := by
    intro w hw
    refine (Nat.lt_or_ge w.i (flat (records ps)).length).symm.imp (fun hge => ?_) fun hlt => ⟨hlt, hw⟩
    have heq : w.i = (flat (records ps)).length := Nat.le_antisymm hw.le hge
    rw [heq] at hw
    rw [hw.all, lines, List.length_map]
  have hround : ∀ w r, log.Same w.log → I w →
      Log.walkStep env (Log.rangeEnd log.ringBuffer.size b (u32Sub S 1)) true w = .ok r →
      (records ps).length ≤ (linesOf (out ++ (Log.after r).out)).length ∨ ∃ w', r = .again w' ∧ I w' := by
    rintro w r hs (hlong | ⟨hlt, hw⟩) hstep
    · obtain ⟨-, more, hmore⟩ := Log.walkStep_same env hstep
      left
      rw [← hmore, ← List.append_assoc, linesOf_append, List.length_append]
      omega
    · rw [hsize, hrange] at hstep
      obtain ⟨e, he⟩ := hw.boundary.resolve_left hlt.ne
      obtain ⟨pre, s, post, hps, hpre, -⟩ := h.exists_producer he
      have hend := he.end_le
      obtain ⟨w', rfl, -, -, hw'⟩ := h.round_set h1 htotal hps (hset ⟨e, s⟩ (by rw [hps]; simp)) hpre hs
        (by omega) (Nat.le_refl S) hw hstep
      exact .inr ⟨w', rfl, hall w' hw'⟩
  have hstart : ∀ buf, I ⟨b % log.ringBuffer.size, buf, Log.zeroHeader, log, []⟩ := by
    intro buf
    apply hall
    rw [hsize, Nat.mod_eq_of_lt (show b < S by omega), List.append_nil]
    exact hc
  obtain ⟨hs, w, hw, -, rfl⟩ := Log.dumpRange_induct env true I
    (fun w => (records ps).length ≤ (linesOf (out ++ w.out)).length) hdump hstart
    (fun w w1 hs hI hstep => by
      rcases hround w _ hs hI hstep with hlong | ⟨w', hr, hI'⟩
      · exact .inl hlong
      · cases hr
        exact hI')
    (fun w w1 hs hI hstep => by
      rcases hround w _ hs hI hstep with hlong | ⟨w', hr, -⟩
      · exact hlong
      · cases hr)
  exact ⟨hs, hw⟩

end Collect

/-! ### Whole runs -/

/-- What holds in a run whose `collect`s are settled, as long as it has logged less
than the size of the ring. -/
structure Inv (env : Env) (S : ℕ) (line : Entry → List UInt8) (c : Collect) (ps : List Producer)
    (out : List Chunk) : Prop where
  placed : Placed env S line c.log ps
  published : Published c.log ps
  consumed : Consumed line c.collectorBookmark ps out

section Run

variable {env : Env} {S : ℕ} {line : Entry → List UInt8} {c c' : Collect}
  {ps pre post : List Producer} {e : Entry}
  {out out' : List Chunk} {fuel : ℕ}

theorem Inv.new (h0 : 0 < S) (h1 : S < 2147483648) : Inv env S line (Collect.new S h0 h1) [] [] :=
  ⟨Placed.new h0 h1, Published.new h0 h1, Consumed.new []⟩

theorem Inv.allocate {call : Call} {log : Log} (h : Inv env S line c ps out) (h1 : S < 2147483648)
    (ha : Allocated env c.log call log e) (hp : e.Prints env (line e))
    (htotal : (flat (records (ps ++ [⟨e, .allocated⟩]))).length < S) :
    Inv env S line { c with log := log } (ps ++ [⟨e, .allocated⟩]) out := by
  have hplaced := h.placed.allocate h1 ha hp htotal
  have hloc := hplaced.location
  exact ⟨hplaced, h.published.allocate ha.lastWritten e, h.consumed.allocate (hloc ▸ h.consumed.le)⟩

theorem Inv.set (h : Inv env S line c (pre ++ ⟨e, .allocated⟩ :: post) out) (h1 : S < 2147483648)
    (htotal : (flat (records (pre ++ ⟨e, .allocated⟩ :: post))).length < S) :
    ∃ log, c.log.set e = .ok log ∧ Inv env S line { c with log := log } (pre ++ ⟨e, .set⟩ :: post) out := by
  obtain ⟨log, hset, hlast, hplaced⟩ := h.placed.set h1 htotal
  have hpub : Published log (pre ++ ⟨e, .set⟩ :: post) := by
    apply h.published.stage
    · simp
    · simp
    · rw [hlast]
      exact h.published.lastWritten
    · rw [hlast]
      exact id
    · simp
  exact ⟨log, hset, hplaced, hpub, h.consumed.stage (by simp)⟩

theorem Inv.read (h : Inv env S line c (pre ++ ⟨e, .set⟩ :: post) out) :
    Inv env S line c (pre ++ ⟨e, .read c.log.ringBuffer.getCurrentIndex⟩ :: post) out := by
  have hcurrent := h.placed.current
  have hpos : 0 < (flat (records (pre ++ ⟨e, .set⟩ :: post))).length := by
    have hlen := e.length_eq
    rw [records_append, records_cons, flat_append, flat_cons, List.length_append, List.length_append]
    simp only
    omega
  refine ⟨h.placed.stage (by simp) (by simp), ?_,
    h.consumed.stage (by simp)⟩
  apply h.published.stage
  · simp
  · intro index hindex
    obtain rfl := Stage.read.inj hindex
    rw [RingBuffer.getCurrentIndex, hcurrent]
    exact ⟨hpos, .inl rfl⟩
  · exact h.published.lastWritten
  · exact id
  · simp

theorem Inv.store {index : ℕ} (h : Inv env S line c (pre ++ ⟨e, .read index⟩ :: post) out) :
    Inv env S line { c with log := c.log.setLastWrittenIndex index } (pre ++ ⟨e, .stored⟩ :: post) out := by
  obtain ⟨hpos, hindex⟩ := h.published.read ⟨e, .read index⟩ (by simp) index rfl
  have hplaced : Placed env S line c.log (pre ++ ⟨e, .stored⟩ :: post) :=
    h.placed.stage (by simp) (by simp)
  refine ⟨hplaced.of_ring rfl, ?_,
    h.consumed.stage (by simp)⟩
  apply h.published.stage
  · simp
  · simp
  · exact hindex
  · exact fun _ => hpos
  · exact fun _ => hpos

/-- A settled `collect` consumes what lies before the last written index, up to a
record whose bytes are not set. -/
theorem Inv.collect (h : Inv env S line c ps out) (h1 : S < 2147483648)
    (htotal : (flat (records ps)).length < S) (hsettled : Settled c ps)
    (hcollect : c.collect env fuel = .ok (c', out')) :
    Inv env S line c' ps (out ++ out') ∧
      (c'.collectorBookmark = c.log.bufLastWrittenIndex ∨ ∃ p ∈ ps, p.stage = .allocated) := by
  obtain ⟨hp, hpub, hc⟩ := h
  have hlast := hpub.lastWritten.le
  have hahead := hsettled.ahead
  have hmod : ∀ x, x ≤ (flat (records ps)).length → x % S = x := fun x hx => Nat.mod_eq_of_lt (by omega)
  rcases Collect.collect_cases hp.size hcollect with ⟨heq, rfl, rfl⟩ | ⟨hlt, i, log, hdump, rfl⟩ | ⟨hlt, -⟩
  · rw [hmod _ hc.le, hmod _ hlast] at heq
    rw [List.append_nil]
    exact ⟨⟨hp, hpub, heq ▸ hc⟩, .inl rfl⟩
  · rw [hmod _ hc.le, hmod _ hlast] at hlt
    obtain ⟨hs, hc', hend⟩ :=
      hp.dumpRange h1 htotal (hpub.set (by omega)) hsettled.gapless hpub.lastWritten hlt hc hdump
    refine ⟨⟨hp.same hs, ?_, hc'⟩, hend⟩
    obtain ⟨st, rfl⟩ := hs
    exact ⟨hpub.lastWritten, hpub.read, hpub.set, hpub.stored⟩
  · rw [hmod _ hc.le, hmod _ hlast] at hlt
    omega

theorem Run.inv {h0 : 0 < S} {h1 : S < 2147483648} {text : Call → List UInt8}
    (h : Run env S h0 h1 (Renders env text) Settled c ps out) (htotal : (flat (records ps)).length < S) :
    Inv env S (Entry.line env text) c ps out := by
  induction h with
  | new => exact Inv.new h0 h1
  | @allocate c ps out call log e _ hcall halloc ih =>
    have ha := allocate_inv halloc
    have hgrown := flat_records_concat ps e .allocated
    exact (ih (by omega)).allocate h1 ha (ha.prints hcall) htotal
  | @set c pre e post out log _ hset ih =>
    rw [records_stage pre post e .set .allocated] at htotal
    obtain ⟨log', hset', hinv⟩ := (ih htotal).set h1 htotal
    obtain rfl := Except.ok.inj (hset.symm.trans hset')
    exact hinv
  | @read c pre e post out _ ih =>
    rw [records_stage pre post e _ .set] at htotal
    exact (ih htotal).read
  | @store c pre e index post out _ ih =>
    rw [records_stage pre post e _ (.read index)] at htotal
    exact (ih htotal).store
  | collect _ hsettled hcollect ih => exact ((ih htotal).collect h1 htotal hsettled hcollect).1

/-- When all calls are done, a `collect` up to the index of the ring writes all that
is left. -/
theorem Inv.collect_all (h : Inv env S line c ps out) (h1 : S < 2147483648)
    (htotal : (flat (records ps)).length < S) (hset : ∀ p ∈ ps, p.stage ≠ .allocated)
    (hahead : c.collectorBookmark ≤ c.log.bufLastWrittenIndex)
    (hcollect : c.collect env fuel = .ok (c', out')) :
    ∃ done rest, records ps = done ++ rest ∧ (flat done).length = c.log.bufLastWrittenIndex ∧
      linesOf (out ++ out') = lines line done := by
  obtain ⟨h', hend⟩ := h.collect h1 htotal ⟨hahead, fun p hp q hq _ _ _ _ => hset p hp⟩ hcollect
  rcases hend with hend | ⟨p, hp, hstage⟩
  · rw [← hend]
    exact h'.consumed.delivered
  · exact absurd hstage (hset p hp)

/-- A last written index behind the bookmark has records written again. -/
theorem Inv.collect_again (h : Inv env S line c ps out) (h1 : S < 2147483648)
    (htotal : (flat (records ps)).length < S) (hset : ∀ p ∈ ps, p.stage ≠ .allocated)
    (hbehind : c.log.bufLastWrittenIndex < c.collectorBookmark) (hpos : 0 < c.log.bufLastWrittenIndex)
    (hcollect : c.collect env fuel = .ok (c', out')) :
    (records ps).length < (linesOf (out ++ out')).length := by
  obtain ⟨hp, hpub, hc⟩ := h
  have hlast := hpub.lastWritten
  have hmod : ∀ x, x ≤ (flat (records ps)).length → x % S = x := fun x hx => Nat.mod_eq_of_lt (by omega)
  have hle := hc.le
  rcases Collect.collect_cases hp.size hcollect with ⟨heq, -⟩ | ⟨hlt, -⟩ | ⟨-, i, log, top, i', log',
      bottom, htop, hbottom,
    rfl, rfl⟩
  · rw [hmod _ hle, hmod _ hlast.le] at heq
    omega
  · rw [hmod _ hle, hmod _ hlast.le] at hlt
    omega
  · obtain ⟨hs, hrest⟩ := hp.dumpRange_rest h1 htotal hset hc htop
    have hgapless : Gapless 0 c.log.bufLastWrittenIndex ps := fun p hp q hq _ _ _ _ => hset p hp
    obtain ⟨-, hc', hend⟩ :=
      (hp.same hs).dumpRange h1 htotal (hpub.set hpos) hgapless hlast hpos (Consumed.new ps) hbottom
    have hi : i' = c.log.bufLastWrittenIndex := hend.resolve_right fun ⟨p, hp, hstage⟩ => hset p hp hstage
    -- the range from the start of the ring has at least one record
    obtain ⟨done, rest, -, hdone, hlines⟩ := hc'.delivered
    have hsome : 0 < done.length := by
      apply List.length_pos_iff.mpr
      rintro rfl
      rw [flat_nil, List.length_nil] at hdone
      omega
    rw [List.nil_append] at hlines
    rw [← List.append_assoc, linesOf_append, List.length_append, hlines, lines, List.length_map]
    omega

/-- When the bytes of all records are set, a `collect` that does not go back returns if
no line is too long. -/
theorem Inv.collect_returns (h : Inv env S line c ps out) (h1 : S < 2147483648)
    (htotal : (flat (records ps)).length < S) (hset : ∀ p ∈ ps, p.stage ≠ .allocated)
    (hahead : c.collectorBookmark ≤ c.log.bufLastWrittenIndex)
    (hshort : ∀ e ∈ records ps, (line e).length ≤ 4096) :
    ∃ c' out', ∀ fuel, S < fuel → c.collect env fuel = .ok (c', out') := by
  obtain ⟨hp, hpub, hc⟩ := h
  have hsize := hp.size
  have hle := hpub.lastWritten.le
  have hmod : ∀ x, x ≤ (flat (records ps)).length → x % S = x := fun x hx => Nat.mod_eq_of_lt (by omega)
  rcases Nat.eq_or_lt_of_le hahead with heq | hlt
  · refine ⟨{ c with collectorBookmark := c.log.bufLastWrittenIndex }, [], fun fuel _ => ?_⟩
    unfold Collect.collect
    simp only [RingBuffer.normalize, heq, if_true]
    rfl
  · -- the records between the bookmark and the last written index
    obtain ⟨done, rest, hrecords, hdone, -⟩ := hc.delivered
    obtain ⟨pre, post, hsplit, hpre⟩ := hpub.lastWritten.split
    obtain ⟨mid, rfl, rfl⟩ := exists_between (hrecords.symm.trans hsplit) (by omega)
    have hat := hp.recordsAt htotal hset
    rw [hrecords] at hat
    have hat := hat.append.2.append.1
    rw [Nat.zero_add, hdone] at hat
    rw [flat_append, List.length_append, hdone] at hpre
    have hrange : Log.rangeEnd S c.collectorBookmark (u32Sub c.log.bufLastWrittenIndex 1) =
        c.log.bufLastWrittenIndex :=
      Log.rangeEnd_sub_one (by rwa [hmod _ (hlt.le.trans hle)]) (by omega) (by omega)
    have hfit : ∀ e ∈ mid, e.bytes.length ≤ S := by
      intro e he
      obtain ⟨front, back, rfl⟩ := List.append_of_mem he
      rw [flat_append, flat_cons, List.length_append, List.length_append] at hpre
      omega
    have hmem : ∀ e ∈ mid, e ∈ records ps := by
      intro e he
      rw [hrecords]
      exact List.mem_append_right _ (List.mem_append_left _ he)
    obtain ⟨log, -, hdump⟩ := Log.dumpRange_lines env true line c.log mid c.collectorBookmark
      (u32Sub c.log.bufLastWrittenIndex 1) (by rw [hsize]; exact h1)
        (by rw [hsize, hmod _ (by omega)]; exact hat)
      (by rw [hsize]; exact hfit) (fun e he => ⟨(hp.sound e (hmem e he)).2, hshort e (hmem e he)⟩)
      (by rw [hsize, hrange, hmod _ (by omega), hpre])
    rw [hsize, hrange] at hdump
    refine ⟨⟨log, c.log.bufLastWrittenIndex⟩, lines line mid, fun fuel hfuel => ?_⟩
    unfold Collect.collect
    simp only [RingBuffer.normalize, hsize]
    rw [hmod _ (hlt.le.trans hle), hmod _ hle, if_neg hlt.ne, if_pos hlt, hdump fuel hfuel]
    rfl

/-- **Each record once.** In every run of calls whose formats and arguments
round-trip, in a ring that they do not fill, and whose `collect`s are all settled:
when all calls are done, a last `collect` that returns leaves the line of every record
written once if the last written index is the index of the ring, and only then. It
returns if no line is too long. -/
theorem collect_exactly_once {h0 : 0 < S} {h1 : S < 2147483648} {text : Call → List UInt8}
    (hrun : Run env S h0 h1 (Renders env text) Settled c ps out) (htotal : (flat (records ps)).length < S)
    (hstored : ∀ p ∈ ps, p.stage = .stored) :
    (∀ fuel c' out', c.collect env fuel = .ok (c', out') →
      ((linesOf (out ++ out')).Perm (lines (Entry.line env text) (records ps)) ↔
        c.log.bufLastWrittenIndex = c.log.ringBuffer.getCurrentIndex)) ∧
    (c.log.bufLastWrittenIndex = c.log.ringBuffer.getCurrentIndex →
      (∀ e ∈ records ps, (e.line env text).length ≤ 4096) →
      ∃ c' out', ∀ fuel, S < fuel → c.collect env fuel = .ok (c', out')) := by
  have hinv := hrun.inv htotal
  have hcurrent := hinv.placed.current
  have hset : ∀ p ∈ ps, p.stage ≠ .allocated := by
    intro p hp
    rw [hstored p hp]
    simp
  constructor
  · intro fuel c' out' hcollect
    rw [RingBuffer.getCurrentIndex, hcurrent]
    have hlast := hinv.published.lastWritten.le
    constructor
    · intro hperm
      have hlen := hperm.length_eq
      rw [lines, List.length_map] at hlen
      by_contra hne
      rcases Nat.lt_or_ge c.log.bufLastWrittenIndex c.collectorBookmark with hbehind | hahead
      · have hsome : ps ≠ [] := by
          rintro rfl
          have hle := hinv.consumed.le
          exact Nat.not_lt.mpr hle (Nat.zero_lt_of_lt hbehind)
        obtain ⟨p, hp⟩ := List.exists_mem_of_ne_nil ps hsome
        have hagain := hinv.collect_again h1 htotal hset hbehind
          (hinv.published.stored p hp (hstored p hp)) hcollect
        omega
      · obtain ⟨done, rest, heq, hdone, hlines⟩ := hinv.collect_all h1 htotal hset hahead hcollect
        rw [hlines, lines, List.length_map, heq, List.length_append] at hlen
        obtain rfl := List.eq_nil_of_length_eq_zero (show rest.length = 0 by omega)
        rw [List.append_nil] at heq
        exact hne (by rw [heq, hdone])
    · intro heq
      obtain ⟨done, rest, hsplit, hdone, hlines⟩ :=
        hinv.collect_all h1 htotal hset (heq ▸ hinv.consumed.le) hcollect
      obtain ⟨rfl, -⟩ := eq_of_flat_length (hsplit.symm.trans (List.append_nil _).symm) (hdone.trans heq)
      rw [hlines]
  · intro heq hshort
    rw [RingBuffer.getCurrentIndex, hcurrent] at heq
    exact hinv.collect_returns h1 htotal hset (heq ▸ hinv.consumed.le) hshort

end Run

/-! ### Two calls -/

section Strings

variable {S : ℕ} {h0 : 0 < S} {h1 : S < 2147483648} {c : Collect} {ps pre post : List Producer} {e : Entry}
  {out : List Chunk}

theorem Run.mono {env : Env} {Q : Call → Prop} {P P' : Collect → List Producer → Prop}
    (h : Run env S h0 h1 Q P c ps out) (hP : ∀ c ps, P c ps → P' c ps) : Run env S h0 h1 Q P' c ps out := by
  induction h with
  | new => exact .new
  | allocate _ hcall halloc ih => exact .allocate ih hcall halloc
  | set _ hset ih => exact .set ih hset
  | read _ ih => exact .read ih
  | store _ ih => exact .store ih
  | collect _ hc hcollect ih => exact .collect ih (hP _ _ hc) hcollect

/-- Runs of calls that log strings. -/
abbrev StringRun (S : ℕ) (h0 : 0 < S) (h1 : S < 2147483648) : Collect → List Producer → List Chunk → Prop :=
  Run stringEnv S h0 h1 (Renders stringEnv callText) Settled

theorem Run.allocate_letters (h : StringRun S h0 h1 c ps out) :
    ∃ log e, StringRun S h0 h1 { c with log := log } (ps ++ [⟨e, .allocated⟩]) out ∧
      log.bufLastWrittenIndex = c.log.bufLastWrittenIndex ∧ e.bytes.length = 69 ∧
      (e.line stringEnv callText).length = 4 := by
  have hstage := stage_string (show (letters 4 (by decide)).bytes.length + 65 ≤ 4096 by decide)
  obtain ⟨log, e, halloc⟩ := allocate_ok hstage c.log
  have ha := allocate_inv halloc
  have hargs : e.args = (letters 4 (by decide)).bytes ++ [0] := Except.ok.inj (ha.staged.symm.trans hstage)
  refine ⟨log, e, h.allocate (roundTrips_string _) halloc, ha.lastWritten,
    by rw [e.length_eq, hargs]; rfl, ?_⟩
  have hsec : e.header.tv_sec = 0 := by
    rw [ha.header]
    rfl
  rw [Entry.line, ha.forCall, Log.printPrefix]
  simp only [hsec]
  rfl

theorem Run.set_read {T : ℕ} (h : StringRun S h0 h1 c (pre ++ ⟨e, .allocated⟩ :: post) out)
    (hT : (flat (records (pre ++ ⟨e, .allocated⟩ :: post))).length = T) (htotal : T < S) :
    ∃ log, StringRun S h0 h1 { c with log := log } (pre ++ ⟨e, .read T⟩ :: post) out ∧
      log.bufLastWrittenIndex = c.log.bufLastWrittenIndex := by
  subst hT
  obtain ⟨log, hset, hlast, hplaced⟩ := (h.inv htotal).placed.set h1 htotal
  have hread := (h.set hset).read
  rw [RingBuffer.getCurrentIndex, hplaced.current, records_stage pre post e .set .allocated] at hread
  exact ⟨log, hread, hlast⟩

theorem Run.collect_idle {log : Log} (h : StringRun S h0 h1 ⟨log, 0⟩ ps out)
    (hlast : log.bufLastWrittenIndex = 0) :
    StringRun S h0 h1 ⟨log, 0⟩ ps out := by
  have hsettled : Settled ⟨log, 0⟩ ps := by
    refine ⟨Nat.zero_le _, fun p _ q _ _ hlt hle => ?_⟩
    rw [hlast] at hle
    omega
  have hidle : Collect.collect stringEnv 0 ⟨log, 0⟩ = .ok (⟨log, 0⟩, []) := by
    unfold Collect.collect
    simp only [hlast, if_true]
    rfl
  have hrun := h.collect hsettled hidle
  rwa [List.append_nil] at hrun

/-- Two calls set their bytes in the other order than they allocated them, with a
`collect` in between. -/
theorem collect_exactly_once_example : ∃ c ps out c' out',
    Run stringEnv 4096 (by decide) (by decide) (Renders stringEnv callText) Settled c ps out ∧ ps.length = 2 ∧
    (∀ p ∈ ps, p.stage = .stored) ∧ c.collect stringEnv 4097 = .ok (c', out') ∧
    (linesOf (out ++ out')).Perm (lines (Entry.line stringEnv callText) (records ps)) := by
  have hstart : StringRun 4096 (by decide) (by decide)
      (Collect.new 4096 (by decide) (by decide)) [] [] := .new
  obtain ⟨log1, a, hrun1, hlast1, ha, hlinea⟩ := hstart.allocate_letters
  obtain ⟨log2, b, hrun2, hlast2, hb, hlineb⟩ := hrun1.allocate_letters
  have htotal : ∀ s s', (flat (records [⟨a, s⟩, ⟨b, s'⟩])).length = 138 := by simp [records, ha, hb]
  obtain ⟨log3, hrun3, hlast3⟩ := hrun2.set_read (htotal _ _) (by decide)
  have hrun4 : StringRun 4096 (by decide) (by decide) _ ([] ++ ⟨a, .allocated⟩ :: [⟨b, .read 138⟩]) [] :=
    hrun3.collect_idle (hlast3.trans (hlast2.trans hlast1))
  obtain ⟨log5, hrun5, hlast5⟩ := hrun4.set_read (htotal _ _) (by decide)
  have hrun6 : StringRun 4096 (by decide) (by decide) _ ([⟨a, .read 138⟩] ++ ⟨b, .read 138⟩ :: []) [] := hrun5
  have hrun7 : StringRun 4096 (by decide) (by decide) _ ([] ++ ⟨a, .read 138⟩ :: [⟨b, .stored⟩]) [] :=
    hrun6.store
  have hrun8 := hrun7.store
  have hset : ∀ p ∈ [(⟨a, .stored⟩ : Producer), ⟨b, .stored⟩], p.stage = .stored := by simp
  have hcurrent := (hrun8.inv ((htotal _ _).trans_lt (by decide))).placed.current
  have hlast := (hcurrent.trans (htotal _ _)).symm
  obtain ⟨honce, hreturns⟩ := collect_exactly_once hrun8 ((htotal _ _).trans_lt (by decide)) hset
  obtain ⟨c', out', hall⟩ := hreturns hlast (by simp [records, hlinea, hlineb])
  exact ⟨_, _, _, c', out', hrun8, rfl, hset, hall 4097 (by decide),
    (honce _ _ _ (hall 4097 (by decide))).mpr hlast⟩

/-- An index that was read early is stored late: the second of two records is before
the index of the ring, and behind the last written index when all calls are done. -/
theorem collect_misses_stale : ∃ c ps out c' out',
    Run stringEnv 4096 (by decide) (by decide) (Renders stringEnv callText) (fun _ _ => True) c ps out ∧
    (flat (records ps)).length < 4096 ∧ (∀ p ∈ ps, p.stage = .stored) ∧
    c.collect stringEnv 4097 = .ok (c', out') ∧
    ¬ (linesOf (out ++ out')).Perm (lines (Entry.line stringEnv callText) (records ps)) := by
  have hstart : StringRun 4096 (by decide) (by decide)
      (Collect.new 4096 (by decide) (by decide)) [] [] := .new
  -- the first call reads the index behind its own record
  obtain ⟨log1, a, hrun1, hlast1, ha, hlinea⟩ := hstart.allocate_letters
  obtain ⟨log2, hrun2, hlast2⟩ :=
    hrun1.set_read (show (flat (records [⟨a, .allocated⟩])).length = 69 by simp [records, ha])
    (by decide)
  -- the second one is done before the first stores what it has read
  obtain ⟨log3, b, hrun3, hlast3, hb, hlineb⟩ := hrun2.allocate_letters
  have htotal : ∀ s s', (flat (records [⟨a, s⟩, ⟨b, s'⟩])).length = 138 := by simp [records, ha, hb]
  obtain ⟨log4, hrun4, hlast4⟩ := hrun3.set_read (htotal _ _) (by decide)
  have hrun5 : StringRun 4096 (by decide) (by decide) _ ([] ++ ⟨a, .read 69⟩ :: [⟨b, .stored⟩]) [] :=
    hrun4.store
  have hrun6 := hrun5.store
  have hset : ∀ p ∈ [(⟨a, .stored⟩ : Producer), ⟨b, .stored⟩], p.stage = .stored := by simp
  have hinv := hrun6.inv ((htotal _ _).trans_lt (by decide))
  obtain ⟨c', out', hall⟩ := hinv.collect_returns (by decide) ((htotal _ _).trans_lt (by decide))
    (fun p hp => by rw [hset p hp]; simp) (Nat.zero_le _) (by simp [records, hlinea, hlineb])
  refine ⟨_, _, _, c', out', hrun6.mono fun _ _ _ => trivial, (htotal _ _).trans_lt (by decide), hset,
    hall 4097 (by decide), fun hperm => ?_⟩
  -- only one of the two records lies before the last written index
  obtain ⟨done, rest, hsplit, hdone, hlines⟩ :=
    hinv.collect_all (by decide) ((htotal _ _).trans_lt (by decide))
    (fun p hp => by rw [hset p hp]; simp) (Nat.zero_le _) (hall 4097 (by decide))
  have hlen := hperm.length_eq
  rw [hlines, lines, lines, List.length_map, List.length_map, hsplit, List.length_append] at hlen
  obtain rfl := List.eq_nil_of_length_eq_zero (show rest.length = 0 by omega)
  rw [List.append_nil] at hsplit
  rw [← hsplit] at hdone
  have hne : 138 = 69 := (htotal _ _).symm.trans hdone
  exact absurd hne (by decide)

end Strings

end Producers
end Memlog
