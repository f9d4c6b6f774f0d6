/-
# Finding the oldest record

When the ring has been filled, the records that are still complete are the
longest end of the journal that fits it (`survivors`). In front of them, from the
write position on, lie the remains of a record that has been overwritten in part.
`firstLine` searches there for the first position that `getLog` accepts, so it
finds the oldest complete record exactly when no position in the remains passes
for a record (`firstLine_oldest`). The remains are argument bytes, and these may
look like anything.

Key definitions: `survivors`, `oldest`, `Log.Wrapped`.
-/
import Memlog.Ordered

namespace Memlog

open Circular

/-! ### The records still in the ring -/

/-- The records that are completely in a ring of `S` bytes: the longest end of the
journal whose bytes fit it. -/
def survivors (S : ℕ) : List Entry → List Entry
  | [] => []
  | e :: es => if (flat (e :: es)).length ≤ S then e :: es else survivors S es

/-- The position where the oldest of them starts. -/
def oldest (S : ℕ) (es : List Entry) : ℕ := (flat es).length - (flat (survivors S es)).length

section Survivors

variable {S : ℕ} {es : List Entry} {x : ℕ} {e : Entry}

theorem survivors_le (S : ℕ) (es : List Entry) : (flat (survivors S es)).length ≤ S := by
  induction es with
  | nil => exact Nat.zero_le S
  | cons e es ih =>
    unfold survivors
    split
    · assumption
    · exact ih

theorem survivors_eq_self (h : (flat es).length ≤ S) : survivors S es = es := by
  cases es with
  | nil => rfl
  | cons e es => exact if_pos h

/-- The journal ends with the records still in the ring, the oldest of which starts
at `oldest`. -/
theorem survivors_suffix (S : ℕ) (es : List Entry) :
    ∃ dead, es = dead ++ survivors S es ∧ (flat dead).length = oldest S es := by
  have hsplit : ∃ dead, es = dead ++ survivors S es := by
    induction es with
    | nil => exact ⟨[], rfl⟩
    | cons e es ih =>
      unfold survivors
      split
      · exact ⟨[], rfl⟩
      · obtain ⟨dead, hdead⟩ := ih
        exact ⟨e :: dead, by rw [List.cons_append, ← hdead]⟩
  obtain ⟨dead, hdead⟩ := hsplit
  refine ⟨dead, hdead, ?_⟩
  have hlen := congrArg (fun l => (flat l).length) hdead
  simp only [flat_append, List.length_append] at hlen
  unfold oldest
  omega

theorem oldest_le (S : ℕ) (es : List Entry) : oldest S es ≤ (flat es).length := Nat.sub_le _ _

theorem oldest_add (S : ℕ) (es : List Entry) :
    oldest S es + (flat (survivors S es)).length = (flat es).length := by
  obtain ⟨dead, hdead, hlen⟩ := survivors_suffix S es
  rw [← hlen, ← List.length_append, ← flat_append, ← hdead]

/-- A record that lies within the last `S` bytes is one of them. -/
theorem StartsAt.oldest_le (h : StartsAt es x e) (hx : (flat es).length ≤ x + S) : oldest S es ≤ x := by
  induction es generalizing x with
  | nil =>
    obtain ⟨pre, post, heq, -⟩ := h
    cases pre <;> cases heq
  | cons f es ih =>
    have hadd := oldest_add S es
    rw [flat_cons, List.length_append] at hx
    unfold oldest survivors
    split
    · omega
    · rename_i hlong
      rw [flat_cons, List.length_append] at hlong ⊢
      rcases h.cons_cases with ⟨rfl, -⟩ | ⟨y, rfl, hy⟩
      · omega
      · have hle := ih hy (by omega)
        omega

theorem survivors_ne_nil (hes : es ≠ []) (hle : ∀ e ∈ es, e.bytes.length ≤ S) : survivors S es ≠ [] := by
  intro hnil
  obtain ⟨pre, e, rfl⟩ := List.eq_nil_or_concat es |>.resolve_left hes
  rw [List.concat_eq_append] at *
  have hstart : StartsAt (pre ++ [e]) (flat pre).length e := ⟨pre, [], rfl, rfl⟩
  have hend := hstart.end_le
  have hfit := hle e (by simp)
  have hadd := oldest_add S (pre ++ [e])
  have hold := hstart.oldest_le (S := S) (by
    rw [flat_append, flat_cons, flat_nil, List.append_nil, List.length_append]
    omega)
  rw [hnil, flat_nil, List.length_nil] at hadd
  have hlen := e.length_eq
  omega

end Survivors

/-! ### The search for them -/

/-- `firstLine` takes the ring to be full. -/
def Log.Wrapped (log : Log) : Prop :=
  log.ringBuffer.size ≤ log.ringBuffer.getCurrentIndex ∨ log.ringBuffer.hasWrappedAround = true

section Search

variable (env : Env) {S : ℕ} {log : Log} {es : List Entry}

theorem Tracks.oldest_entry (h : Tracks S log es) (hes : es ≠ []) (hle : ∀ e ∈ es, e.bytes.length ≤ S) :
    ∃ e rest, survivors S es = e :: rest ∧ e.location % S = oldest S es % S ∧
      log.ringBuffer.entryAt (oldest S es) = some e.bytes := by
  obtain ⟨dead, hdead, hlen⟩ := survivors_suffix S es
  obtain ⟨e, rest, hsurv⟩ := List.exists_cons_of_ne_nil (survivors_ne_nil hes hle)
  have hfit := survivors_le S es
  rw [hsurv] at hdead hfit
  rw [flat_cons, List.length_append] at hfit
  subst hdead
  refine ⟨e, rest, hsurv, by rw [h.location dead e rest rfl, hlen], ?_⟩
  rw [← hlen]
  exact h.entryAt hfit

/-- In a ring taken to be full, `firstLine` finds the first entry behind the write
position. -/
theorem Tracks.firstLine_wrapped (h : Tracks S log es) (h0 : 4096 ≤ S) (h1 : S < 2147483648)
    (hT : S ≤ (flat es).length) (hw : log.Wrapped) :
    ∃ x q log', (flat es).length ≤ x + S ∧ x ≤ oldest S es ∧ log.ringBuffer.entryAt x ≠ none ∧
      (∀ z, (flat es).length ≤ z + S → z < x → log.ringBuffer.entryAt z = none) ∧ log.Same log' ∧
      log.firstLine env = .ok (q, log') ∧ q % S = x % S := by
  have hsize := h.size
  have hes : es ≠ [] := by
    rintro rfl
    rw [flat_nil, List.length_nil] at hT
    omega
  obtain ⟨e, rest, -, -, hentry⟩ := h.oldest_entry hes fun e he => (h.genuine e he).length_le.trans h0
  have hadd := oldest_add S es
  have hle := survivors_le S es
  -- the write position is the cell of position `T - S`
  have hstart : log.ringBuffer.normalize log.ringBuffer.getCurrentIndex = ((flat es).length - S) % S := by
    obtain ⟨n, hn⟩ := Nat.exists_eq_add_of_le hT
    rw [RingBuffer.normalize, RingBuffer.getCurrentIndex, hsize, h.current, hn, Nat.add_sub_cancel_left,
      Nat.add_mod_left]
  have hlt := Nat.mod_lt ((flat es).length - S) (show 0 < S by omega)
  have hcell : ∀ i, log.ringBuffer.entryAt (((flat es).length - S) % S + i) =
      log.ringBuffer.entryAt ((flat es).length - S + i) := by
    intro i
    refine log.ringBuffer.entryAt_congr ?_
    rw [hsize, Nat.mod_add_mod]
  have hfirst : log.firstLine env = log.getNextHeaderIndex env (((flat es).length - S) % S) := by
    unfold Log.firstLine
    simp only [hstart]
    exact if_pos hw
  rcases Log.getNextHeader_cases env (q := ((flat es).length - S) % S)
    (show log.ringBuffer.size < 2147483648 by omega) (by omega) (by omega) none with ⟨j, entry, hj,
      hmin, buf, log', hs, hnext⟩ | ⟨hnone, -⟩
  · rw [hcell] at hj
    have hjle : j ≤ oldest S es - ((flat es).length - S) := by
      by_contra hgt
      have hnone := hmin (oldest S es - ((flat es).length - S)) (by omega)
      rw [hcell, Nat.add_sub_cancel' (by omega), hentry] at hnone
      cases hnone
    refine ⟨(flat es).length - S + j, _, log',
      by omega, by omega, by rw [hj]; exact Option.some_ne_none _, ?_, hs, ?_,
      by rw [Nat.mod_add_mod]⟩
    · intro z hz hzx
      have hi := hmin (z - ((flat es).length - S)) (by omega)
      rwa [hcell, Nat.add_sub_cancel' (by omega)] at hi
    · rw [hfirst, Log.getNextHeaderIndex, hnext]
      rfl
  · have hi := hnone (oldest S es - ((flat es).length - S))
    rw [hcell, Nat.add_sub_cancel' (by omega), hentry] at hi
    cases hi

/-- It is the oldest record if nothing in front of it passes for one. -/
theorem Tracks.firstLine_iff (h : Tracks S log es) (h0 : 4096 ≤ S) (h1 : S < 2147483648)
    (hT : S ≤ (flat es).length) (hw : log.Wrapped) :
    (∃ q log', log.Same log' ∧ log.firstLine env = .ok (q, log') ∧ q % S = oldest S es % S) ↔
      ∀ x, (flat es).length ≤ x + S → x < oldest S es → log.ringBuffer.entryAt x = none := by
  obtain ⟨x, q, log', hx, hxo, hentry, hmin, hs, hfirst, hq⟩ := h.firstLine_wrapped env h0 h1 hT hw
  have hle := oldest_le S es
  constructor
  · rintro ⟨q', log'', -, hfirst', hq'⟩ z hz hzo
    obtain ⟨rfl, -⟩ := Prod.mk.inj (Except.ok.inj (hfirst.symm.trans hfirst'))
    have hpos : 0 < (flat (survivors S es)).length := by
      obtain ⟨e, rest, hsurv, -, -⟩ :=
        h.oldest_entry (by rintro rfl; rw [flat_nil, List.length_nil] at hT; omega)
        fun e he => (h.genuine e he).length_le.trans h0
      have hlen := e.length_eq
      rw [hsurv, flat_cons, List.length_append]
      omega
    have hadd := oldest_add S es
    obtain rfl : x = oldest S es :=
      eq_of_mod_eq (S := S) (w := (flat es).length - S) (by omega) (by omega) (by omega)
      (by omega) (hq.symm.trans hq')
    exact hmin z hz hzo
  · intro hclean
    refine ⟨q, log', hs, hfirst, ?_⟩
    rcases Nat.lt_or_ge x (oldest S es) with hlt | hge
    · exact absurd (hclean x hx hlt) hentry
    · rw [hq, Nat.le_antisymm hxo hge]

theorem Log.firstLine_fresh (hw : ¬ log.Wrapped) : log.firstLine env = .ok (0, log) := if_neg hw

end Search

/-- **`firstLine` finds the oldest record** that is still complete after more than
`S` bytes exactly when it takes the ring to be full and nothing in the remains in
front of that record passes for one, or when it does not and that record is at 0. -/
theorem firstLine_oldest (env : Env) (S : ℕ) (h0 : 4096 ≤ S) (h1 : S < 2147483648)
    (calls : List Call) (log : Log) (es : List Entry)
    (hrun : traceAll env (Log.new S (lines_pos h0) h1) calls = .ok (log, es))
    (hmore : S < (flat es).length) :
    ∃ e rest, survivors S es = e :: rest ∧
      ((∃ q log', log.firstLine env = .ok (q, log') ∧
          log.ringBuffer.normalize q = log.ringBuffer.normalize e.location) ↔
        (log.Wrapped ∧
          ∀ x, (flat es).length ≤ x + S → x < oldest S es → log.ringBuffer.entryAt x = none) ∨
        (¬ log.Wrapped ∧ log.ringBuffer.normalize e.location = 0)) := by
  obtain ⟨htracks, -, -⟩ := traceAll_traced h0 h1 (Tracks.new (by omega) h1) hrun
  rw [List.nil_append] at htracks
  obtain ⟨e, rest, hsurv, hloc, -⟩ := htracks.oldest_entry (by rintro rfl; simp at hmore)
    fun e he => (htracks.genuine e he).length_le.trans h0
  refine ⟨e, rest, hsurv, ?_⟩
  simp only [RingBuffer.normalize, htracks.size, hloc]
  by_cases hw : log.Wrapped
  · have hiff := htracks.firstLine_iff env h0 h1 hmore.le hw
    constructor
    · rintro ⟨q, log', hfirst, hq⟩
      obtain ⟨-, q', log'', -, -, -, -, hs, hfirst', -⟩ := htracks.firstLine_wrapped env h0 h1 hmore.le hw
      obtain ⟨rfl, rfl⟩ := Prod.mk.inj (Except.ok.inj (hfirst.symm.trans hfirst'))
      exact .inl ⟨hw, hiff.mp ⟨q, log', hs, hfirst, hq⟩⟩
    · rintro (⟨-, hclean⟩ | ⟨hfresh, -⟩)
      · obtain ⟨q, log', -, hfirst, hq⟩ := hiff.mpr hclean
        exact ⟨q, log', hfirst, hq⟩
      · exact absurd hw hfresh
  · constructor
    · rintro ⟨q, log', hfirst, hq⟩
      rw [Log.firstLine_fresh env hw] at hfirst
      obtain ⟨rfl, rfl⟩ := Prod.mk.inj (Except.ok.inj hfirst)
      exact .inr ⟨hw, by rw [← hq, Nat.zero_mod]⟩
    · rintro (⟨hw', -⟩ | ⟨-, hzero⟩)
      · exact absurd hw' hw
      · exact ⟨0, log, Log.firstLine_fresh env hw, by rw [hzero, Nat.zero_mod]⟩

theorem firstLine_oldest_example :
    ∃ log a b c, traceAll stringEnv (Log.new 4096 (by decide) (by decide))
        [stringCall (letters 1983 (by decide)), stringCall (letters 1983 (by decide)),
          stringCall (letters 1983 (by decide))] = .ok (log, [a, b, c]) ∧
      ∃ q log', log.firstLine stringEnv = .ok (q, log') ∧
        log.ringBuffer.normalize q = log.ringBuffer.normalize b.location := by
  obtain ⟨log, es, hrun, htracks, hargs⟩ := traceAll_strings (le_refl 4096) (by decide)
    [letters 1983 (by decide), letters 1983 (by decide), letters 1983 (by decide)] (by simp [letters_length])
  obtain ⟨a, b, c, rfl⟩ := List.length_eq_three.mp (by simpa using congrArg List.length hargs)
  simp only [List.map_cons, List.map_nil, List.cons.injEq, and_true] at hargs
  obtain ⟨ha, hb, hc⟩ := hargs
  have hlen : ∀ e : Entry, e.args = (letters 1983 (by decide)).bytes ++ [0] → e.bytes.length = 2048 := by
    intro e he
    rw [e.length_eq, he, List.length_append, letters_length]
    rfl
  have hT : (flat [a, b, c]).length = 6144 := by simp [hlen, ha, hb, hc]
  refine ⟨log, a, b, c, hrun, ?_⟩
  obtain ⟨e, rest, hsurv, hiff⟩ :=
    firstLine_oldest stringEnv 4096 (le_refl _) (by decide) _ log _ hrun (by omega)
  have hsurv' : survivors 4096 [a, b, c] = [b, c] := by simp [survivors, hlen, ha, hb, hc]
  obtain ⟨rfl, -⟩ := List.cons.inj (hsurv'.symm.trans hsurv)
  have hold : oldest 4096 [a, b, c] = 2048 := by
    rw [oldest, hT, hsurv']
    simp [hlen, hb, hc]
  refine hiff.mpr (.inl ⟨.inl ?_, fun x hx hxo => by omega⟩)
  rw [RingBuffer.getCurrentIndex, (htracks.fresh (by omega)).1, htracks.size, hT]
  decide

/-- A string that looks like a record: markers, an id, and a length of 257 bytes. -/
def disguise : CString where
  bytes := ByteCodec.leBytes 4 START_PATTERN.toNat ++
    (List.replicate 249 1 ++ ByteCodec.leBytes 4 END_PATTERN.toNat)
  nul_free := by decide +kernel
  length_lt := by decide +kernel

/-- The string found in the remains of its record passes for a record: a ring of 4096
bytes holds a record of 3830 bytes, and in front of it the end of one of 322 bytes,
from its arguments on. -/
theorem firstLine_disguise :
    ∃ log a b, traceAll stringEnv (Log.new 4096 (by decide) (by decide))
        [stringCall disguise, stringCall (letters 3765 (by decide))] = .ok (log, [a, b]) ∧
      4096 < (flat [a, b]).length ∧ survivors 4096 [a, b] = [b] ∧
      ¬ ∃ q log', log.firstLine stringEnv = .ok (q, log') ∧
        log.ringBuffer.normalize q = log.ringBuffer.normalize b.location := by
  have hdis : disguise.bytes.length = 257 := by decide +kernel
  obtain ⟨log, es, hrun, htracks, hargs⟩ := traceAll_strings (le_refl 4096) (by decide)
    [disguise, letters 3765 (by decide)] (by simp [letters_length, hdis])
  obtain ⟨a, b, rfl⟩ := List.length_eq_two.mp (by simpa using congrArg List.length hargs)
  simp only [List.map_cons, List.map_nil, List.cons.injEq, and_true] at hargs
  obtain ⟨ha, hb⟩ := hargs
  have hlena : a.bytes.length = 322 := by
    rw [a.length_eq, ha, List.length_append, hdis]
    rfl
  have hlenb : b.bytes.length = 3830 := by
    rw [b.length_eq, hb, List.length_append, letters_length]
    rfl
  have hT : (flat [a, b]).length = 4152 := by simp [hlena, hlenb]
  have hsurv : survivors 4096 [a, b] = [b] := by simp [survivors, hlena, hlenb]
  have hold : oldest 4096 [a, b] = 322 := by
    rw [oldest, hT, hsurv]
    simp [hlenb]
  refine ⟨log, a, b, hrun, by omega, hsurv, ?_⟩
  rintro ⟨q, log', hfirst, hq⟩
  have hw : log.Wrapped := by
    refine .inl ?_
    rw [RingBuffer.getCurrentIndex, (htracks.fresh (by omega)).1, htracks.size, hT]
    decide
  have hloc := htracks.location [a] b [] rfl
  rw [flat_cons, flat_nil, List.append_nil, hlena] at hloc
  simp only [RingBuffer.normalize, htracks.size, hloc] at hq
  obtain ⟨-, q', log'', -, -, -, -, hs, hfirst', -⟩ :=
    htracks.firstLine_wrapped stringEnv (le_refl _) (by decide)
    (by omega) hw
  obtain ⟨rfl, rfl⟩ := Prod.mk.inj (Except.ok.inj (hfirst.symm.trans hfirst'))
  have hclean := (htracks.firstLine_iff stringEnv (le_refl _) (by decide) (by omega) hw).mp
    ⟨q, log', hs, hfirst, by rw [hq, hold]⟩
  -- the arguments of the first record are an entry
  have hread : read 4096 log.ringBuffer.buffer 56 257 = disguise.bytes := by
    rw [htracks.read_flat (by omega) (by omega), flat_cons, Entry.bytes, record, ha, List.append_assoc,
      List.drop_left' (Header.bytes_length _), List.append_assoc, List.append_assoc,
      List.take_left' hdis]
  have hentry : log.ringBuffer.entryAt 56 = some disguise.bytes :=
    RingBuffer.entryAt_of_read (by rw [htracks.size, hdis, hread]) (by decide +kernel) (by decide +kernel)
      (by decide +kernel) (by decide +kernel) (by decide +kernel)
  rw [hclean 56 (by omega) (by omega)] at hentry
  cases hentry

end Memlog
