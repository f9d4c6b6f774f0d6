/-
# The worker of the collector

`src/src/lib/collector.cpp`: `setEnable(true)` moves the bookmark to the last written
index and starts a thread, which collects when there is enough to collect and idles
otherwise, as long as `enable_` is set, and collects a last time when it is not.
`setEnable(false)` collects itself, clears `enable_` and waits for the thread.

Both threads may be in `collect` together. Here it is taken apart into the steps in
which it touches what is shared: the last written index is read; the bookmark is read
three times, for the two comparisons and for the start of the range; each round of
`dumpRange` looks at the ring and writes to the stream; and the bookmark is stored
(`collectStep`). Without interference they make `Collect.collect` (`collect_solo`). The
reads that only fill `prevCollectRangeStart_` are left out, as nothing looks at it.

`System` has the collector, the calls of `traceVargs` under way, the stream, the flag
and the two threads; `System.Step` is a step of any of them, with conditions on what is
logged, on the index that a call stores and on the steps in `collect`. One thread calls
`setEnable`. `synced` is how much of the output has been handed on by a flush of the
stream.

Key definitions: `CollectPc`, `collectStep`, `CollectPc.Steady`, `System`,
`System.mainStep`, `System.workerStep`, `System.Step`, `System.InOrder`.
-/
import Mathlib.Logic.Relation
import Memlog.Lib.Related
import Memlog.Producers

namespace Memlog

open Loop

/-! ### `collect`, step by step -/

/-- Where a thread stands in `collect`: before it reads the last written index, before
the first and the second comparison with the bookmark, before it reads where the range
starts, in the rounds of `dumpRange`, before it stores the bookmark. With `rest` the
range from the start of the ring is still to come. The log and the output of the walk
are those that all threads share, not the ones kept in `w`. -/
inductive CollectPc where
  | read
  | compare (bookmarkEnd : ℕ)
  | order (bookmarkEnd : ℕ)
  | start (bookmarkEnd : ℕ) (wrapped : Bool)
  | walk (w : Log.Walk) (last : ℕ) (rest : Option ℕ)
  | store (bookmarkEnd : ℕ)

/-- How many steps are at most to come, in a ring of `S` bytes. -/
def CollectPc.rounds (S : ℕ) : CollectPc → ℕ
  | .read => 2 * S + 8
  | .compare _ => 2 * S + 7
  | .order _ => 2 * S + 6
  | .start _ _ => 2 * S + 5
  | .walk w last none => last - w.i + 2
  | .walk w last (some _) => last - w.i + S + 4
  | .store _ => 1

/-- A thread enters `dumpRange`. -/
def CollectPc.range (env : Env) (log : Log) (start last : ℕ) (rest : Option ℕ) : CollectPc :=
  .walk ⟨start % log.ringBuffer.size, Log.stackBuffer env, Log.zeroHeader, log, []⟩
    (Log.rangeEnd log.ringBuffer.size start last) rest

/-- A step in `collect`; `none` is its return. -/
def collectStep (env : Env) (c : Collect) (out : List Chunk) :
    CollectPc → Except Fault (Collect × List Chunk × Option CollectPc)
  | .read => .ok (c, out, some (.compare c.log.bufLastWrittenIndex))
  | .compare bookmarkEnd =>
    let rb := c.log.ringBuffer
    .ok (c, out, some (if rb.normalize c.collectorBookmark = rb.normalize bookmarkEnd then .store bookmarkEnd
      else .order bookmarkEnd))
  | .order bookmarkEnd =>
    let rb := c.log.ringBuffer
    .ok (c, out, some (.start bookmarkEnd (¬ rb.normalize c.collectorBookmark < rb.normalize bookmarkEnd)))
  | .start bookmarkEnd false =>
    .ok (c, out, some (.range env c.log c.collectorBookmark (u32Sub bookmarkEnd 1) none))
  | .start bookmarkEnd true =>
    .ok (c, out, some (.range env c.log c.collectorBookmark (u32Sub c.log.ringBuffer.size 1)
      (some bookmarkEnd)))
  | .walk w last rest => do
    match ← Log.walkStep env last true { w with log := c.log, out := out } with
    | .again w => return ({ c with log := w.log }, w.out, some (.walk w last rest))
    | .done w =>
      match rest with
      | none => return ({ c with log := w.log }, w.out, some (.store w.i))
      | some rangeEnd => return ({ c with log := w.log }, w.out,
          some (.range env w.log 0 (u32Sub rangeEnd 1) none))
  | .store bookmarkEnd => .ok ({ c with collectorBookmark := bookmarkEnd }, out, none)

/-- The bookmark is where a thread in `collect` takes it to be: at 0 if the thread has
read 0 as the last written index, and before that index if it has found it there. -/
def CollectPc.Steady (c : Collect) : CollectPc → Prop
  | .compare 0 => c.collectorBookmark = 0
  | .start bookmarkEnd false =>
    c.log.ringBuffer.normalize c.collectorBookmark < c.log.ringBuffer.normalize bookmarkEnd
  | _ => True

section Solo

variable (env : Env)

/-- A walk with more output in front. -/
def Behind (o : List Chunk) (w w' : Log.Walk) : Prop := w' = { w with out := o ++ w.out }

/-- A round of `dumpRange` adds to its output, and does not look at it. -/
theorem walkStep_behind (continueOnFailure : Bool) (o : List Chunk) {last : ℕ} {w w' : Log.Walk}
    (h : Behind o w w') :
    Related (Next.Related (Behind o) (Behind o)) (Log.walkStep env last continueOnFailure w)
      (Log.walkStep env last continueOnFailure w') := by
  subst h
  unfold Log.walkStep
  by_cases hin : w.i < last
  swap
  · rw [if_pos hin, if_pos hin]
    exact .done rfl
  rw [if_neg (not_not.mpr hin), if_neg (not_not.mpr hin)]
  refine Related.bind (S := Eq) (.of_eq rfl fun _ => rfl) ?_
  rintro p _ - - rfl
  by_cases herr : p.err = true
  · rw [if_pos herr, if_pos herr]
    refine Related.bind (S := Eq) (.of_eq rfl fun _ => rfl) ?_
    rintro ⟨new_i, buf, log⟩ _ - - rfl
    dsimp only
    split_ifs
    · exact .done (by rw [Behind, List.append_assoc])
    · exact .again (by rw [Behind, List.append_assoc])
    · exact .done (by rw [Behind, List.append_assoc])
  · rw [if_neg herr, if_neg herr]
    by_cases hlast : last < p.next_index
    · rw [if_pos hlast, if_pos hlast]
      exact .done rfl
    · rw [if_neg hlast, if_neg hlast]
      by_cases hlen : LOG_MAX_LOG_TRACE_LINE < p.stringLength
      · rw [if_pos hlen, if_pos hlen]
        rfl
      · rw [if_neg hlen, if_neg hlen]
        exact .again (by simp [Behind])

section Compare

variable {env} {c : Collect} {out : List Chunk} {bookmarkEnd : ℕ}

theorem collectStep_return {c' : Collect} {out' : List Chunk} {p : CollectPc}
    (h : collectStep env c out p = .ok (c', out', none)) : ∃ i, p = .store i := by
  cases p with
  | read | compare _ | order _ => cases h
  | start _ wrapped => cases wrapped <;> cases h
  | walk w last rest =>
    obtain ⟨r, -, h⟩ := Loop.bind_eq_ok.mp h
    cases r with
    | again w => cases h
    | done w => cases rest <;> cases h
  | store i => exact ⟨i, rfl⟩

@[simp] theorem collectStep_compare : collectStep env c out (.compare bookmarkEnd) =
    .ok (c, out, some (if c.collectorBookmark % c.log.ringBuffer.size = bookmarkEnd % c.log.ringBuffer.size
      then .store bookmarkEnd else .order bookmarkEnd)) := rfl

@[simp] theorem collectStep_order : collectStep env c out (.order bookmarkEnd) =
    .ok (c, out, some (.start bookmarkEnd
      (¬ c.collectorBookmark % c.log.ringBuffer.size < bookmarkEnd % c.log.ringBuffer.size))) := rfl

end Compare

/-- A round of a thread that is alone in `collect`. -/
def collectRound : Collect × List Chunk × CollectPc →
    Except Fault (Next (Collect × List Chunk × CollectPc) (Collect × List Chunk)) := fun (c, out, p) => do
  let (c, out, next) ← collectStep env c out p
  match next with
  | some p => return .again (c, out, p)
  | none => return .done (c, out)

/-- Where a thread goes from the last round of a range. -/
def afterRange (w : Log.Walk) : Option ℕ → CollectPc
  | none => .store w.i
  | some rangeEnd => .range env w.log 0 (u32Sub rangeEnd 1) none

theorem range_solo (b last : ℕ) (rest : Option ℕ) : ∀ {n : ℕ} {w w0 w' : Log.Walk},
    { w0 with log := w.log, out := w.out } = w → run .fuel (Log.walkStep env last true) n w = .ok w' →
      ∃ k, Reaches Fault.fuel (collectRound env) k (⟨w.log, b⟩, w.out, .walk w0 last rest)
        (⟨w'.log, b⟩, w'.out, afterRange env w' rest)
  | 0, _, _, _, _, h => by cases h
  | n + 1, w, w0, w', hw0, h => by
    rcases run_inv h with hdone | ⟨m, w1, hagain, hrun⟩
    · refine ⟨1, Reaches.single ?_⟩
      simp only [collectRound, collectStep, hw0, hdone, ok_bind]
      cases rest <;> rfl
    · have hm : run .fuel (Log.walkStep env last true) n w1 = .ok w' := by rwa [run_again hagain] at h
      obtain ⟨k, hreach⟩ :=
        range_solo b last rest (show { w1 with log := w1.log, out := w1.out } = w1 from rfl) hm
      refine ⟨1 + k, (Reaches.single ?_).trans hreach⟩
      simp only [collectRound, collectStep, hw0, hagain, ok_bind]
      rfl

theorem dumpRange_solo {fuel start last i : ℕ} {log log' : Log} {new : List Chunk} (b : ℕ) (rest : Option ℕ)
    (out : List Chunk) (h : log.dumpRange env fuel start last true = .ok (i, log', new)) :
    ∃ k w, Reaches Fault.fuel (collectRound env) k (⟨log, b⟩, out, .range env log start last rest)
      (⟨log', b⟩, out ++ new, afterRange env w rest) ∧ w.i = i ∧ w.log = log' := by
  rw [Log.dumpRange_eq] at h
  obtain ⟨w, hrun, h⟩ := Loop.bind_eq_ok.mp h
  obtain ⟨rfl, rfl, rfl⟩ : w.i = i ∧ w.log = log' ∧ w.out = new := by
    have hw := Except.ok.inj h
    simpa using hw
  obtain ⟨w', hrun', rfl⟩ :=
    (run_related (fun w w' => walkStep_behind env true out) fuel (t := _) rfl).ok_left hrun
  rw [List.append_nil] at hrun'
  obtain ⟨k, hreach⟩ := range_solo env b _ rest rfl hrun'
  exact ⟨k, _, hreach, rfl, rfl⟩

theorem looks_solo {c : Collect} (out : List Chunk) {bookmarkEnd : ℕ}
    (hne : c.collectorBookmark % c.log.ringBuffer.size ≠ bookmarkEnd % c.log.ringBuffer.size) :
    Reaches Fault.fuel (collectRound env) 2 (c, out, .compare bookmarkEnd) (c, out, .start bookmarkEnd
      (¬ c.collectorBookmark % c.log.ringBuffer.size < bookmarkEnd % c.log.ringBuffer.size)) := by
  have hcompare : Reaches Fault.fuel (collectRound env) 1 (c, out, .compare bookmarkEnd)
      (c, out, .order bookmarkEnd) :=
    Reaches.single (by rw [collectRound, collectStep_compare, if_neg hne]; rfl)
  exact hcompare.trans (Reaches.single rfl)

/-- **A thread alone in `collect`** makes `Collect.collect`. -/
theorem collect_solo {fuel : ℕ} {c c' : Collect} {new : List Chunk} (out : List Chunk)
    (h : c.collect env fuel = .ok (c', new)) :
    ∃ n, run Fault.fuel (collectRound env) n (c, out, .read) = .ok (c', out ++ new) := by
  have hread : Reaches Fault.fuel (collectRound env) 1 (c, out, .read)
      (c, out, .compare c.log.bufLastWrittenIndex) :=
    Reaches.single rfl
  have hstore : ∀ (c : Collect) (out : List Chunk) (i : ℕ), collectRound env (c, out, .store i) =
      .ok (.done ({ c with collectorBookmark := i }, out)) := fun _ _ _ => rfl
  rcases Collect.collect_cases rfl h with ⟨heq, rfl, rfl⟩ | ⟨hlt, i, log, hdump, rfl⟩ |
    ⟨hlt, i, log, top, i', log', bottom, htop, hbottom, rfl, rfl⟩
  · have hcompare : Reaches Fault.fuel (collectRound env) 1 (c, out, .compare c.log.bufLastWrittenIndex)
        (c, out, .store c.log.bufLastWrittenIndex) :=
      Reaches.single (by rw [collectRound, collectStep_compare, if_pos heq]; rfl)
    rw [List.append_nil]
    exact ⟨_, (hread.trans hcompare).run_done (hstore _ _ _) (Nat.lt_succ_self _)⟩
  · obtain ⟨k, w, hrange, rfl, rfl⟩ := dumpRange_solo env c.collectorBookmark none out hdump
    have hlook : Reaches Fault.fuel (collectRound env) 3 (c, out, .compare c.log.bufLastWrittenIndex)
        (c, out, .range env c.log c.collectorBookmark (u32Sub c.log.bufLastWrittenIndex 1) none) :=
      (looks_solo env out hlt.ne).trans (Reaches.single (by rw [decide_eq_false (not_not.mpr hlt)]; rfl))
    exact ⟨_, ((hread.trans hlook).trans hrange).run_done (hstore _ _ _) (Nat.lt_succ_self _)⟩
  · obtain ⟨k, w, hrange, -, rfl⟩ :=
      dumpRange_solo env c.collectorBookmark (some c.log.bufLastWrittenIndex) out htop
    obtain ⟨k', w', hrange', rfl, rfl⟩ := dumpRange_solo env c.collectorBookmark none (out ++ top) hbottom
    have hlook : Reaches Fault.fuel (collectRound env) 3 (c, out, .compare c.log.bufLastWrittenIndex)
        (c, out, .range env c.log c.collectorBookmark (u32Sub c.log.ringBuffer.size 1)
          (some c.log.bufLastWrittenIndex)) :=
      (looks_solo env out hlt.ne').trans (Reaches.single (by rw [decide_eq_true hlt.not_gt]; rfl))
    rw [← List.append_assoc]
    exact ⟨_, (((hread.trans hlook).trans hrange).trans hrange').run_done (hstore _ _ _) (Nat.lt_succ_self _)⟩

/-- A step in `collect` changes counters of the log, and adds to the output. -/
theorem collectStep_same {c c' : Collect} {out out' : List Chunk} {p : CollectPc} {next : Option CollectPc}
    (h : collectStep env c out p = .ok (c', out', next)) : c.log.Same c'.log ∧ out <+: out' := by
  have hrefl : c.log.Same c.log ∧ out <+: out := ⟨Log.Same.refl _, List.prefix_refl _⟩
  cases p with
  | read | compare _ | order _ =>
    cases h
    exact hrefl
  | start _ wrapped =>
    cases wrapped <;> cases h <;> exact hrefl
  | walk w last rest =>
    obtain ⟨r, hround, h⟩ := Loop.bind_eq_ok.mp h
    have hsame := Log.walkStep_same env hround
    cases r with
    | again w =>
      cases h
      exact hsame
    | done w => cases rest <;> cases h <;> exact hsame
  | store i =>
    cases h
    exact hrefl

/-- A thread behind its first read does not read again, and finds the bookmark where it
was if nobody else moves it. -/
theorem collectStep_steady {c c' : Collect} {out out' : List Chunk} {p q : CollectPc}
    (h : collectStep env c out p = .ok (c', out', some q)) (hp : p ≠ .read) : q ≠ .read ∧ q.Steady c' := by
  cases p with
  | read => exact absurd rfl hp
  | compare bookmarkEnd =>
    rw [collectStep_compare] at h
    split_ifs at h <;> cases h <;> exact ⟨nofun, trivial⟩
  | order bookmarkEnd =>
    rw [collectStep_order] at h
    by_cases hlt : c.collectorBookmark % c.log.ringBuffer.size < bookmarkEnd % c.log.ringBuffer.size
    · rw [decide_eq_false (not_not.mpr hlt)] at h
      cases h
      exact ⟨nofun, hlt⟩
    · rw [decide_eq_true hlt] at h
      cases h
      exact ⟨nofun, trivial⟩
  | start _ wrapped =>
    cases wrapped <;> cases h <;> exact ⟨nofun, trivial⟩
  | walk w last rest =>
    obtain ⟨r, -, h⟩ := Loop.bind_eq_ok.mp h
    cases r with
    | again w =>
      cases h
      exact ⟨nofun, trivial⟩
    | done w => cases rest <;> cases h <;> exact ⟨nofun, trivial⟩
  | store i => cases h

section Reaches

variable {env} {σ : Type} {R : σ → σ → Prop} {put : Collect → List Chunk → Option CollectPc → σ}

/-- The rounds of a thread that is alone in `collect`, as steps of a system. -/
theorem run_reaches (hput : ∀ {c out p c' out' next}, p.Steady c →
    collectStep env c out p = .ok (c', out', next) →
    R (put c out (some p)) (put c' out' next)) :
    ∀ {n : ℕ} {c c' : Collect} {out out' : List Chunk} {p : CollectPc},
    p ≠ .read → p.Steady c → run Fault.fuel (collectRound env) n (c, out, p) = .ok (c', out') →
      Relation.ReflTransGen R (put c out (some p)) (put c' out' none)
  | 0, _, _, _, _, _, _, _, h => by cases h
  | n + 1, c, c', out, out', p, hread, hsteady, h => by
    rcases run_inv h with hdone | ⟨m, ⟨c1, out1, q⟩, hagain, -⟩
    · obtain ⟨⟨c1, out1, next⟩, hstep, hround⟩ := Loop.bind_eq_ok.mp hdone
      cases next with
      | some q => cases hround
      | none =>
        cases hround
        exact .single (hput hsteady hstep)
    · rw [run_again hagain] at h
      obtain ⟨⟨c2, out2, next⟩, hstep, hround⟩ := Loop.bind_eq_ok.mp hagain
      cases next with
      | none => cases hround
      | some q =>
        cases hround
        obtain ⟨hread', hsteady'⟩ := collectStep_steady env hstep hread
        exact .head (hput hsteady hstep) (run_reaches hput hread' hsteady' h)

variable (put) in
/-- **A `collect` in one piece** is one way for the steps to go. -/
theorem collect_reaches (hput : ∀ {c out p c' out' next}, p.Steady c →
    collectStep env c out p = .ok (c', out', next) →
    R (put c out (some p)) (put c' out' next)) {fuel : ℕ} {c c' : Collect} {new : List Chunk}
      (out : List Chunk)
    (hpos : 0 < c.log.bufLastWrittenIndex) (h : c.collect env fuel = .ok (c', new)) :
    Relation.ReflTransGen R (put c out (some .read)) (put c' (out ++ new) none) := by
  obtain ⟨n, hrun⟩ := collect_solo env out h
  have hround : collectRound env (c, out, .read) =
      .ok (.again (c, out, .compare c.log.bufLastWrittenIndex)) := rfl
  have hsteady : (CollectPc.compare c.log.bufLastWrittenIndex).Steady c := by
    cases hlast : c.log.bufLastWrittenIndex with
    | zero => exact absurd hlast hpos.ne'
    | succ n => exact trivial
  cases n with
  | zero => cases hrun
  | succ n =>
    rw [run_again hround] at hrun
    exact .head (hput trivial rfl) (run_reaches hput nofun hsteady hrun)

end Reaches

end Solo

/-! ### The threads -/

/-- The thread that calls `setEnable`: outside of it, in `setEnable(true)` before the
bookmark is set, before `enable_` is, before the worker is created; in
`setEnable(false)` collecting, before the stream is flushed, before `enable_` is
cleared, waiting for the worker. -/
inductive Caller where
  | away
  | reset
  | enable
  | create
  | collect (p : CollectPc)
  | flush
  | disable
  | join

/-- The worker: not created, at the head of its loop, before its second look at
`enable_`, before it asks `shallCollect`, collecting (behind the loop if `final`),
before it idles, before it flushes the stream, at its end. -/
inductive Worker where
  | none
  | loop
  | test
  | decide
  | collect (p : CollectPc) (final : Bool)
  | idle
  | flush
  | exited

/-- `Log::Collect::FLUSH_IN_SEC`. -/
def FLUSH_IN_SEC : ℕ := 10

/-- `Log::Collect::SLEEP_USEC`. -/
def SLEEP_USEC : ℕ := 100000

/-- `idle`: whether the stream is flushed, and the counter. -/
def Collect.idle (lastFlushCounter : UInt32) : Bool × UInt32 :=
  let lastFlushCounter := lastFlushCounter + 1
  if FLUSH_IN_SEC * 1000000 / SLEEP_USEC < lastFlushCounter.toNat then (true, 0)
  else (false, lastFlushCounter)

/-- In how many calls `idle` flushes the stream. -/
def Collect.remaining (lastFlushCounter : UInt32) : ℕ :=
  if lastFlushCounter.toNat + 1 = 4294967296 then 102
  else if 100 ≤ lastFlushCounter.toNat then 1
  else 101 - lastFlushCounter.toNat

theorem Collect.remaining_pos (lastFlushCounter : UInt32) : 0 < remaining lastFlushCounter := by
  unfold remaining
  split_ifs <;> omega

theorem Collect.remaining_le (lastFlushCounter : UInt32) : remaining lastFlushCounter ≤ 102 := by
  unfold remaining
  split_ifs <;> omega

theorem flush_limit : FLUSH_IN_SEC * 1000000 / SLEEP_USEC = 100 := by decide

theorem Collect.idle_eq (lastFlushCounter : UInt32) : idle lastFlushCounter =
    if 100 < (lastFlushCounter + 1).toNat then (true, 0) else (false, lastFlushCounter + 1) := by
  unfold idle
  simp only [flush_limit]

/-- `idle` flushes the stream, or will do so one call sooner. -/
theorem Collect.idle_cases (lastFlushCounter : UInt32) : (idle lastFlushCounter).1 = true ∨
    ((idle lastFlushCounter).1 = false ∧ remaining (idle lastFlushCounter).2 + 1 =
      remaining lastFlushCounter) := by
  have hlt := lastFlushCounter.toNat_lt
  have hadd : (lastFlushCounter + 1).toNat = (lastFlushCounter.toNat + 1) % 4294967296 := UInt32.toNat_add _ _
  rw [idle_eq]
  by_cases hflush : 100 < (lastFlushCounter + 1).toNat
  · rw [if_pos hflush]
    exact .inl rfl
  · rw [if_neg hflush]
    refine .inr ⟨rfl, ?_⟩
    dsimp only [remaining]
    rw [hadd] at hflush ⊢
    split_ifs <;> omega

structure System where
  collect : Collect
  bufferThresholdPct : ℕ
  producers : List Producer
  out : List Chunk
  synced : ℕ
  lastFlushCounter : UInt32
  enable : Bool
  main : Caller
  worker : Worker

namespace System

/-- The program before `setEnable` is called; what no constructor sets is 0. -/
def new (lines : ℕ) (h0 : 0 < lines) (h1 : lines < 2147483648) : System where
  collect := .new lines h0 h1
  bufferThresholdPct := Collect.DEFAULT_BUFFER_THRESHOLD_PCT
  producers := []
  out := []
  synced := 0
  lastFlushCounter := 0
  enable := false
  main := .away
  worker := .none

/-- `setEnable` is called. -/
def setEnable (s : System) (enabled : Bool) : System :=
  if enabled = s.enable then s
  else if enabled then { s with main := .reset }
  else { s with main := .collect .read }

/-- A step of the thread that calls `setEnable`. -/
def mainStep (env : Env) (s : System) : Except Fault System :=
  match s.main with
  | .away => .ok s
  | .reset =>
    .ok { s with collect.collectorBookmark := s.collect.log.bufLastWrittenIndex, main := .enable }
  | .enable => .ok { s with enable := true, main := .create }
  | .create => .ok { s with worker := .loop, main := .away }
  | .collect p => do
    let (c, out, next) ← collectStep env s.collect s.out p
    match next with
    | some p => return { s with collect := c, out := out, main := .collect p }
    | none => return { s with collect := c, out := out, main := .flush }
  | .flush => .ok { s with synced := s.out.length, main := .disable }
  | .disable => .ok { s with enable := false, main := .join }
  | .join =>
    match s.worker with
    | .exited => .ok { s with worker := .none, main := .away }
    | _ => .ok s

/-- A step of the worker. -/
def workerStep (env : Env) (s : System) : Except Fault System :=
  match s.worker with
  | .none => .ok s
  | .loop => .ok { s with worker := if s.enable then .test else .collect .read true }
  | .test => .ok { s with worker := if s.enable then .decide else .idle }
  | .decide =>
    .ok { s with worker :=
      if s.collect.shallCollect s.bufferThresholdPct then .collect .read false else .idle }
  | .collect p final => do
    let (c, out, next) ← collectStep env s.collect s.out p
    match next with
    | some p => return { s with collect := c, out := out, worker := .collect p final }
    | none => return { s with collect := c, out := out, worker := if final then .flush else .loop }
  | .idle =>
    let (flushed, lastFlushCounter) := Collect.idle s.lastFlushCounter
    .ok { s with
      synced := if flushed then s.out.length else s.synced
      lastFlushCounter := lastFlushCounter
      worker := .loop }
  | .flush => .ok { s with synced := s.out.length, worker := .exited }
  | .exited => .ok s

/-- A call of `traceVargs` stores an index in order: not behind the one that is stored,
with the bytes of all records before it set. -/
def InOrder (log : Log) (ps : List Producer) (index : ℕ) : Prop :=
  log.bufLastWrittenIndex ≤ index ∧ ∀ p ∈ ps, p.entry.location < index → p.stage ≠ .allocated

/-- A step of a call of `traceVargs`, of a thread that dumps, of the thread that calls
`setEnable`, or of the worker. `Q` is what may be logged, `O` the condition under which
a call stores an index, and `P` the one under which a thread takes a step in `collect`.
What a dump changes of all this are counters of the log. -/
inductive Step (env : Env) (Q : Call → Prop) (O : Log → List Producer → ℕ → Prop)
    (P : System → CollectPc → Prop) : System → System → Prop
  | allocate {s call log e} : Q call → s.collect.log.allocate env call = .ok (log, e) →
      Step env Q O P s { s with collect.log := log, producers := s.producers ++ [⟨e, .allocated⟩] }
  | set {s pre e post log} : s.producers = pre ++ ⟨e, .allocated⟩ :: post → s.collect.log.set e = .ok log →
      Step env Q O P s { s with collect.log := log, producers := pre ++ ⟨e, .set⟩ :: post }
  | read {s pre e post} : s.producers = pre ++ ⟨e, .set⟩ :: post →
      Step env Q O P s
        { s with producers := pre ++ ⟨e, .read s.collect.log.ringBuffer.getCurrentIndex⟩ :: post }
  | store {s pre e index post} : s.producers = pre ++ ⟨e, .read index⟩ :: post →
      O s.collect.log s.producers index →
      Step env Q O P s { s with
        collect.log := s.collect.log.setLastWrittenIndex index, producers := pre ++ ⟨e, .stored⟩ :: post }
  | observe {s log} : s.collect.log.Same log → Step env Q O P s { s with collect.log := log }
  | setBufferThresholdPct {s} (value : ℕ) : Step env Q O P s { s with bufferThresholdPct := value }
  | setEnable {s} (enabled : Bool) : s.main = .away → Step env Q O P s (s.setEnable enabled)
  | main {s s'} : (∀ p, s.main = .collect p → P s p) → s.mainStep env = .ok s' → Step env Q O P s s'
  | worker {s s'} : (∀ p final, s.worker = .collect p final → P s p) → s.workerStep env = .ok s' →
      Step env Q O P s s'

/-- Runs. -/
abbrev Steps (env : Env) (Q : Call → Prop) (O : Log → List Producer → ℕ → Prop)
    (P : System → CollectPc → Prop) : System → System → Prop :=
  Relation.ReflTransGen (Step env Q O P)

section Mono

variable {env : Env} {Q Q' : Call → Prop} {O : Log → List Producer → ℕ → Prop} {P : System → CollectPc → Prop}
  {s s' : System}

theorem Step.mono (h : Step env Q O P s s') (hQ : ∀ call, Q call → Q' call) : Step env Q' O P s s' := by
  cases h with
  | allocate hcall halloc => exact .allocate (hQ _ hcall) halloc
  | set hps hset => exact .set hps hset
  | read hps => exact .read hps
  | store hps horder => exact .store hps horder
  | observe hsame => exact .observe hsame
  | setBufferThresholdPct value => exact .setBufferThresholdPct value
  | setEnable enabled hm => exact .setEnable enabled hm
  | main hP hstep => exact .main hP hstep
  | worker hP hstep => exact .worker hP hstep

theorem Steps.mono (h : Steps env Q O P s s') (hQ : ∀ call, Q call → Q' call) : Steps env Q' O P s s' := by
  induction h with
  | refl => exact .refl
  | tail _ hstep ih => exact ih.tail (hstep.mono hQ)

end Mono

end System
end Memlog
