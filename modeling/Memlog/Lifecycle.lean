/-
# The threads of the collector

Between its steps the thread that calls `setEnable` and the worker agree on the flag:
where one stands says whether the other runs (`Consistent`). What a step of either does
is said once (`mainStep_cases`, `workerStep_cases`).

`idle` flushes the stream each time it has been called 101 times; so output does not
wait for a flush longer than 102 calls of it, in any run (`idles_flush`).

Key definitions: `System.pc`, `System.Consistent`, `System.Kept`, `System.Session`,
`System.Idles`.
Key theorems: `System.mainStep_cases`, `System.workerStep_cases`,
`System.Step.consistent`, `System.idles_flush`.
-/
import Memlog.Consumer

namespace Memlog

open Circular
open Producers

/-- Where the thread that calls `setEnable` stands in `collect`. -/
def Caller.pc : Caller → Option CollectPc
  | .collect p => some p
  | _ => none

/-- Where the worker stands in `collect`. -/
def Worker.pc : Worker → Option CollectPc
  | .collect p _ => some p
  | _ => Option.none

/-- A worker that has found `enable_` set whenever it looked. -/
def Worker.Running : Worker → Prop
  | .none => False
  | .collect _ true => False
  | .flush => False
  | .exited => False
  | _ => True

/-- How many steps the worker takes at most when `enable_` has been cleared, in a ring of
`S` bytes. -/
def Worker.rounds (S : ℕ) : Worker → ℕ
  | .none => 0
  | .loop => 2 * S + 10
  | .test => 2 * S + 12
  | .decide => 4 * S + 19
  | .collect p true => p.rounds S + 1
  | .collect p false => p.rounds S + 2 * S + 10
  | .idle => 2 * S + 11
  | .flush => 1
  | .exited => 0

theorem Worker.Running.ne_none {w : Worker} (h : w.Running) : w ≠ .none := by
  rintro rfl
  exact h

namespace System

/-! ### The threads -/

def pc (s : System) : Thread → Option CollectPc
  | .main => s.main.pc
  | .worker => s.worker.pc

/-- The flag and the worker, by where the other thread stands. -/
def Consistent (s : System) : Prop :=
  match s.main with
  | .away => (s.enable = true ∧ s.worker.Running) ∨ (s.enable = false ∧ s.worker = .none)
  | .reset => s.enable = false ∧ s.worker = .none
  | .enable => s.enable = false ∧ s.worker = .none
  | .create => s.enable = true ∧ s.worker = .none
  | .collect _ => s.enable = true ∧ s.worker.Running
  | .flush => s.enable = true ∧ s.worker.Running
  | .disable => s.enable = true ∧ s.worker.Running
  | .join => s.enable = false ∧ s.worker ≠ .none

/-- A step that leaves alone what is shared; a thread may enter `collect`. -/
structure Kept (s s' : System) : Prop where
  collect : s'.collect = s.collect
  producers : s'.producers = s.producers
  out : s'.out = s.out
  pc : ∀ t, s'.pc t = s.pc t ∨ (s.pc t = none ∧ s'.pc t = some .read)

variable {env : Env} {Q : Call → Prop} {O : Log → List Producer → ℕ → Prop} {P : System → CollectPc → Prop}
  {s s' : System}

theorem setEnable_kept (h : s.main = .away) (enabled : Bool) : Kept s (s.setEnable enabled) := by
  unfold setEnable
  split_ifs
  · exact ⟨rfl, rfl, rfl, fun t => .inl rfl⟩
  · refine ⟨rfl, rfl, rfl, fun t => .inl ?_⟩
    cases t
    · simp [System.pc, Caller.pc, h]
    · rfl
  · refine ⟨rfl, rfl, rfl, fun t => ?_⟩
    cases t
    · exact .inr ⟨by simp [System.pc, Caller.pc, h], rfl⟩
    · exact .inl rfl

theorem mainStep_cases (hc : s.Consistent) (h : s.mainStep env = .ok s') :
    (∃ p c out next, s.main = .collect p ∧ collectStep env s.collect s.out p = .ok (c, out, next) ∧
      s' = { s with collect := c, out := out, main := next.elim .flush .collect }) ∨
    (s.main = .reset ∧ s' = { s with
      collect.collectorBookmark := s.collect.log.bufLastWrittenIndex, main := .enable }) ∨ Kept s s' := by
  unfold mainStep at h
  unfold Consistent at hc
  cases hm : s.main with
  | collect p =>
    rw [hm] at h
    obtain ⟨⟨c, out, next⟩, hstep, h⟩ := Loop.bind_eq_ok.mp h
    refine .inl ⟨p, c, out, next, rfl, hstep, ?_⟩
    cases next <;> exact (Except.ok.inj h).symm
  | reset =>
    rw [hm] at h
    exact .inr (.inl ⟨rfl, (Except.ok.inj h).symm⟩)
  | join =>
    rw [hm] at h
    refine .inr (.inr ?_)
    cases hw : s.worker <;> rw [hw] at h <;> cases h <;> refine ⟨rfl, rfl, rfl,
      fun t => .inl ?_⟩ <;> cases t <;>
      simp [System.pc, Caller.pc, Worker.pc, hm, hw]
  | away =>
    rw [hm] at h
    cases h
    exact .inr (.inr ⟨rfl, rfl, rfl, fun t => .inl rfl⟩)
  | enable | create | flush | disable =>
    rw [hm] at h hc
    cases h
    refine .inr (.inr ⟨rfl, rfl, rfl, fun t => .inl ?_⟩)
    cases t <;> simp [System.pc, Caller.pc, Worker.pc, hm, hc]

theorem workerStep_cases (h : s.workerStep env = .ok s') :
    (∃ p final c out next, s.worker = .collect p final ∧
      collectStep env s.collect s.out p = .ok (c, out, next) ∧
      s' = { s with
        collect := c
        out := out
        worker := next.elim (if final then .flush else .loop) (.collect · final) }) ∨
    (s'.main = s.main ∧ Kept s s') := by
  unfold workerStep at h
  cases hw : s.worker with
  | collect p final =>
    rw [hw] at h
    obtain ⟨⟨c, out, next⟩, hstep, h⟩ := Loop.bind_eq_ok.mp h
    refine .inl ⟨p, final, c, out, next, rfl, hstep, ?_⟩
    cases next <;> exact (Except.ok.inj h).symm
  | none | exited =>
    rw [hw] at h
    cases h
    exact .inr ⟨rfl, rfl, rfl, rfl, fun t => .inl rfl⟩
  | loop | decide =>
    rw [hw] at h
    cases h
    refine .inr ⟨rfl, rfl, rfl, rfl, fun t => ?_⟩
    cases t with
    | main => exact .inl rfl
    | worker =>
      simp only [System.pc, hw]
      split_ifs
      · simp [Worker.pc]
      · simp [Worker.pc]
  | test =>
    rw [hw] at h
    cases h
    refine .inr ⟨rfl, rfl, rfl, rfl, fun t => .inl ?_⟩
    cases t with
    | main => rfl
    | worker =>
      simp only [System.pc, hw]
      split_ifs <;> rfl
  | idle | flush =>
    rw [hw] at h
    cases h
    refine .inr ⟨rfl, rfl, rfl, rfl, fun t => .inl ?_⟩
    cases t with
    | main => rfl
    | worker => simp [System.pc, Worker.pc, hw]

theorem new_consistent (lines : ℕ) (h0 : 0 < lines) (h1 : lines < 2147483648) :
    (new lines h0 h1).Consistent :=
  .inr ⟨rfl, rfl⟩

theorem setEnable_consistent (hc : s.Consistent) (h : s.main = .away) (enabled : Bool) :
    (s.setEnable enabled).Consistent := by
  unfold Consistent at hc
  rw [h] at hc
  unfold setEnable
  split_ifs with heq htrue
  · unfold Consistent
    rw [h]
    exact hc
  · rcases hc with ⟨hon, -⟩ | hoff
    · exact absurd (htrue.trans hon.symm) heq
    · exact hoff
  · rcases hc with hon | ⟨hoff, -⟩
    · exact hon
    · exact absurd ((Bool.eq_false_iff.mpr htrue).trans hoff.symm) heq

theorem mainStep_consistent (hc : s.Consistent) (h : s.mainStep env = .ok s') : s'.Consistent := by
  unfold mainStep at h
  cases hm : s.main with
  | collect p =>
    rw [hm] at h
    obtain ⟨⟨c, out, next⟩, -, h⟩ := Loop.bind_eq_ok.mp h
    unfold Consistent at hc
    rw [hm] at hc
    cases next <;> cases h <;> exact hc
  | join =>
    unfold Consistent at hc
    rw [hm] at h hc
    cases hw : s.worker <;> rw [hw] at h <;> cases h
    case exited.refl => exact .inr ⟨hc.1, rfl⟩
    all_goals
      unfold Consistent
      rw [hm]
      exact hc
  | away =>
    rw [hm] at h
    cases h
    exact hc
  | reset =>
    unfold Consistent at hc
    rw [hm] at h hc
    cases h
    exact hc
  | enable =>
    unfold Consistent at hc
    rw [hm] at h hc
    cases h
    exact ⟨rfl, hc.2⟩
  | create =>
    unfold Consistent at hc
    rw [hm] at h hc
    cases h
    exact .inl ⟨hc.1, trivial⟩
  | flush =>
    unfold Consistent at hc
    rw [hm] at h hc
    cases h
    exact hc
  | disable =>
    unfold Consistent at hc
    rw [hm] at h hc
    cases h
    exact ⟨rfl, hc.2.ne_none⟩

/-- A worker that goes on is where the other thread expects it. -/
theorem Consistent.goto {w : Worker} (hc : s.Consistent) (hmain : s'.main = s.main)
    (henable : s'.enable = s.enable) (hworker : s'.worker = w)
    (hrunning : s.enable = true → s.worker.Running → w.Running)
    (hnone : w = .none ↔ s.worker = .none) : s'.Consistent := by
  unfold Consistent at hc ⊢
  rw [hmain, henable, hworker, hnone, ne_eq, hnone]
  cases hm : s.main <;> rw [hm] at hc <;> simp only at hc ⊢
  case away => exact hc.imp_left fun h => ⟨h.1, hrunning h.1 h.2⟩
  case collect | flush | disable => exact ⟨hc.1, hrunning hc.1 hc.2⟩
  all_goals exact hc

theorem workerStep_consistent (hc : s.Consistent) (h : s.workerStep env = .ok s') : s'.Consistent := by
  unfold workerStep at h
  cases hw : s.worker with
  | collect p final =>
    rw [hw] at h
    obtain ⟨⟨c, out, next⟩, -, h⟩ := Loop.bind_eq_ok.mp h
    cases next <;> cases h <;> cases final <;> exact hc.goto rfl rfl rfl
      (by simp [hw, Worker.Running]) (by simp [hw])
  | none | exited =>
    rw [hw] at h
    cases h
    exact hc
  | loop =>
    rw [hw] at h
    cases h
    refine hc.goto rfl rfl rfl ?_ ?_ <;> cases henable : s.enable <;> simp [hw, Worker.Running]
  | test =>
    rw [hw] at h
    cases h
    refine hc.goto rfl rfl rfl ?_ ?_ <;> cases henable : s.enable <;> simp [hw, Worker.Running]
  | decide =>
    rw [hw] at h
    cases h
    refine hc.goto rfl rfl rfl (fun _ _ => ?_) ?_
    · split_ifs <;> exact trivial
    · split_ifs <;> simp [hw]
  | idle | flush =>
    rw [hw] at h
    cases h
    exact hc.goto rfl rfl rfl (by simp [hw, Worker.Running]) (by simp [hw])

theorem Step.consistent (h : Step env Q O P s s') (hc : s.Consistent) : s'.Consistent := by
  cases h with
  | allocate _ _ | set _ _ | read _ | store _ _ | observe _ | setBufferThresholdPct _ => exact hc
  | setEnable enabled hm => exact setEnable_consistent hc hm enabled
  | main _ hstep => exact mainStep_consistent hc hstep
  | worker _ hstep => exact workerStep_consistent hc hstep

/-- The step in which `setEnable(true)` moves the bookmark. -/
def Resets (s s' : System) : Prop := s.main = .reset ∧ s'.main = .enable

/-- Runs in which the bookmark is not moved to the last written index. -/
abbrev Session (env : Env) (Q : Call → Prop) (O : Log → List Producer → ℕ → Prop)
    (P : System → CollectPc → Prop) : System → System → Prop :=
  Relation.ReflTransGen fun s s' => Step env Q O P s s' ∧ ¬ Resets s s'

theorem Session.steps (h : Session env Q O P s s') : Steps env Q O P s s' := by
  induction h with
  | refl => exact .refl
  | tail _ hstep ih => exact ih.tail hstep.1

theorem Step.of_resets (h : Step env Q O P s s') (hr : Resets s s') :
    s' = { s with collect.collectorBookmark := s.collect.log.bufLastWrittenIndex, main := .enable } := by
  obtain ⟨hm, hm'⟩ := hr
  cases h with
  | allocate _ _ | set _ _ | read _ | store _ _ | observe _ | setBufferThresholdPct _ =>
    cases hm.symm.trans hm'
  | setEnable enabled haway => cases haway.symm.trans hm
  | main _ hstep =>
    unfold mainStep at hstep
    rw [hm] at hstep
    exact (Except.ok.inj hstep).symm
  | worker _ hstep =>
    rcases workerStep_cases hstep with ⟨p, final, c, out, next, -, -, rfl⟩ | ⟨hkept, -⟩
    · cases hm.symm.trans hm'
    · cases hm.symm.trans (hkept.symm.trans hm')

theorem Step.records_prefix (h : Step env Q O P s s') (hc : s.Consistent) :
    records s.producers <+: records s'.producers := by
  cases h with
  | allocate _ _ =>
    rw [records_append]
    exact List.prefix_append _ _
  | set hps _ | read hps | store hps _ =>
    rw [hps]
    exact (records_stage ..).symm ▸ List.prefix_refl _
  | observe _ | setBufferThresholdPct _ => exact List.prefix_refl _
  | setEnable enabled hm => exact (setEnable_kept hm enabled).producers ▸ List.prefix_refl _
  | main _ hstep =>
    rcases mainStep_cases hc hstep with ⟨p, c, out, next, -, -, rfl⟩ | ⟨-, rfl⟩ | hk
    · exact List.prefix_refl _
    · exact List.prefix_refl _
    · exact hk.producers ▸ List.prefix_refl _
  | worker _ hstep =>
    rcases workerStep_cases hstep with ⟨p, final, c, out, next, -, -, rfl⟩ | ⟨-, hk⟩
    · exact List.prefix_refl _
    · exact hk.producers ▸ List.prefix_refl _

theorem Step.total_le (h : Step env Q O P s s') (hc : s.Consistent) :
    (flat (records s.producers)).length ≤ (flat (records s'.producers)).length :=
  flat_length_le (h.records_prefix hc)

/-! ### The ring under a step -/

section Ring

variable {S : ℕ} {text : Call → List UInt8}

theorem Kept.shared {line : Entry → List UInt8} (hk : Kept s s')
    (hs : Shared env S line s.collect s.producers) :
    Shared env S line s'.collect s'.producers := by
  rw [hk.collect, hk.producers]
  exact hs

theorem Shared.collectStep {line : Entry → List UInt8} {ps : List Producer} {c c' : Collect}
    {out out' : List Chunk} {p : CollectPc} {next : Option CollectPc} (hs : Shared env S line c ps)
    (h : collectStep env c out p = .ok (c', out', next)) :
    Shared env S line c' ps ∧ c'.log.bufLastWrittenIndex = c.log.bufLastWrittenIndex := by
  obtain ⟨hsame, -⟩ := collectStep_same env h
  refine ⟨(hs.same hsame).bookmark c'.collectorBookmark, ?_⟩
  obtain ⟨st, hst⟩ := hsame
  rw [hst]

/-- **A step keeps the ring**, and does not move the last written index back. -/
theorem Step.shared (h : Step env (Renders env text) InOrder P s s') (hc : s.Consistent)
    (hs : Shared env S (Entry.line env text) s.collect s.producers)
    (htotal : (flat (records s'.producers)).length < S) :
    Shared env S (Entry.line env text) s'.collect s'.producers ∧
      s.collect.log.bufLastWrittenIndex ≤ s'.collect.log.bufLastWrittenIndex := by
  cases h with
  | allocate hcall halloc =>
    have ha := allocate_inv halloc
    exact ⟨hs.allocate ha (ha.prints hcall) htotal, ha.lastWritten.ge⟩
  | set hps hset =>
    rw [hps] at hs
    obtain ⟨hlast, hs'⟩ := hs.set_ok hset
    exact ⟨hs', hlast.ge⟩
  | read hps =>
    rw [hps] at hs
    exact ⟨hs.read_current, le_rfl⟩
  | store hps horder =>
    rw [hps] at hs horder
    exact ⟨hs.store horder, horder.1⟩
  | observe hsame =>
    refine ⟨hs.same hsame, ?_⟩
    obtain ⟨st, rfl⟩ := hsame
    exact le_rfl
  | setBufferThresholdPct _ => exact ⟨hs, le_rfl⟩
  | setEnable enabled hm =>
    have hk := setEnable_kept hm enabled
    exact ⟨hk.shared hs, hk.collect ▸ le_rfl⟩
  | main _ hstep =>
    rcases mainStep_cases hc hstep with ⟨p, c, out, next, -, hcollect, rfl⟩ | ⟨-, rfl⟩ | hk
    · obtain ⟨hs', hlast⟩ := hs.collectStep hcollect
      exact ⟨hs', hlast.ge⟩
    · exact ⟨hs.bookmark _, le_rfl⟩
    · exact ⟨hk.shared hs, hk.collect ▸ le_rfl⟩
  | worker _ hstep =>
    rcases workerStep_cases hstep with ⟨p, final, c, out, next, -, hcollect, rfl⟩ | ⟨-, hk⟩
    · obtain ⟨hs', hlast⟩ := hs.collectStep hcollect
      exact ⟨hs', hlast.ge⟩
    · exact ⟨hk.shared hs, hk.collect ▸ le_rfl⟩

theorem new_shared (h0 : 4096 ≤ S) (hS : 0 < S) (h1 : S < 2147483648) :
    Shared env S (Entry.line env text) (Collect.new S hS h1) [] :=
  ⟨Placed.new hS h1, hS, h0, h1, nofun, .inl rfl, nofun, rfl⟩

/-- **A run keeps the ring.** -/
theorem Steps.shared (h0 : 4096 ≤ S) (hS : 0 < S) (h1 : S < 2147483648)
    (h : Steps env (Renders env text) InOrder P (new S hS h1) s) :
    s.Consistent ∧ ((flat (records s.producers)).length < S →
      Shared env S (Entry.line env text) s.collect s.producers) := by
  induction h with
  | refl => exact ⟨new_consistent S hS h1, fun _ => new_shared h0 hS h1⟩
  | tail _ hstep ih =>
    obtain ⟨hc, ih⟩ := ih
    exact ⟨hstep.consistent hc,
      fun htotal => (hstep.shared hc (ih ((hstep.total_le hc).trans_lt htotal)) htotal).1⟩

end Ring

/-! ### The end of the worker -/

/-- Runs in which the thread that calls `setEnable` waits for the worker, which takes `n`
steps. -/
inductive Waiting (env : Env) (Q : Call → Prop) (O : Log → List Producer → ℕ → Prop)
    (P : System → CollectPc → Prop) : ℕ → System → System → Prop
  | refl {s : System} : s.main = .join → Waiting env Q O P 0 s s
  | worker {n : ℕ} {s s' s'' : System} : Waiting env Q O P n s s' → s'.worker ≠ .exited →
      (∀ p final, s'.worker = .collect p final → P s' p) → s'.workerStep env = .ok s'' →
        Waiting env Q O P (n + 1) s s''
  | other {n : ℕ} {s s' s'' : System} : Waiting env Q O P n s s' → Step env Q O P s' s'' →
      s''.worker = s'.worker →
      s''.main = .join → Waiting env Q O P n s s''

theorem workerStep_main (h : s.workerStep env = .ok s') : s'.main = s.main := by
  rcases workerStep_cases h with ⟨p, final, c, out, next, -, -, rfl⟩ | ⟨hmain, -⟩
  · rfl
  · exact hmain

theorem Waiting.steps {n : ℕ} (h : Waiting env Q O P n s s') : Steps env Q O P s s' ∧ s'.main = .join := by
  induction h with
  | refl hm => exact ⟨.refl, hm⟩
  | worker _ _ hP hstep ih => exact ⟨ih.1.tail (.worker hP hstep), (workerStep_main hstep).trans ih.2⟩
  | other _ hstep _ hm ih => exact ⟨ih.1.tail hstep, hm⟩

/-- The worker and the output under a step of the other thread. -/
theorem mainStep_worker (hc : s.Consistent) (h : s.mainStep env = .ok s') :
    s'.worker = .none ∨ s'.worker = .loop ∨
    (s'.worker = s.worker ∧ (s.worker = .exited → s'.synced = s.synced ∧ s'.out = s.out)) := by
  unfold mainStep at h
  unfold Consistent at hc
  cases hm : s.main with
  | collect p =>
    rw [hm] at h hc
    obtain ⟨⟨c, out, next⟩, -, h⟩ := Loop.bind_eq_ok.mp h
    have hne : s.worker ≠ .exited := by
      intro hw
      rw [hw] at hc
      exact hc.2
    cases next <;> cases h <;> exact .inr (.inr ⟨rfl, fun hw => absurd hw hne⟩)
  | flush =>
    rw [hm] at h hc
    cases h
    refine .inr (.inr ⟨rfl, fun hw => ?_⟩)
    rw [hw] at hc
    exact hc.2.elim
  | create =>
    rw [hm] at h
    cases h
    exact .inr (.inl rfl)
  | join =>
    rw [hm] at h
    cases hw : s.worker <;> rw [hw] at h <;> cases h
    case exited.refl => exact .inl rfl
    all_goals exact .inr (.inr ⟨hw, nofun⟩)
  | away | reset | enable | disable =>
    rw [hm] at h
    cases h
    exact .inr (.inr ⟨rfl, fun _ => ⟨rfl, rfl⟩⟩)

/-- Where the worker comes from on its last steps. -/
theorem workerStep_last (h : s.workerStep env = .ok s') :
    (∀ p, s'.worker = .collect p true → s.worker = .loop ∨ ∃ p', s.worker = .collect p' true) ∧
    (s'.worker = .flush → ∃ i, s.worker = .collect (.store i) true) ∧
    (s'.worker = .exited → s' = s ∨ (s.worker = .flush ∧ s'.synced = s'.out.length)) := by
  unfold workerStep at h
  cases hw : s.worker with
  | collect p final =>
    rw [hw] at h
    obtain ⟨⟨c, out, next⟩, hstep, h⟩ := Loop.bind_eq_ok.mp h
    cases next with
    | some p' =>
      cases h
      exact ⟨fun q hq => .inr ⟨p, by cases hq; rfl⟩, nofun, nofun⟩
    | none =>
      obtain ⟨i, rfl⟩ := collectStep_return hstep
      cases h
      cases final
      · exact ⟨nofun, nofun, nofun⟩
      · exact ⟨nofun, fun _ => ⟨i, rfl⟩, nofun⟩
  | loop =>
    rw [hw] at h
    cases h
    refine ⟨fun _ _ => .inl rfl, ?_, ?_⟩ <;> dsimp only <;> split_ifs <;> exact nofun
  | decide | test =>
    rw [hw] at h
    cases h
    simp only
    split_ifs <;> exact ⟨nofun, nofun, nofun⟩
  | flush =>
    rw [hw] at h
    cases h
    exact ⟨nofun, nofun, fun _ => .inr ⟨rfl, rfl⟩⟩
  | exited =>
    rw [hw] at h
    cases h
    exact ⟨by rw [hw]; exact nofun, by rw [hw]; exact nofun, fun _ => .inl rfl⟩
  | none =>
    rw [hw] at h
    cases h
    exact ⟨by rw [hw]; exact nofun, by rw [hw]; exact nofun, fun _ => .inl rfl⟩
  | idle =>
    rw [hw] at h
    cases h
    exact ⟨nofun, nofun, nofun⟩

/-! ### How long output waits for a flush -/

section Flushes

/-- Runs in which the worker idles at least `n` times. -/
inductive Idles (env : Env) (Q : Call → Prop) (O : Log → List Producer → ℕ → Prop)
    (P : System → CollectPc → Prop) : ℕ → System → System → Prop
  | refl {s : System} : Idles env Q O P 0 s s
  | idle {n : ℕ} {s s' s'' : System} : Idles env Q O P n s s' → s'.worker = .idle →
      s'.workerStep env = .ok s'' →
      Idles env Q O P (n + 1) s s''
  | other {n : ℕ} {s s' s'' : System} : Idles env Q O P n s s' → Step env Q O P s' s'' →
      Idles env Q O P n s s''

/-- All that was written is handed on, or it waits for no more calls of `idle` than
before. -/
def Waits (s s' : System) : Prop :=
  s'.synced = s'.out.length ∨
    (s'.synced = s.synced ∧ Collect.remaining s'.lastFlushCounter ≤ Collect.remaining s.lastFlushCounter)

theorem Waits.refl (s : System) : Waits s s := .inr ⟨rfl, le_rfl⟩

theorem mainStep_waits (h : s.mainStep env = .ok s') : s.out <+: s'.out ∧ Waits s s' := by
  unfold mainStep at h
  cases hm : s.main with
  | collect p =>
    rw [hm] at h
    obtain ⟨⟨c, out, next⟩, hstep, h⟩ := Loop.bind_eq_ok.mp h
    have hout := (collectStep_same env hstep).2
    cases next <;> cases h <;> exact ⟨hout, .inr ⟨rfl, le_rfl⟩⟩
  | flush =>
    rw [hm] at h
    cases h
    exact ⟨List.prefix_refl _, .inl rfl⟩
  | join =>
    rw [hm] at h
    cases hw : s.worker <;> rw [hw] at h <;> cases h <;> exact ⟨List.prefix_refl _, .inr ⟨rfl, le_rfl⟩⟩
  | away | reset | enable | create | disable =>
    rw [hm] at h
    cases h
    exact ⟨List.prefix_refl _, .inr ⟨rfl, le_rfl⟩⟩

theorem workerStep_idle (hw : s.worker = .idle) : s.workerStep env = .ok { s with
    synced := if (Collect.idle s.lastFlushCounter).1 then s.out.length else s.synced
    lastFlushCounter := (Collect.idle s.lastFlushCounter).2
    worker := .loop } := by
  unfold workerStep
  rw [hw]

theorem workerStep_sooner (hw : s.worker = .idle) (h : s.workerStep env = .ok s') :
    s'.synced = s'.out.length ∨ (s'.synced = s.synced ∧
      Collect.remaining s'.lastFlushCounter + 1 = Collect.remaining s.lastFlushCounter) := by
  rw [workerStep_idle hw] at h
  obtain rfl := Except.ok.inj h
  rcases Collect.idle_cases s.lastFlushCounter with hflush | ⟨hflush, hsooner⟩
  · exact .inl (if_pos hflush)
  · exact .inr ⟨if_neg (by rw [hflush]; exact Bool.false_ne_true), hsooner⟩

theorem workerStep_waits (h : s.workerStep env = .ok s') : s.out <+: s'.out ∧ Waits s s' := by
  cases hw : s.worker with
  | collect p final =>
    unfold workerStep at h
    rw [hw] at h
    obtain ⟨⟨c, out, next⟩, hstep, h⟩ := Loop.bind_eq_ok.mp h
    have hout := (collectStep_same env hstep).2
    cases next <;> cases h <;> exact ⟨hout, .inr ⟨rfl, le_rfl⟩⟩
  | flush =>
    unfold workerStep at h
    rw [hw] at h
    cases h
    exact ⟨List.prefix_refl _, .inl rfl⟩
  | idle =>
    have hout : s'.out = s.out := by
      rw [workerStep_idle hw] at h
      rw [← Except.ok.inj h]
    refine ⟨hout ▸ List.prefix_refl _, ?_⟩
    exact (workerStep_sooner hw h).imp_right fun hs => ⟨hs.1, by omega⟩
  | none | loop | test | decide | exited =>
    unfold workerStep at h
    rw [hw] at h
    cases h
    exact ⟨List.prefix_refl _, .inr ⟨rfl, le_rfl⟩⟩

theorem Step.waits (h : Step env Q O P s s') : s.out <+: s'.out ∧ Waits s s' := by
  cases h with
  | allocate _ _ | set _ _ | read _ | store _ _ | observe _ | setBufferThresholdPct _ =>
    exact ⟨List.prefix_refl _, .inr ⟨rfl, le_rfl⟩⟩
  | setEnable enabled _ =>
    unfold System.setEnable
    split_ifs <;> exact ⟨List.prefix_refl _, .inr ⟨rfl, le_rfl⟩⟩
  | main _ hstep => exact mainStep_waits hstep
  | worker _ hstep => exact workerStep_waits hstep

theorem Idles.waits {n : ℕ} (h : Idles env Q O P n s s') : s.out <+: s'.out ∧ (s.out.length ≤ s'.synced ∨
    Collect.remaining s'.lastFlushCounter + n ≤ Collect.remaining s.lastFlushCounter) := by
  induction h with
  | refl => exact ⟨List.prefix_refl _, .inr le_rfl⟩
  | idle _ hw hstep ih =>
    have hout := ih.1.trans (workerStep_waits hstep).1
    refine ⟨hout, ?_⟩
    rcases workerStep_sooner hw hstep with hsynced | ⟨hsynced, hsooner⟩
    · exact .inl (hsynced ▸ hout.length_le)
    · exact ih.2.imp (fun h => hsynced ▸ h) (fun h => by omega)
  | other _ hstep ih =>
    obtain ⟨hgrows, hwaits⟩ := hstep.waits
    have hout := ih.1.trans hgrows
    refine ⟨hout, ?_⟩
    rcases hwaits with hsynced | ⟨hsynced, hle⟩
    · exact .inl (hsynced ▸ hout.length_le)
    · exact ih.2.imp (fun h => hsynced ▸ h) (fun h => by omega)

/-- **Output does not wait.** Whatever is logged, published and collected in between, and
whatever the counter of `idle` starts from, which no constructor sets, all that was
written has been handed on by a flush when the worker has idled 102 times. -/
theorem idles_flush (h : Idles env Q O P 102 s s') : s.out.length ≤ s'.synced := by
  rcases h.waits.2 with hsynced | hle
  · exact hsynced
  · have hpos := Collect.remaining_pos s'.lastFlushCounter
    have hlimit := Collect.remaining_le s.lastFlushCounter
    omega

/-- A worker that has nothing to collect idles as long as `enable_` is set. -/
theorem exists_idles (n : ℕ) (hw : s.worker = .loop) (henable : s.enable = true)
    (hnone : s.collect.shallCollect s.bufferThresholdPct = false) :
    ∃ s', Idles env Q O P n s s' ∧ s'.worker = .loop ∧
      s'.enable = true ∧ s'.collect.shallCollect s'.bufferThresholdPct = false := by
  induction n with
  | zero => exact ⟨s, .refl, hw, henable, hnone⟩
  | succ n ih =>
    obtain ⟨s', hidles, hw', henable', hnone'⟩ := ih
    have hstep : ∀ {s s' : System} {w : Worker},
        s.worker = w → w.pc = none → s.workerStep env = .ok s' → Step env Q O P s s' := by
      rintro s s' w rfl hpc hstep
      refine .worker (fun p final hp => ?_) hstep
      rw [hp] at hpc
      cases hpc
    have htest : Step env Q O P s' { s' with worker := .test } :=
      hstep hw' rfl (by simp [workerStep, hw', henable'])
    have hdecide : Step env Q O P { s' with worker := .test } { s' with worker := .decide } :=
      hstep rfl rfl (by simp [workerStep, henable'])
    have hidle : Step env Q O P { s' with worker := .decide } { s' with worker := .idle } :=
      hstep rfl rfl (by simp [workerStep, hnone'])
    exact ⟨_, .idle (((hidles.other htest).other hdecide).other hidle) rfl (workerStep_idle rfl), rfl,
      henable', hnone'⟩

theorem idles_flush_example : ∃ s s',
    Idles stringEnv (fun _ => True) (fun _ _ _ => True) (fun _ _ => True) 102 s s' ∧ s.synced = 0 ∧
    s.out.length = 1 ∧ 1 ≤ s'.synced := by
  let s : System :=
    { new 4096 (by decide) (by decide) with out := [.notice []], enable := true, worker := .loop }
  obtain ⟨s', hidles, -⟩ : ∃ s',
      Idles stringEnv (fun _ => True) (fun _ _ _ => True) (fun _ _ => True) 102 s s' ∧ _ :=
    exists_idles 102 rfl rfl ((Collect.shallCollect_eq _).trans (if_pos rfl))
  exact ⟨s, s', hidles, rfl, rfl, idles_flush hidles⟩

end Flushes

end System
end Memlog
