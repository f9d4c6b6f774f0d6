/-
# What the collector delivers between `setEnable(true)` and `setEnable(false)`

The steps of the system are steps of consumers that share a cursor (`Tied.step`). So
nothing is passed over, on three conditions: all calls round-trip (`Renders`) and
together do not fill the ring; each stores its index in order (`InOrder`); and a thread
in `collect` finds the bookmark where it takes it to be (`Ahead`). When
`setEnable(false)` returns, every record published before `enable_` was cleared has been
written, and handed on by a flush (`disable_delivers`). If a thread enters `collect` only
when the other is not in it, each is written once, in order (`collects_once`).

Key definitions: `System.Tied`, `System.Guard`, `System.Ending`.
Key theorems: `System.Tied.step`, `System.Session.tied`, `System.disable_delivers`,
`System.collects_once`.
-/
import Memlog.Lifecycle

namespace Memlog

open Circular
open Producers

namespace System

variable {env : Env} {Q : Call → Prop} {O : Log → List Producer → ℕ → Prop} {P : System → CollectPc → Prop}
  {s s' : System}

/-! ### The system and the consumers -/

/-- The system and the consumers: what was written before is `old`, and the copying
starts at record number `base`. -/
structure Tied (env : Env) (S : ℕ) (line : Entry → List UInt8) (base : ℕ) (old : List Chunk) (s : System)
    (a : Cursor.State Entry Thread) : Prop where
  along : Along env S line old s.collect s.producers s.out a
  stands : ∀ t, Stands S (records s.producers) (s.pc t) (a.pc t)
  inv : Cursor.Inv base a

section Tied

variable {S : ℕ} {line : Entry → List UInt8} {base : ℕ} {old : List Chunk}
  {a : Cursor.State Entry Thread} {t : Thread}
  {P' : Cursor.State Entry Thread → Prop}

theorem Stands.idle {es : List Entry} {p : Option CollectPc} {q : Cursor.Pc} (h : Stands S es p q)
    (hp : p = none ∨ p = some .read) : q = .idle := by
  cases h <;> simp_all

theorem Tied.kept (h : Tied env S line base old s a) (hk : Kept s s') : Tied env S line base old s' a := by
  refine ⟨?_, fun t => ?_, h.inv⟩
  · rw [hk.collect, hk.producers, hk.out]
    exact h.along
  · have hst := h.stands t
    rw [hk.producers]
    rcases hk.pc t with hpc | ⟨hnone, hread⟩
    · rw [hpc]
      exact hst
    · rw [hst.idle (.inl hnone), hread]
      exact .read

/-- A thread takes a step in `collect`. -/
theorem Tied.collectStep {p : CollectPc} {next : Option CollectPc} (h : Tied env S line base old s a)
    (hp : s.pc t = some p) (hload : p = .read → P' a) (hsteady : p.Steady s.collect)
    (hstep : Memlog.collectStep env s.collect s.out p = .ok (s'.collect, s'.out, next))
    (hproducers : s'.producers = s.producers) (hpc : s'.pc = Function.update s.pc t next) :
    ∃ a', Tied env S line base old s' a' ∧ (a' = a ∨ Cursor.Step P' a a') := by
  obtain ⟨a', q, halong, hcursor, hpc', hq, -⟩ :=
    h.along.collectStep h.inv (hp ▸ h.stands t) hload hsteady hstep
  have hinv : Cursor.Inv base a' := by
    rcases hcursor with rfl | hcursor
    · exact h.inv
    · exact hcursor.inv h.inv
  refine ⟨a', ⟨by rw [hproducers]; exact halong, fun t' => ?_, hinv⟩, hcursor⟩
  rw [hproducers, hpc, hpc']
  by_cases ht : t' = t
  · subst ht
    rw [Function.update_self, Function.update_self]
    exact hq
  · rw [Function.update_of_ne ht, Function.update_of_ne ht]
    exact h.stands t'

/-- **A step of the system is at most one step of a consumer**, unless it moves the
bookmark to the last written index. -/
theorem Tied.step {text : Call → List UInt8} (h : Tied env S (Entry.line env text) base old s a)
    (hc : s.Consistent) (hmain : ¬ Resets s s') (htotal : (flat (records s'.producers)).length < S)
    (hload : P s .read → P' a) (hsteady : ∀ t p, s.pc t = some p → P s p → p.Steady s.collect)
    (hstep : Step env (Renders env text) InOrder P s s') :
    ∃ a', Tied env S (Entry.line env text) base old s' a' ∧ (a' = a ∨ Cursor.Step P' a a') := by
  have halong := h.along
  have hstands := h.stands
  cases hstep with
  | @allocate call log e hcall halloc =>
    have ha := allocate_inv halloc
    have hcursor : Cursor.Step P' a { a with journal := a.journal ++ [e] } := .append e
    refine ⟨_, ⟨halong.allocate ha (ha.prints hcall) htotal, fun t => ?_, hcursor.inv h.inv⟩, .inr hcursor⟩
    rw [records_append]
    exact (hstands t).concat e
  | @set pre e post log hps hset =>
    rw [hps] at halong hstands
    exact ⟨a, ⟨halong.set hset, fun t => records_stage pre post e .allocated .set ▸ hstands t, h.inv⟩,
      .inl rfl⟩
  | @read pre e post hps =>
    rw [hps] at halong hstands
    exact ⟨a, ⟨halong.read, fun t => records_stage pre post e .set (.read _) ▸ hstands t, h.inv⟩, .inl rfl⟩
  | @store pre e index post hps horder =>
    rw [hps] at halong hstands horder
    obtain ⟨a', halong', hcursor, hpc⟩ := halong.store (P := P') horder
    refine ⟨a', ⟨halong', fun t => ?_, hcursor.inv h.inv⟩, .inr hcursor⟩
    rw [hpc]
    exact records_stage pre post e (.read index) .stored ▸ hstands t
  | observe hsame => exact ⟨a, ⟨halong.same hsame, hstands, h.inv⟩, .inl rfl⟩
  | setBufferThresholdPct value => exact ⟨a, ⟨halong, hstands, h.inv⟩, .inl rfl⟩
  | setEnable enabled hm => exact ⟨a, h.kept (setEnable_kept hm enabled), .inl rfl⟩
  | main hP hstep =>
    rcases mainStep_cases hc hstep with ⟨p, c, out, next, hm, hcollect, rfl⟩ | ⟨hreset, rfl⟩ | hk
    · have hp : s.pc .main = some p := by simp [System.pc, Caller.pc, hm]
      refine h.collectStep hp (fun hread => hload (hread ▸ hP p hm))
        (hsteady .main p hp (hP p hm)) hcollect rfl ?_
      funext t
      cases t <;> cases next <;> rfl
    · exact absurd ⟨hreset, rfl⟩ hmain
    · exact ⟨a, h.kept hk, .inl rfl⟩
  | worker hP hstep =>
    rcases workerStep_cases hstep with ⟨p, final, c, out, next, hw, hcollect, rfl⟩ | ⟨-, hk⟩
    · have hp : s.pc .worker = some p := by simp [System.pc, Worker.pc, hw]
      refine h.collectStep hp (fun hread => hload (hread ▸ hP p final hw))
        (hsteady .worker p hp (hP p final hw)) hcollect rfl ?_
      funext t
      cases t <;> cases next <;> cases final <;> rfl
    · exact ⟨a, h.kept hk, .inl rfl⟩

end Tied

/-! ### Runs and sessions -/

/-- A condition on the steps in `collect` that makes them steps of consumers, which
begin under `P'` and keep `I`. -/
structure Guard (env : Env) (S : ℕ) (line : Entry → List UInt8) (P : System → CollectPc → Prop)
    (P' : Cursor.State Entry Thread → Prop) (I : ℕ → Cursor.State Entry Thread → Prop) : Prop where
  start : ∀ {a}, Cursor.Alone a → a.cursor ≤ a.journal.length → a.written = [] → I a.cursor a
  step : ∀ {base a a'}, Cursor.Step P' a a' → Cursor.Inv base a → I base a → I base a'
  load : ∀ {base old s a}, Tied env S line base old s a → P s .read → P' a
  steady : ∀ {base old s a t p}, Tied env S line base old s a → I base a → s.pc t = some p → P s p →
    p.Steady s.collect

section Runs

variable {S : ℕ} {line : Entry → List UInt8} {text : Call → List UInt8} {base : ℕ} {old : List Chunk}
  {a : Cursor.State Entry Thread}
  {P' : Cursor.State Entry Thread → Prop} {I : ℕ → Cursor.State Entry Thread → Prop} {n : ℕ}

theorem Steps.records_prefix (h : Steps env Q O P s s') (hc : s.Consistent) :
    s'.Consistent ∧ records s.producers <+: records s'.producers := by
  induction h with
  | refl => exact ⟨hc, List.prefix_refl _⟩
  | tail _ hstep ih => exact ⟨hstep.consistent ih.1, ih.2.trans (hstep.records_prefix ih.1)⟩

theorem Session.records_prefix (h : Session env Q O P s s') (hc : s.Consistent) :
    s'.Consistent ∧ records s.producers <+: records s'.producers :=
  Steps.records_prefix h.steps hc

/-- When no thread is in `collect`, the consumers start from the bookmark. -/
theorem Tied.restart (hg : Guard env S line P P' I) (h : Tied env S line base old s a)
    (hidle : ∀ t, s.pc t = none) :
    ∃ base a', Tied env S line base (linesOf s.out) s a' ∧ I base a' ∧
      At (records s.producers) s.collect.collectorBookmark base := by
  let a' : Cursor.State Entry Thread := { a with written := [] }
  have halone : Cursor.Alone a' := fun t => (h.stands t).idle (.inl (hidle t))
  have hle : a'.cursor ≤ a'.journal.length := h.inv.cursor_le.trans h.inv.published_le
  have hinv : Cursor.Inv a'.cursor a' := Cursor.Inv.start halone h.inv.cursor_le h.inv.published_le rfl
  exact ⟨a.cursor, a',
    ⟨⟨h.along.shared, h.along.journal, h.along.published, h.along.cursor, (List.append_nil _).symm⟩,
    h.stands, hinv⟩, hg.start halone hle rfl, h.along.cursor⟩

/-- `setEnable(true)` moves the bookmark when no thread is in `collect`. -/
theorem Tied.resets (hg : Guard env S line P P' I) (h : Tied env S line base old s a) (hc : s.Consistent)
    (hm : s.main = .reset) : ∃ base a', Tied env S line base (linesOf s.out)
      { s with collect.collectorBookmark := s.collect.log.bufLastWrittenIndex, main := .enable } a' ∧
        I base a' := by
  unfold Consistent at hc
  rw [hm] at hc
  have hidle : ∀ t, s.pc t = none := by
    intro t
    cases t <;> simp [System.pc, Caller.pc, Worker.pc, hm, hc]
  let a' : Cursor.State Entry Thread := { a with cursor := a.published, written := [] }
  have halone : Cursor.Alone a' := fun t => (h.stands t).idle (.inl (hidle t))
  have hle : a'.cursor ≤ a'.journal.length := h.inv.published_le
  have hinv : Cursor.Inv a'.cursor a' := Cursor.Inv.start halone le_rfl h.inv.published_le rfl
  refine ⟨a.published, a', ⟨⟨h.along.shared.bookmark _, h.along.journal, h.along.published, h.along.published,
    (List.append_nil _).symm⟩, fun t => ?_, hinv⟩, hg.start halone hle rfl⟩
  have hst := h.stands t
  rw [hidle t] at hst
  cases t with
  | main => exact hst
  | worker =>
    simp only [System.pc, hc, Worker.pc]
    exact hst

/-- **A session keeps** what its steps keep, of the system and of the consumers. -/
theorem Session.tied {J : System → Cursor.State Entry Thread → Prop}
    (hg : Guard env S (Entry.line env text) P P' I)
    (hJ : ∀ {s s' a a'}, Step env (Renders env text) InOrder P s s' → s.Consistent →
      Tied env S (Entry.line env text) base old s a →
      a' = a ∨ Cursor.Step P' a a' → J s a → J s' a')
    (h : Session env (Renders env text) InOrder P s s') (hc : s.Consistent)
    (ht : Tied env S (Entry.line env text) base old s a)
    (hI : I base a) (hs : J s a) : s'.Consistent ∧ ((flat (records s'.producers)).length < S →
      ∃ a', Tied env S (Entry.line env text) base old s' a' ∧ I base a' ∧ J s' a') := by
  induction h with
  | refl => exact ⟨hc, fun _ => ⟨a, ht, hI, hs⟩⟩
  | tail _ hstep ih =>
    obtain ⟨hc', ih⟩ := ih
    refine ⟨hstep.1.consistent hc', fun htotal => ?_⟩
    obtain ⟨a', ht', hI', hs'⟩ := ih ((hstep.1.total_le hc').trans_lt htotal)
    obtain ⟨a'', ht'', hcursor⟩ :=
      ht'.step hc' hstep.2 htotal (hg.load ht') (fun t p hp hP => hg.steady ht' hI' hp hP) hstep.1
    refine ⟨a'', ht'', ?_, hJ hstep.1 hc' ht' hcursor hs'⟩
    rcases hcursor with rfl | hcursor
    · exact hI'
    · exact hg.step hcursor ht'.inv hI'

theorem Steps.tied (hg : Guard env S (Entry.line env text) P P' I) (h0 : 4096 ≤ S) (hS : 0 < S)
    (h1 : S < 2147483648) (h : Steps env (Renders env text) InOrder P (new S hS h1) s) :
    s.Consistent ∧ ((flat (records s.producers)).length < S →
      ∃ base old a, Tied env S (Entry.line env text) base old s a ∧ I base a) := by
  induction h with
  | refl =>
    let a : Cursor.State Entry Thread := ⟨[], 0, 0, [], fun _ => .idle⟩
    refine ⟨new_consistent S hS h1,
      fun _ => ⟨0, [], a, ⟨⟨new_shared h0 hS h1, rfl, At.zero _, At.zero _, rfl⟩, fun t => ?_,
      Cursor.Inv.start (s := a) (fun _ => rfl) le_rfl le_rfl rfl⟩,
        hg.start (a := a) (fun _ => rfl) le_rfl rfl⟩⟩
    cases t <;> exact .out
  | @tail s s' _ hstep ih =>
    obtain ⟨hc, ih⟩ := ih
    refine ⟨hstep.consistent hc, fun htotal => ?_⟩
    obtain ⟨base, old, a, ht, hI⟩ := ih ((hstep.total_le hc).trans_lt htotal)
    by_cases hr : Resets s s'
    · obtain rfl := hstep.of_resets hr
      obtain ⟨base', a', ht', hI'⟩ := ht.resets hg hc hr.1
      exact ⟨base', _, a', ht', hI'⟩
    · obtain ⟨a', ht', rfl | hcursor⟩ :=
        ht.step hc hr htotal (hg.load ht) (fun t p hp hP => hg.steady ht hI hp hP) hstep
      · exact ⟨base, old, a', ht', hI⟩
      · exact ⟨base, old, a', ht', hg.step hcursor ht.inv hI⟩

/-- Each thread in `collect` finds the bookmark where it takes it to be. -/
def Ahead (s : System) (p : CollectPc) : Prop := p.Steady s.collect

theorem ahead_guard : Guard env S line Ahead (fun _ => True) (fun _ _ => True) where
  start _ _ _ := trivial
  step _ _ _ := trivial
  load _ _ := trivial
  steady _ _ _ hP := hP

/-- A thread enters `collect` when no other has read the last written index. -/
def Free (s : System) (p : CollectPc) : Prop := p = .read → ∀ t p', s.pc t = some p' → p' = .read

theorem free_guard : Guard env S line Free Cursor.Alone (fun base a => ∃ n, Cursor.Sole base n a) where
  start halone hle hwritten := ⟨_, Cursor.Sole.start halone hle hwritten⟩
  step hstep hi hs := by
    obtain ⟨n, hn⟩ := hs
    exact hstep.sole hi hn
  load := by
    intro base old s a ht hP t
    cases hp : s.pc t with
    | none => exact (ht.stands t).idle (.inl hp)
    | some p => exact (ht.stands t).idle (.inr (hp.trans (congrArg some (hP rfl t p hp))))
  steady := by
    intro base old s a t p ht hs hp _
    obtain ⟨n, hn⟩ := hs
    have hcursor := ht.along.cursor
    have hst := ht.stands t
    rw [hp] at hst
    generalize hpc : a.pc t = q at hst
    cases hst with
    | read | order _ _ | wrap _ _ | top _ _ _ | walk _ _ | store _ => exact trivial
    | @compare bookmarkEnd stop hat =>
      cases bookmarkEnd with
      | succ _ => exact trivial
      | zero =>
        -- the thread that has read 0 is the only one under way
        obtain rfl := (hat.eq_iff (At.zero _)).mp rfl
        obtain ⟨-, -, hle⟩ := hn.only hpc nofun
        exact Nat.le_zero.mp ((hcursor.le_iff (At.zero _)).mpr hle)
    | @start bookmarkEnd stop hat _ =>
      obtain ⟨-, -, hlt⟩ := hn.only hpc nofun
      have hbefore := (hcursor.lt_iff hat).mpr hlt
      simp only [CollectPc.Steady, RingBuffer.normalize]
      rwa [ht.along.mod hcursor, ht.along.mod hat]

/-! ### The last `collect` of the worker -/

/-- Records up to `n` were published when `enable_` was still set: the last `collect`
of the worker reads at least these as published, and copies them. -/
structure Ending (n base : ℕ) (s : System) (a : Cursor.State Entry Thread) : Prop where
  published : n ≤ a.published
  final : ∀ p, s.worker = .collect p true → Cursor.Reads n a .worker
  done : s.worker = .flush ∨ s.worker = .exited → Cursor.Covered base n a
  synced : s.worker = .exited → s.synced = s.out.length

theorem Ending.running (hn : a.published = n) (hw : s.worker.Running) : Ending n base s a where
  published := hn.ge
  final p hp := by
    rw [hp] at hw
    exact hw.elim
  done hd := by
    rcases hd with hd | hd <;> rw [hd] at hw <;> exact hw.elim
  synced hd := by
    rw [hd] at hw
    exact hw.elim

theorem Ending.step (h : Ending n base s a) (hc : s.Consistent) (ht : Tied env S line base old s a)
    {a' : Cursor.State Entry Thread} (hcursor : a' = a ∨ Cursor.Step P' a a') (hstep : Step env Q O P s s') :
    Ending n base s' a' := by
  have hgrows : Cursor.Grows a a' := by
    rcases hcursor with rfl | hcursor
    · exact ⟨List.prefix_refl _, le_rfl, List.prefix_refl _⟩
    · exact hcursor.grows
  have hreads : Cursor.Reads n a .worker → Cursor.Reads n a' .worker := by
    rcases hcursor with rfl | hcursor
    · exact id
    · exact hcursor.reads h.published
  have hpublished := h.published.trans hgrows.published
  -- the worker and the output stay as they are
  have hkept : s'.worker = s.worker → (s.worker = .exited → s'.synced = s.synced ∧ s'.out = s.out) →
      Ending n base s' a' := by
    refine fun hw hout => ⟨hpublished, fun p hp => hreads (h.final p (hw.symm.trans hp)),
      fun hd => ?_, fun hd => ?_⟩
    · rw [hw] at hd
      exact (h.done hd).grows hgrows
    · obtain ⟨hsynced, hout⟩ := hout (hw.symm.trans hd)
      rw [hsynced, hout]
      exact h.synced (hw.symm.trans hd)
  cases hstep with
  | allocate _ _ | set _ _ | read _ | store _ _ | observe _ | setBufferThresholdPct _ =>
    exact hkept rfl fun _ => ⟨rfl, rfl⟩
  | setEnable enabled _ =>
    unfold setEnable at hkept ⊢
    split_ifs at hkept ⊢ <;> exact hkept rfl fun _ => ⟨rfl, rfl⟩
  | main _ hstep =>
    rcases mainStep_worker hc hstep with hw | hw | ⟨hw, hout⟩
    · refine ⟨hpublished, ?_, ?_, ?_⟩ <;> simp [hw]
    · refine ⟨hpublished, ?_, ?_, ?_⟩ <;> simp [hw]
    · exact hkept hw hout
  | worker _ hstep =>
    obtain ⟨hfinal, hflush, hexit⟩ := workerStep_last hstep
    have hst := ht.stands .worker
    refine ⟨hpublished, fun p hp => hreads ?_, fun hd => ?_, fun hd => ?_⟩
    · rcases hfinal p hp with hloop | ⟨p', hp'⟩
      · exact .inl (hst.idle (.inl (by simp [System.pc, Worker.pc, hloop])))
      · exact h.final p' hp'
    · rcases hd with hd | hd
      · -- the worker has stored what it had read, or more
        obtain ⟨i, hw⟩ := hflush hd
        have hread := h.final _ hw
        simp only [System.pc, Worker.pc, hw] at hst
        generalize hpc : a.pc .worker = q at hst
        cases hst with
        | @store _ stop hat =>
          have hn : n ≤ stop := by
            rcases hread with hidle | hread
            · cases hpc.symm.trans hidle
            · rw [hpc] at hread
              exact hread
          exact Cursor.Covered.grows
            (fun k hk hlt => (ht.inv.walks _ _ _ hpc).2 k hk (hlt.trans_le hn)) hgrows
      · rcases hexit hd with rfl | ⟨hw, -⟩
        · exact (h.done (.inr hd)).grows hgrows
        · exact (h.done (.inl hw)).grows hgrows
    · rcases hexit hd with rfl | ⟨-, hsynced⟩
      · exact h.synced hd
      · exact hsynced

/-! ### The worker comes to its end -/

/-- When `enable_` has been cleared, each step of the worker is one less to come. -/
theorem Tied.workerStep_rounds (h : Tied env S line base old s a) (hoff : s.enable = false)
    (hnone : s.worker ≠ .none) (hexit : s.worker ≠ .exited)
    (hsteady : ∀ p, s.pc .worker = some p → p.Steady s.collect) (hstep : s.workerStep env = .ok s') :
    s'.worker.rounds S < s.worker.rounds S := by
  have hst := h.stands .worker
  cases hw : s.worker with
  | collect p final =>
    unfold workerStep at hstep
    rw [hw] at hstep
    obtain ⟨⟨c, out, next⟩, hcollect, hstep⟩ := Loop.bind_eq_ok.mp hstep
    simp only [System.pc, hw, Worker.pc] at hst hsteady
    obtain ⟨_, _, -, -, -, -, hrounds⟩ :=
      h.along.collectStep (P := fun _ => True) h.inv hst (fun _ => trivial)
      (hsteady p rfl) hcollect
    cases next with
    | some q =>
      cases hstep
      rw [Option.elim_some] at hrounds
      cases final <;> simp only [Worker.rounds] <;> omega
    | none =>
      cases hstep
      rw [Option.elim_none] at hrounds
      cases final <;> simp [Worker.rounds] <;> omega
  | none => exact absurd hw hnone
  | exited => exact absurd hw hexit
  | loop | test =>
    unfold workerStep at hstep
    rw [hw] at hstep
    cases hstep
    simp [hoff, Worker.rounds, CollectPc.rounds]
  | decide =>
    unfold workerStep at hstep
    rw [hw] at hstep
    cases hstep
    dsimp only
    split_ifs <;> simp only [Worker.rounds, CollectPc.rounds] <;> omega
  | idle =>
    rw [workerStep_idle hw] at hstep
    cases hstep
    simp [Worker.rounds]
  | flush =>
    unfold workerStep at hstep
    rw [hw] at hstep
    cases hstep
    simp [Worker.rounds]

theorem Stands.rounds_le {es : List Entry} {p : CollectPc} {q : Cursor.Pc} (h : Stands S es (some p) q)
    (hle : (flat es).length ≤ S) : p.rounds S ≤ 2 * S + 8 := by
  cases h with
  | read | compare _ | order _ _ | start _ _ | wrap _ _ | store _ =>
    simp only [CollectPc.rounds]
    omega
  | top hat _ _ =>
    simp only [CollectPc.rounds]
    omega
  | walk hat hlast =>
    have hlast := hlast.le
    simp only [CollectPc.rounds]
    omega

theorem Tied.rounds_le (h : Tied env S line base old s a) : s.worker.rounds S ≤ 4 * S + 19 := by
  have hst := h.stands .worker
  have htotal := h.along.shared.total
  cases hw : s.worker with
  | collect p final =>
    simp only [System.pc, hw, Worker.pc] at hst
    have hle := hst.rounds_le htotal.le
    cases final <;> simp only [Worker.rounds] <;> omega
  | _ =>
    simp only [Worker.rounds]
    omega

theorem Tied.workerStep_ok (h : Tied env S line base old s a)
    (hshort : ∀ e ∈ records s.producers, (line e).length ≤ 4096) :
    ∃ s', s.workerStep env = .ok s' := by
  have hst := h.stands .worker
  unfold workerStep
  cases hw : s.worker with
  | collect p final =>
    simp only [System.pc, hw, Worker.pc] at hst
    obtain ⟨⟨c, out, next⟩, hcollect⟩ := h.along.collectStep_ok hst hshort
    simp only [hcollect, Loop.ok_bind]
    cases next <;> exact ⟨_, rfl⟩
  | none | loop | test | decide | idle | flush | exited => exact ⟨_, rfl⟩

theorem Waiting.rounds (h0 : 4096 ≤ S) (hS : 0 < S) (h1 : S < 2147483648)
    (hrun : Steps env (Renders env text) InOrder Ahead (new S hS h1) s)
    (h : Waiting env (Renders env text) InOrder Ahead n s s') :
    (flat (records s'.producers)).length < S → n + s'.worker.rounds S ≤ s.worker.rounds S := by
  induction h with
  | refl _ => exact fun _ => (Nat.zero_add _).le
  | @worker n s s' s'' hwait hexit hP hstep ih =>
    intro htotal
    obtain ⟨hsteps, hmain⟩ := hwait.steps
    have hreach : Steps env (Renders env text) InOrder Ahead (new S hS h1) s' := hrun.trans hsteps
    obtain ⟨hc, htied⟩ := hreach.tied ahead_guard h0 hS h1
    have hle := (Step.worker (Q := Renders env text) (O := InOrder) hP hstep).total_le hc
    obtain ⟨_, _, _, ht, -⟩ := htied (hle.trans_lt htotal)
    unfold Consistent at hc
    rw [hmain] at hc
    have hsteady : ∀ p, s'.pc .worker = some p → p.Steady s'.collect := by
      intro q hp
      cases hw : s'.worker with
      | collect p final =>
        simp only [System.pc, hw, Worker.pc] at hp
        exact Option.some.inj hp ▸ hP p final hw
      | _ =>
        simp only [System.pc, hw, Worker.pc] at hp
        cases hp
    have hless := ht.workerStep_rounds hc.1 hc.2 hexit hsteady hstep
    have hih := ih hrun (hle.trans_lt htotal)
    omega
  | @other n s s' s'' hwait hstep hw _ ih =>
    intro htotal
    obtain ⟨hsteps, -⟩ := hwait.steps
    have hreach : Steps env (Renders env text) InOrder Ahead (new S hS h1) s' := hrun.trans hsteps
    obtain ⟨hc, -⟩ := hreach.tied ahead_guard h0 hS h1
    rw [hw]
    exact ih hrun ((hstep.total_le hc).trans_lt htotal)

end Runs

/-! ### A session -/

section Strings

/-- A thread alone in `collect` may go on. -/
def Grants (P : System → CollectPc → Prop) : Prop :=
  ∀ s p, p.Steady s.collect → (∀ t p', s.pc t = some p' → p' = p) → P s p

theorem ahead_grants : Grants Ahead := fun _ _ hsteady _ => hsteady

theorem free_grants : Grants Free := by
  rintro s _ - halone rfl
  exact halone

/-- `setEnable(false)` collects before the worker comes to it. -/
theorem Session.main_collects {fuel : ℕ} {c : Collect} {new : List Chunk} (hP : Grants P)
    (hm : s.main = .collect .read) (hw : s.worker.pc = none)
    (hpos : 0 < s.collect.log.bufLastWrittenIndex) (h : s.collect.collect env fuel = .ok (c, new)) :
    Session env Q O P s { s with collect := c, out := s.out ++ new, main := .flush } := by
  have hsteps := collect_reaches (R := fun s s' => Step env Q O P s s' ∧ ¬ Resets s s')
    (fun c out next => { s with collect := c, out := out, main := next.elim .flush .collect }) ?_ s.out hpos h
  · simpa [← hm] using hsteps
  · intro c out p c' out' next hsteady hstep
    refine ⟨.main (fun q hq => ?_) ?_, fun hr => nomatch hr.1⟩
    · obtain rfl := Caller.collect.inj hq
      refine hP _ _ hsteady fun t p' hp' => ?_
      cases t with
      | main => exact (Option.some.inj hp').symm
      | worker => cases hw.symm.trans hp'
    · simp only [mainStep, Option.elim_some, hstep, Loop.ok_bind]
      cases next <;> rfl

/-- The worker collects when the other thread waits for it. -/
theorem Session.worker_collects {fuel : ℕ} {final : Bool} {c : Collect} {new : List Chunk}
    (hP : Grants P) (hw : s.worker = .collect .read final) (hm : s.main = .join)
    (hpos : 0 < s.collect.log.bufLastWrittenIndex) (h : s.collect.collect env fuel = .ok (c, new)) :
    Session env Q O P s { s with
      collect := c, out := s.out ++ new, worker := if final then .flush else .loop } := by
  have hsteps := collect_reaches (R := fun s s' => Step env Q O P s s' ∧ ¬ Resets s s')
    (fun c out next => { s with
      collect := c
      out := out
      worker := next.elim (if final then .flush else .loop) (.collect · final) }) ?_ s.out hpos h
  · simpa [← hw] using hsteps
  · intro c out p c' out' next hsteady hstep
    refine ⟨.worker (fun q final' hq => ?_) ?_, fun hr => nomatch hm.symm.trans hr.1⟩
    · obtain ⟨rfl, rfl⟩ := Worker.collect.inj hq
      refine hP _ _ hsteady fun t p' hp' => ?_
      cases t with
      | main =>
        simp only [System.pc, hm] at hp'
        cases hp'
      | worker => exact (Option.some.inj hp').symm
    · simp only [workerStep, Option.elim_some, hstep, Loop.ok_bind]
      cases next <;> rfl

theorem callText_renders : Renders stringEnv callText (stringCall (letters 4 (by decide))) :=
  roundTrips_string _

/-- A call logs four letters, from its allocation to its end. -/
theorem exists_logged : ∃ log1 log2 e,
    (Log.new 4096 (by decide) (by decide)).allocate stringEnv (stringCall (letters 4 (by decide))) =
      .ok (log1, e) ∧
    log1.set e = .ok log2 ∧ log2.ringBuffer.getCurrentIndex = 69 ∧ log2.bufLastWrittenIndex = 0 ∧
    (flat [e]).length = 69 ∧ e.location = 0 ∧ (e.line stringEnv callText).length = 4 ∧
    Inv stringEnv 4096 (Entry.line stringEnv callText)
      ⟨log2.setLastWrittenIndex 69, 0⟩ [⟨e, .stored⟩] [] := by
  have h1 : (4096 : ℕ) < 2147483648 := by decide
  have hstage := stage_string (show (letters 4 (by decide)).bytes.length + 65 ≤ 4096 by decide)
  obtain ⟨log1, e, halloc⟩ := allocate_ok hstage (Log.new 4096 (by decide) h1)
  have ha := allocate_inv halloc
  have hargs : e.args = (letters 4 (by decide)).bytes ++ [0] := Except.ok.inj (ha.staged.symm.trans hstage)
  have hbytes : e.bytes.length = 69 := by
    rw [e.length_eq, hargs]
    rfl
  have htotal : ∀ s, (flat (records [⟨e, s⟩])).length = 69 := by simp [records, hbytes]
  have hline : (e.line stringEnv callText).length = 4 := by
    have hsec : e.header.tv_sec = 0 := by
      rw [ha.header]
      rfl
    rw [Entry.line, ha.forCall, Log.printPrefix]
    simp only [hsec]
    rfl
  have hinv1 : Inv stringEnv 4096 (Entry.line stringEnv callText) ⟨log1, 0⟩
      ([] ++ ⟨e, .allocated⟩ :: []) [] :=
    (Inv.new (by decide) h1).allocate h1 ha (ha.prints (roundTrips_string _))
      ((htotal _).trans_lt (by decide))
  obtain ⟨log2, hset, hinv2⟩ := hinv1.set h1 ((htotal _).trans_lt (by decide))
  have hcurrent : log2.ringBuffer.getCurrentIndex = 69 := hinv2.placed.current.trans (htotal _)
  have hlast : log2.bufLastWrittenIndex = 0 := by
    obtain ⟨log, hset', hlast, -⟩ := hinv1.placed.set h1 ((htotal _).trans_lt (by decide))
    obtain rfl := Except.ok.inj (hset.symm.trans hset')
    exact hlast.trans ha.lastWritten
  have hinv3 := hinv2.read.store
  rw [hcurrent] at hinv3
  exact ⟨log1, log2, e, halloc, hset, hcurrent, hlast, htotal .stored,
    hinv1.placed.located 0 e ⟨[], [], rfl, rfl⟩, hline, hinv3⟩

theorem collect_logged {c : Collect} {e : Entry} {out : List Chunk}
    (h : Inv stringEnv 4096 (Entry.line stringEnv callText) c [⟨e, .stored⟩] out)
    (hbytes : (flat [e]).length = 69) (hline : (e.line stringEnv callText).length = 4) :
    c.log.bufLastWrittenIndex = 69 ∧
    ∃ c' new, c.collect stringEnv 4097 = .ok (c', new) ∧ c'.collectorBookmark = 69 ∧
      Inv stringEnv 4096 (Entry.line stringEnv callText) c' [⟨e, .stored⟩] (out ++ new) := by
  have htotal : (flat (records [⟨e, .stored⟩])).length < 4096 := hbytes.trans_lt (by decide)
  have hlast : c.log.bufLastWrittenIndex = 69 := by
    have hpos := h.published.stored ⟨e, .stored⟩ (by simp) rfl
    rcases h.published.lastWritten with hlast | ⟨x, pre, post, heq, hlast⟩
    · exact hlast.trans hbytes
    · cases pre with
      | nil => exact absurd hlast hpos.ne
      | cons y pre => simp [records] at heq
  have hahead : c.collectorBookmark ≤ c.log.bufLastWrittenIndex :=
    h.consumed.le.trans_eq (hbytes.trans hlast.symm)
  have hset : ∀ p ∈ [(⟨e, .stored⟩ : Producer)], p.stage ≠ .allocated := by simp
  obtain ⟨c', new, hall⟩ := h.collect_returns (by decide) htotal hset hahead (by simp [records, hline])
  have hcollect := hall 4097 (by decide)
  obtain ⟨h', hend⟩ := h.collect (by decide) htotal ⟨hahead, fun p hp _ _ _ _ _ _ => hset p hp⟩ hcollect
  refine ⟨hlast, c', new, hcollect, ?_, h'⟩
  rcases hend with hend | ⟨p, hp, hstage⟩
  · exact hend.trans hlast
  · exact absurd hstage (hset p hp)

/-- A call logs four letters between `setEnable(true)` and `setEnable(false)`, which
collects the record before the worker looks at `enable_` for the first time. -/
theorem exists_session (hcall : Q (stringCall (letters 4 (by decide)))) (hP : Grants P) : ∃ s0 s1 s2 e,
    Steps stringEnv Q InOrder P (new 4096 (by decide) (by decide)) s0 ∧ (∀ t, s0.pc t = none) ∧
    Session stringEnv Q InOrder P s0 s1 ∧ s1.main = .disable ∧ s1.worker = .loop ∧
    Session stringEnv Q InOrder P s1 s2 ∧ s2.worker = .exited ∧
    records s1.producers = [e] ∧ records s2.producers = [e] ∧ (flat [e]).length = 69 ∧
    (e.line stringEnv callText).length = 4 ∧ e.location = 0 ∧
    s0.collect.collectorBookmark = 0 ∧ s1.collect.log.bufLastWrittenIndex = 69 := by
  obtain ⟨log1, log2, e, halloc, hset, hcurrent, hlast, hbytes, hloc, hline, hinv⟩ := exists_logged
  obtain ⟨-, c3, new3, hcollect3, hbookmark3, hinv3⟩ := collect_logged hinv hbytes hline
  obtain ⟨hlast3, c4, new4, hcollect4, -, hinv4⟩ := collect_logged hinv3 hbytes hline
  let s0 : System := { new 4096 (by decide) (by decide) with main := .enable }
  let opened : System := { s0 with enable := true, main := .away, worker := .loop }
  let logged : System :=
    { opened with collect.log := log2.setLastWrittenIndex 69, producers := [⟨e, .stored⟩] }
  let s1 : System := { logged with
    collect := c3, out := [] ++ new3, synced := ([] ++ new3).length, main := .disable }
  let s2 : System := { s1 with
    collect := c4, out := [] ++ new3 ++ new4, synced := ([] ++ new3 ++ new4).length, enable := false,
      main := .join, worker := .exited }
  have hmain : ∀ {s s' : System} {q : Caller},
      s.main = q → q.pc = none → q ≠ .reset → s.mainStep stringEnv = .ok s' →
      Step stringEnv Q InOrder P s s' ∧ ¬ Resets s s' := by
    rintro s s' q rfl hq hne hstep
    refine ⟨.main (fun p hp => ?_) hstep, fun hr => hne hr.1⟩
    rw [hp] at hq
    cases hq
  have hworker : ∀ {s s' : System} {q : Worker},
      s.worker = q → q.pc = none → s.main = .join → s.workerStep stringEnv = .ok s' →
      Step stringEnv Q InOrder P s s' ∧ ¬ Resets s s' := by
    rintro s s' q rfl hq hjoin hstep
    refine ⟨.worker (fun p final hp => ?_) hstep, fun hr => nomatch hjoin.symm.trans hr.1⟩
    rw [hp] at hq
    cases hq
  have hstart : Steps stringEnv Q InOrder P (new 4096 (by decide) (by decide)) s0 :=
    (Relation.ReflTransGen.single (.setEnable true rfl)).tail (.main nofun rfl)
  have hopen : Session stringEnv Q InOrder P s0 opened := by
    have henable : Session stringEnv Q InOrder P s0 { s0 with enable := true, main := .create } :=
      .single (hmain rfl rfl nofun rfl)
    exact henable.tail (hmain rfl rfl nofun rfl)
  have hlog : Session stringEnv Q InOrder P opened logged := by
    have hread : Step stringEnv Q InOrder P
        { opened with collect.log := log2, producers := [⟨e, .set⟩] }
        { opened with collect.log := log2, producers := [⟨e, .read 69⟩] } := by
      rw [← hcurrent]
      exact .read (show _ = [] ++ _ from rfl)
    have hstore : Step stringEnv Q InOrder P
        { opened with collect.log := log2, producers := [⟨e, .read 69⟩] } logged :=
      .store (show _ = [] ++ _ from rfl) ⟨by simp [hlast], by simp⟩
    exact (((Relation.ReflTransGen.single ⟨.allocate hcall halloc, nofun⟩).tail
      ⟨.set (show _ = [] ++ _ from rfl) hset, nofun⟩).tail ⟨hread, nofun⟩).tail ⟨hstore, nofun⟩
  have hclose : Session stringEnv Q InOrder P logged s1 :=
    ((Relation.ReflTransGen.single ⟨.setEnable false rfl, nofun⟩).trans
      (Session.main_collects hP rfl rfl (show 0 < 69 by decide) hcollect3)).tail (hmain rfl rfl nofun rfl)
  have hjoin : Session stringEnv Q InOrder P s1 s2 := by
    have hdisable : Session stringEnv Q InOrder P s1 { s1 with enable := false, main := .join } :=
      .single (hmain rfl rfl nofun rfl)
    have hloop : Session stringEnv Q InOrder P { s1 with enable := false, main := .join }
        { s1 with enable := false, main := .join, worker := .collect .read true } := .single
          (hworker rfl rfl rfl rfl)
    have hcollect := Session.worker_collects (Q := Q) (O := InOrder)
      (s := { s1 with enable := false, main := .join, worker := .collect .read true }) hP rfl rfl
      (Nat.lt_of_lt_of_eq (show 0 < 69 by decide) hlast3.symm) hcollect4
    exact ((hdisable.trans hloop).trans hcollect).tail (hworker rfl rfl rfl rfl)
  exact ⟨s0, s1, s2, e, hstart,
    by intro t; cases t <;> rfl, (hopen.trans hlog).trans hclose, rfl, rfl, hjoin, rfl,
    rfl, rfl, hbytes, hline, hloc, rfl, hlast3⟩

end Strings

/-! ### What is delivered -/

section Delivers

variable {S : ℕ} {text : Call → List UInt8}

/-- **`setEnable(false)` delivers.** In a ring of at least 4096 bytes that the calls do
not fill, under the three conditions: from a state in which no thread collects, over a
session in which `enable_` is cleared at `s1`, until the worker has come to its end, the
lines that are written are lines of records, among them those of all records that at the
start were not before the bookmark, and that were published when `enable_` was cleared;
and all the output has been handed on by a flush. -/
theorem disable_delivers {s0 s1 s2 : System} (h0 : 4096 ≤ S) (hS : 0 < S) (h1 : S < 2147483648)
    (hrun : Steps env (Renders env text) InOrder Ahead (new S hS h1) s0) (hidle : ∀ t, s0.pc t = none)
    (hsession : Session env (Renders env text) InOrder Ahead s0 s1) (hdisable : s1.main = .disable)
    (hrest : Session env (Renders env text) InOrder Ahead s1 s2) (hexit : s2.worker = .exited)
    (htotal : (flat (records s2.producers)).length < S) :
    s2.synced = s2.out.length ∧
      ∃ written, linesOf s2.out = linesOf s0.out ++ lines (Entry.line env text) written ∧
      written ⊆ records s2.producers ∧ ∀ e ∈ records s1.producers, s0.collect.collectorBookmark ≤ e.location →
        e.location < s1.collect.log.bufLastWrittenIndex → e ∈ written := by
  obtain ⟨hc0, ht0⟩ := hrun.tied ahead_guard h0 hS h1
  obtain ⟨hc1, hprefix1⟩ := hsession.records_prefix hc0
  obtain ⟨-, hprefix2⟩ := hrest.records_prefix hc1
  have htotal1 := (flat_length_le hprefix2).trans_lt htotal
  obtain ⟨_, _, _, ht0, -⟩ := ht0 ((flat_length_le hprefix1).trans_lt htotal1)
  obtain ⟨base, a0, ht0, -, hbase⟩ := ht0.restart ahead_guard hidle
  obtain ⟨-, ht1⟩ := hsession.tied (J := fun _ _ => True) ahead_guard
    (fun _ _ _ _ _ => trivial) hc0 ht0 trivial trivial
  obtain ⟨a1, ht1, -, -⟩ := ht1 htotal1
  have hrunning : s1.worker.Running := by
    unfold Consistent at hc1
    rw [hdisable] at hc1
    exact hc1.2
  obtain ⟨-, ht2⟩ := hrest.tied (J := Ending a1.published base) ahead_guard
    (fun hstep hc ht hcursor h => h.step hc ht hcursor hstep) hc1 ht1 trivial (.running rfl hrunning)
  obtain ⟨a2, ht2, -, hending⟩ := ht2 htotal
  refine ⟨hending.synced hexit, a2.written, ht2.along.written, ht2.along.journal ▸ ht2.inv.written, ?_⟩
  intro e he hfrom hto
  obtain ⟨k, hat, hget⟩ := ht1.along.shared.exists_at he
  have hk : base ≤ k := ((hbase.mono hprefix1).le_iff hat).mp hfrom
  have hlt : k < a1.published := (hat.lt_iff ht1.along.published).mp hto
  obtain ⟨x, hx, hget2⟩ := hending.done (.inr hexit) k hk hlt
  rw [ht2.along.journal] at hget2
  obtain ⟨rest, hrest⟩ := hprefix2
  rw [← hrest, List.getElem?_append_left (List.getElem?_eq_some_iff.mp hget).1, hget] at hget2
  exact Option.some.inj hget2 ▸ hx

theorem disable_delivers_example : ∃ s0 s1 s2 e,
    Session stringEnv (Renders stringEnv callText) InOrder Ahead s0 s1 ∧ s1.main = .disable ∧
    Session stringEnv (Renders stringEnv callText) InOrder Ahead s1 s2 ∧ s2.worker = .exited ∧
      records s1.producers = [e] ∧
    s2.synced = s2.out.length ∧ ∃ written,
      linesOf s2.out = linesOf s0.out ++ lines (Entry.line stringEnv callText) written ∧ e ∈ written := by
  obtain ⟨s0, s1, s2, e, hstart, hidle, hsession, hdisable, -, hrest, hexit, hrecords1, hrecords2,
      hbytes, -, hloc, hfrom,
    hlast⟩ := exists_session callText_renders ahead_grants
  obtain ⟨hsynced, written, hlines, -, hall⟩ :=
    disable_delivers (le_refl _) (by decide) (by decide) hstart hidle hsession
    hdisable hrest hexit (by rw [hrecords2, hbytes]; decide)
  refine ⟨s0, s1, s2, e, hsession, hdisable, hrest, hexit, hrecords1, hsynced, written, hlines,
    hall e ?_ ?_ ?_⟩
  · simp [hrecords1]
  · rw [hfrom]
    exact Nat.zero_le _
  · rw [hloc, hlast]
    decide

/-- **Each once, in order.** In such a ring, with calls that round-trip and store in
order, if a thread enters `collect` only when the other is not in it, then in every state
of a session the lines that were written are those of the records from the bookmark on,
in order, each once; up to the new bookmark when no thread collects. -/
theorem collects_once {s0 : System} (h0 : 4096 ≤ S) (hS : 0 < S) (h1 : S < 2147483648)
    (hrun : Steps env (Renders env text) InOrder Free (new S hS h1) s0)
    (hidle : ∀ t, s0.pc t = none) (hsession : Session env (Renders env text) InOrder Free s0 s)
    (htotal : (flat (records s.producers)).length < S) :
    ∃ n m, n ≤ m ∧ At (records s.producers) s0.collect.collectorBookmark n ∧
      linesOf s.out = linesOf s0.out ++ lines (Entry.line env text) (((records s.producers).take m).drop n) ∧
      ((∀ t, s.pc t = none) → At (records s.producers) s.collect.collectorBookmark m) := by
  obtain ⟨hc0, ht0⟩ := hrun.tied free_guard h0 hS h1
  obtain ⟨-, hprefix⟩ := hsession.records_prefix hc0
  obtain ⟨_, _, _, ht0, -⟩ := ht0 ((flat_length_le hprefix).trans_lt htotal)
  obtain ⟨base, a0, ht0, hsole, hbase⟩ := ht0.restart free_guard hidle
  obtain ⟨-, ht⟩ := hsession.tied (J := fun _ _ => True) free_guard
    (fun _ _ _ _ _ => trivial) hc0 ht0 hsole trivial
  obtain ⟨a, ht, ⟨m, hm⟩, -⟩ := ht htotal
  refine ⟨base, m, hm.base_le, hbase.mono hprefix, ?_, fun hnone => ?_⟩
  · rw [ht.along.written, hm.written, ht.along.journal]
  · have halone : Cursor.Alone a := fun t => (ht.stands t).idle (.inl (hnone t))
    rw [hm.alone halone]
    exact ht.along.cursor

theorem collects_once_example : ∃ s0 s e,
    Session stringEnv (Renders stringEnv callText) InOrder Free s0 s ∧ s.worker = .exited ∧
      records s.producers = [e] ∧
    ∃ n m, n ≤ m ∧ At [e] 0 n ∧
      linesOf s.out = linesOf s0.out ++ lines (Entry.line stringEnv callText) (([e].take m).drop n) := by
  obtain ⟨s0, s1, s2, e, hstart, hidle, hsession, -, -, hrest, hexit, -, hrecords2, hbytes, -, -, hfrom, -⟩ :=
    exists_session callText_renders free_grants
  obtain ⟨n, m, hle, hat, hlines, -⟩ := collects_once (le_refl _) (by decide) (by decide) hstart hidle
    (hsession.trans hrest) (by rw [hrecords2, hbytes]; decide)
  rw [hrecords2] at hat hlines
  rw [hfrom] at hat
  exact ⟨s0, s2, e, hsession.trans hrest, hexit, hrecords2, n, m, hle, hat, hlines⟩

/-- **`setEnable(false)` returns.** Under the three conditions, while it waits for the
worker, the worker takes at most `4 * S + 19` steps, whatever steps the calls of
`traceVargs` and the threads that dump take in between; and it can always take the next
one, until it has come to its end, if no line is too long. -/
theorem disable_returns {n : ℕ} (h0 : 4096 ≤ S) (hS : 0 < S) (h1 : S < 2147483648)
    (hrun : Steps env (Renders env text) InOrder Ahead (new S hS h1) s)
    (hwait : Waiting env (Renders env text) InOrder Ahead n s s')
    (htotal : (flat (records s'.producers)).length < S)
    (hshort : ∀ e ∈ records s'.producers, (e.line env text).length ≤ 4096) :
    n ≤ 4 * S + 19 ∧ ∃ s'', s'.workerStep env = .ok s'' := by
  obtain ⟨hsteps, -⟩ := hwait.steps
  have hreach : Steps env (Renders env text) InOrder Ahead (new S hS h1) s' := hrun.trans hsteps
  obtain ⟨-, htied⟩ := hreach.tied ahead_guard h0 hS h1
  obtain ⟨_, _, _, ht, -⟩ := htied htotal
  have hrounds := hwait.rounds h0 hS h1 hrun htotal
  -- the steps to come when the waiting starts
  obtain ⟨hc, htied0⟩ := Steps.tied ahead_guard h0 hS h1 hrun
  obtain ⟨-, hprefix⟩ := Steps.records_prefix hsteps hc
  obtain ⟨_, _, _, ht0, -⟩ := htied0 ((flat_length_le hprefix).trans_lt htotal)
  have hle := ht0.rounds_le
  exact ⟨by omega, ht.workerStep_ok hshort⟩

theorem disable_returns_example :
    ∃ s s' e, Waiting stringEnv (Renders stringEnv callText) InOrder Ahead 1 s s' ∧
    records s'.producers = [e] ∧ 1 ≤ 4 * 4096 + 19 ∧ ∃ s'', s'.workerStep stringEnv = .ok s'' := by
  obtain ⟨s0, s1, s2, e, hstart, -, hsession, hdisable, hloop, -, -, hrecords, -, hbytes, hline, -⟩ :=
    exists_session callText_renders ahead_grants
  let s : System := { s1 with enable := false, main := .join }
  have hjoin : s1.mainStep stringEnv = .ok s := by
    unfold mainStep
    rw [hdisable]
  have hstep : Step stringEnv (Renders stringEnv callText) InOrder Ahead s1 s :=
    .main (fun p hp => by rw [hdisable] at hp; cases hp) hjoin
  have hworker : s.workerStep stringEnv = .ok { s with worker := .collect .read true } := by
    unfold workerStep
    rw [show s.worker = .loop from hloop]
    rfl
  have hwait : Waiting stringEnv (Renders stringEnv callText) InOrder Ahead 1 s
      { s with worker := .collect .read true } :=
    .worker (.refl rfl) (by rw [show s.worker = .loop from hloop]; nofun)
      (fun p final hp => by rw [show s.worker = .loop from hloop] at hp; cases hp) hworker
  have htext : ∀ x ∈ records s.producers, (x.line stringEnv callText).length ≤ 4096 := by
    intro x hx
    rw [show records s.producers = [e] from hrecords, List.mem_singleton] at hx
    rw [hx, hline]
    decide
  exact ⟨s, _, e, hwait, hrecords, disable_returns (le_refl _) (by decide) (by decide)
    ((hstart.trans hsession.steps).tail hstep) hwait
      (by rw [show records s.producers = [e] from hrecords, hbytes]; decide) htext⟩

end Delivers

end System
end Memlog
