/-
# What a dump puts in the file

`traceVargs` stores the arguments of a call, and `dump` prints them later, with what it
finds in the ring, to a stream. Here all of it is put together: calls whose formats are
of the grammar, with widths and precisions that are `int`s (`Formats`), and which store
their index in order, in any interleaving with each other, the collector, and the thread
in `dump`, which writes to a plain stream. What the file gets is what `printf` would have
printed for each call, behind its prefix, in the order in which the calls have allocated
(`dump_prints`).

Key definitions: `Formats`, `printed`, `Chunk.bytes`.
Key theorems: `Formats.renders`, `System.Dumping.dump_prints`.
-/
import Memlog.Plain
import Memlog.Dumper

namespace Memlog

/-! ### What is printed at once -/

/-- A call whose format is of the grammar, with arguments of its types. -/
structure Formats (env : Env) (pieces : UInt64 → List Piece) (call : Call) : Prop where
  format : (env.strings call.format).bytes = (pieces call.format).flatMap Piece.bytes
  short : ∀ s, .conv s ∈ pieces call.format → s.bytes.length ≤ 31
  args : Matches (pieces call.format) call.args

/-- What `printf` prints for a call. -/
def printed (env : Env) (pieces : UInt64 → List Piece) (call : Call) : List UInt8 :=
  immediate env.sprintf (pieces call.format) call.args

theorem Formats.renders {env : Env} {pieces : UInt64 → List Piece} {call : Call} (h : Formats env pieces call)
    (hprintf : Printf env.sprintf) : Renders env (printed env pieces) call :=
  roundTrips_pieces env hprintf _ _ h.format h.short _ h.args

theorem Formats.renders_callText {call : Call} (h : Formats stringEnv (fun _ => [.str]) call) :
    Renders stringEnv callText call := by
  have hrenders := h.renders printf_sprintfDecimal
  have htext : printed stringEnv (fun _ => [.str]) call = callText call := by
    have hargs : List.Forall₂ Kind.Accepts [.string] call.args := h.args
    unfold printed callText
    generalize call.args = args at hargs ⊢
    cases hargs with
    | @cons _ a _ _ _ hnil =>
      cases hnil
      cases a <;> exact List.append_nil _
  rw [Renders, ← htext]
  exact hrenders

/-! ### What is written to a stream -/

/-- The bytes of a chunk, which are one write. -/
def Chunk.bytes : Chunk → List UInt8
  | .line _ text => text
  | .notice text => text

theorem flatMap_lines (line : Entry → List UInt8) (es : List Entry) :
    (lines line es).flatMap Chunk.bytes = es.flatMap line :=
  List.flatMap_map ..

theorem Stream.writtenTo_writes {F : Type} [DecidableEq F] (file : F) (cs : List Chunk) :
    writtenTo (some file) (cs.map fun c => .write c.bytes) file = cs.flatMap Chunk.bytes := by
  induction cs with
  | nil => rfl
  | cons c cs ih => rw [List.map_cons, writtenTo, if_pos rfl, ih, List.flatMap_cons]

theorem Stream.exists_run {F : Type} [DecidableEq F] {s : Stream F} {file : F}
    (hfile : s.fileHandle = some file) (cs : List Chunk) :
    ∃ s', s.run (cs.map fun c => (.write c.bytes, ⟨c.bytes.length, false⟩)) = .ok s' ∧
      s'.stats.ioWriteError = s.stats.ioWriteError := by
  induction cs generalizing s with
  | nil => exact ⟨s, rfl, rfl⟩
  | cons c cs ih =>
    let s1 : Stream F :=
      { s with
        accepted := Function.update s.accepted file (s.accepted file ++ c.bytes.take c.bytes.length) }
    have hstep : s.step (.write c.bytes) ⟨c.bytes.length, false⟩ = .ok s1 := by
      rw [step, write, hfile]
      simp [s1, hfile]
    obtain ⟨s', hrun, herror⟩ := ih (s := s1) hfile
    exact ⟨s', by rw [List.map_cons, run, hstep, Loop.ok_bind, hrun], herror⟩

namespace System.Dumping

open Producers

variable {F : Type} [DecidableEq F] {env : Env} {P : System → CollectPc → Prop} {S n : ℕ} {d : Dumping}

/-- **A dump prints what `printf` would have printed.** In a ring of at least 4096 bytes
that calls which store their index in order do not fill, in every interleaving with them
and with the collector: the file gets the prefix and the printed text of the first calls,
in the order of their allocations, each once, and when the dump returns at most one
notice; by then all the calls that had published when it began are among them. -/
theorem dump_prints {pieces : UInt64 → List Piece} {d0 : Dumping} (hprintf : Printf env.sprintf)
    (h0 : 4096 ≤ S) (hS : 0 < S) (h1 : S < 2147483648)
    (hrun : Steps env (Formats env pieces) InOrder P (new S hS h1) d0.system)
    (hbegin : d0.pc = some .firstLine) (hempty : d0.dumped = [])
    (h : Underway env (Formats env pieces) InOrder P n d0 d)
    (htotal : (flat (records d.system.producers)).length < S) {s s' : Stream F} {file : F}
    {ops : List (StreamOp F × Io)} (hfile : s.fileHandle = some file)
    (hops : ops.map Prod.fst = d.dumped.map fun c => .write c.bytes) (hstream : s.run ops = .ok s')
    (hlen : ops.length < 4294967296) (hclean : s'.stats.ioWriteError = s.stats.ioWriteError) :
    ∃ m tail, s'.accepted file = s.accepted file ++ ((records d.system.producers).take m).flatMap (fun e =>
        Log.printPrefix env e.header ++ immediate env.sprintf (pieces e.call.format) e.call.args) ++
          tail.flatMap Chunk.bytes ∧
      (tail = [] ∨ (d.pc = none ∧ ∃ t, tail = [.notice t])) ∧
      (d.pc = none → ∀ e ∈ records d0.system.producers,
        e.location < d0.system.collect.log.bufLastWrittenIndex →
        e ∈ (records d.system.producers).take m) := by
  have hrenders : ∀ call, Formats env pieces call → Renders env (printed env pieces) call :=
    fun _ hcall => hcall.renders hprintf
  obtain ⟨m, tail, hout, htail, hall⟩ :=
    (h.mono hrenders).delivers h0 hS h1 (hrun.mono hrenders) hbegin htotal
  refine ⟨m, tail, ?_, htail, hall⟩
  rw [Stream.run_written hstream hlen hclean file, hfile, hops, Stream.writtenTo_writes, hout, hempty,
    List.nil_append, List.flatMap_append, flatMap_lines, List.append_assoc]
  rfl

/-- One call has logged four letters before the dump. -/
theorem dump_prints_example :
    ∃ (d : Dumping) (e : Entry) (s' : Stream Unit) (m : ℕ) (tail : List Chunk), d.pc = none ∧
    records d.system.producers = [e] ∧ e ∈ [e].take m ∧ (tail = [] ∨ ∃ t, tail = [.notice t]) ∧
    s'.accepted () = [] ++ ([e].take m).flatMap (fun e => Log.printPrefix stringEnv e.header ++
      immediate stringEnv.sprintf [.str] e.call.args) ++ tail.flatMap Chunk.bytes := by
  have hcall : Formats stringEnv (fun _ => [.str]) (stringCall (letters 4 (by decide))) :=
    ⟨rfl, by simp, .cons trivial .nil⟩
  obtain ⟨d0, e, hrun, hbegin, hempty, hrecords, hbytes, hlt, hline⟩ := exists_dumping hcall
  have hinv : Inv stringEnv 4096 callText d0.system.collect.log.bufLastWrittenIndex d0.dumped d0 := by
    obtain ⟨hc, hshared⟩ :=
      (hrun.mono fun _ => Formats.renders_callText).shared (by decide) (by decide) (by decide)
    exact Inv.begin (hshared (by rw [hrecords, hbytes]; decide)) hc hbegin
  obtain ⟨k, d, h, hnone, hproducers⟩ :=
    (show Underway stringEnv
      (Formats stringEnv fun _ => [.str]) InOrder Ahead 0 d0 d0 from .refl).exists_returned hinv
      (by simp [hrecords, hline])
  have htotal : (flat (records d.system.producers)).length < 4096 := by
    rw [hproducers, hrecords, hbytes]
    decide
  have hlength : d.dumped.length < 4294967296 := by
    obtain ⟨m, tail, hout, htail, -⟩ :=
      (h.mono fun _ => Formats.renders_callText).delivers (le_refl _) (by decide) (by decide)
        (hrun.mono fun _ => Formats.renders_callText) hbegin htotal
    have htail' : tail.length ≤ 1 := by
      rcases htail with rfl | ⟨-, t, rfl⟩ <;> simp
    have htake := List.length_take_le' m (records d.system.producers)
    rw [hproducers, hrecords, List.length_singleton] at htake
    rw [hout, hempty, lines, List.length_append, List.length_append, List.length_map, List.length_nil,
      hproducers, hrecords]
    omega
  let s : Stream Unit := ⟨some (), ⟨0, 0, 0⟩, fun _ => [], fun _ => 0⟩
  obtain ⟨s', hstream, hclean⟩ := Stream.exists_run (s := s) rfl d.dumped
  obtain ⟨m, tail, hout, htail, hall⟩ :=
    dump_prints printf_sprintfDecimal (le_refl _) (by decide) (by decide) hrun
    hbegin hempty h htotal (s := s) rfl (by simp) hstream (by rwa [List.length_map]) hclean
  rw [hproducers, hrecords] at hout hall
  exact ⟨d, e, s', m, tail, hnone,
    by rw [hproducers, hrecords], hall hnone e (by simp) hlt, htail.imp_right And.right, hout⟩

end System.Dumping
end Memlog
