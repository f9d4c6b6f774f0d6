/-
# The 32-bit counter

`src/src/lib/atomic.{h,cpp}`: `Atomic32::addAndGet` reads the value, and writes the sum
by a compare-and-swap, until that succeeds. Any number of threads may call it: they are
an instance of `Cas`.

Each call is returned what it and the calls before it, in the order of their swaps, add
to the initial value; no thread starts over more often than others get done
(`addAndGet_returns`). So as long as the value does not overflow no two calls are
returned the same (`addAndGet_distinct`).

Key definitions: `Atomic32`, `Atomic32.addAndGet`, `Atomic32.Steps`.
-/
import Mathlib.Algebra.Order.BigOperators.Group.List
import Mathlib.Algebra.Order.Group.Nat
import Mathlib.Data.UInt
import Memlog.Lib.Cas

namespace Memlog

structure Atomic32 where
  value_ : UInt32
deriving DecidableEq

namespace Atomic32

/-- The constructor. -/
def new (initial : UInt32) : Atomic32 := ⟨initial⟩

/-- `addAndGet` of a thread that is alone: nothing comes between its read and its swap. -/
def addAndGet (add : UInt32) (a : Atomic32) : UInt32 × Atomic32 :=
  let currentValue := a.value_
  let newValue := currentValue + add
  (newValue, ⟨newValue⟩)

/-- `currentValue + add`. -/
def newValue (add currentValue : UInt32) : UInt32 := currentValue + add

/-- Threads that call `addAndGet`. -/
abbrev Adders (T : Type) : Type := Cas.State UInt32 UInt32 T

/-- Runs of threads that call `addAndGet`. -/
abbrev Steps {T : Type} [DecidableEq T] : Adders T → Adders T → Prop := Cas.Steps newValue

variable {T : Type} [DecidableEq T] {s : Adders T}

/-- **A call without interference** is `addAndGet`. -/
theorem solo_addAndGet (s : Adders T) (t : T) (add : UInt32) (h : s.pc t = .idle) :
    ∃ s', Steps s s' ∧ s'.pc t = .idle ∧ s'.value = (addAndGet add ⟨s.value⟩).2.value_ ∧
      s'.calls = s.calls ++ [⟨t, add, (addAndGet add ⟨s.value⟩).1⟩] := by
  have hcall : Cas.Step newValue s (s.goto t (.read add)) := .call add h
  have hread : Cas.Step newValue (s.goto t (.read add)) ((s.goto t (.read add)).goto t (.swap add s.value)) :=
    .read (Cas.goto_pc _)
  have hswap : Cas.Step newValue _ _ :=
    .swap (Cas.goto_pc (s := s.goto t (.read add)) (t := t) (.swap add s.value))
  rw [Cas.swap_of_eq (by rfl)] at hswap
  exact ⟨_, ((Relation.ReflTransGen.single hcall).tail hread).tail hswap,
    Cas.goto_pc (s := (s.goto t (.read add)).goto t (.swap add s.value)) .idle, rfl, rfl⟩

theorem foldl_newValue (initial : UInt32) : ∀ adds : List UInt32,
    adds.foldl (fun v add => newValue add v) initial = initial + adds.sum
  | [] => by rw [List.foldl_nil, List.sum_nil, UInt32.add_zero]
  | add :: adds => by
    rw [List.foldl_cons, foldl_newValue (newValue add initial) adds, List.sum_cons, newValue,
      UInt32.add_assoc]

/-- Two threads read the same value, and one of them starts over. -/
theorem exists_contended : ∃ s : Adders Bool, Steps (Cas.start 10) s ∧ s.calls.map Cas.Done.op = [1, 2] ∧
    s.calls.map Cas.Done.result = [11, 13] ∧ s.failed false = 1 ∧ (∀ c ∈ s.calls, 0 < c.op) ∧
    (s.calls.map fun c => c.op.toNat).sum < 4294967296 := by
  let s1 : Adders Bool := ((Cas.start 10).goto true (.read 1)).goto false (.read 2)
  let s2 : Adders Bool := (s1.goto true (.swap 1 10)).goto false (.swap 2 10)
  let s3 := ((s2.swap newValue true 1 10).swap newValue false 2 10).goto false (.swap 2 11)
  have hcalls : Steps (Cas.start 10) s1 := (Relation.ReflTransGen.single (.call 1 rfl)).tail (.call 2 rfl)
  have hreads : Steps s1 s2 := (Relation.ReflTransGen.single (.read rfl)).tail (.read rfl)
  have hswaps : Steps s2 s3 := ((Relation.ReflTransGen.single (.swap rfl)).tail (.swap rfl)).tail (.read rfl)
  have hrun : Steps (Cas.start 10) (s3.swap newValue false 2 11) :=
    ((hcalls.trans hreads).trans hswaps).tail (.swap rfl)
  exact ⟨_, hrun, rfl, rfl, rfl, by decide, by decide⟩

/-- **What calls return.** In every run the value is the initial one and all addends;
each call has been returned the initial value with its own addend and those of the
calls before it; and no thread has started over more often than others got done. -/
theorem addAndGet_returns (initial : UInt32) (h : Steps (Cas.start initial) s) :
    s.value = initial + (s.calls.map Cas.Done.op).sum ∧
    (∀ k c, s.calls[k]? = some c → c.result = initial + ((s.calls.take (k + 1)).map Cas.Done.op).sum) ∧
    ∀ t, s.failed t ≤ Cas.others s t := by
  obtain ⟨hvalue, hresult, hfailed⟩ := Cas.Steps.returned h
  refine ⟨?_, fun k c hk => ?_, hfailed⟩
  · rw [hvalue, foldl_newValue]
  · rw [hresult k c hk, foldl_newValue]

theorem addAndGet_returns_example : ∃ s : Adders Bool,
    Steps (Cas.start 10) s ∧ s.calls.map Cas.Done.op = [1, 2] ∧
    s.failed false = 1 ∧ s.value = 10 + (s.calls.map Cas.Done.op).sum ∧
    (∀ k c, s.calls[k]? = some c → c.result = 10 + ((s.calls.take (k + 1)).map Cas.Done.op).sum) ∧
    ∀ t, s.failed t ≤ Cas.others s t := by
  obtain ⟨s, hrun, hops, -, hfailed, -⟩ := exists_contended
  exact ⟨s, hrun, hops, hfailed, addAndGet_returns 10 hrun⟩

theorem sum_toNat (adds : List UInt32) (h : (adds.map UInt32.toNat).sum < 4294967296) :
    adds.sum.toNat = (adds.map UInt32.toNat).sum := by
  induction adds with
  | nil => rfl
  | cons add adds ih =>
    rw [List.map_cons, List.sum_cons] at h
    rw [List.sum_cons, UInt32.toNat_add, ih (by omega), List.map_cons, List.sum_cons]
    exact Nat.mod_eq_of_lt h

/-- **No two calls are returned the same** while the addends are positive and stay
below 2^32 together. -/
theorem addAndGet_distinct (initial : UInt32) (h : Steps (Cas.start initial) s)
    (hpos : ∀ c ∈ s.calls, 0 < c.op) (hsum : (s.calls.map fun c => c.op.toNat).sum < 4294967296) :
    (s.calls.map Cas.Done.result).Nodup := by
  obtain ⟨-, hresult, -⟩ := addAndGet_returns initial h
  -- the addends up to a call, as numbers
  have hbound : ∀ k, ((s.calls.take k).map fun c => c.op.toNat).sum < 4294967296 := by
    intro k
    have hsplit := congrArg (fun cs => (cs.map fun c : Cas.Done UInt32 UInt32 T => c.op.toNat).sum)
      (List.take_append_drop k s.calls)
    simp only [List.map_append, List.sum_append] at hsplit
    omega
  have hnat : ∀ k, ((s.calls.take k).map Cas.Done.op).sum.toNat =
      ((s.calls.take k).map fun c => c.op.toNat).sum := by
    intro k
    have hcomp : ((s.calls.take k).map Cas.Done.op).map UInt32.toNat =
        (s.calls.take k).map fun c => c.op.toNat := by
      rw [List.map_map]
      rfl
    rw [sum_toNat _ (hcomp ▸ hbound k), hcomp]
  rw [List.nodup_iff_getElem?_ne_getElem?]
  intro i j hij hj
  rw [List.length_map] at hj
  have hi := hij.trans hj
  rw [List.getElem?_map, List.getElem?_map, List.getElem?_eq_getElem hi, List.getElem?_eq_getElem hj]
  intro heq
  have hsame := Option.some.inj heq
  rw [hresult i _ (List.getElem?_eq_getElem hi), hresult j _ (List.getElem?_eq_getElem hj),
    UInt32.add_right_inj] at hsame
  have hcount := congrArg UInt32.toNat hsame
  rw [hnat, hnat] at hcount
  -- the later call comes after one more addend at least
  have htake : s.calls.take (j + 1) = s.calls.take (i + 1) ++ ((s.calls.drop (i + 1)).take (j - i)) := by
    rw [← List.take_add]
    congr 1
    omega
  rw [htake, List.map_append, List.sum_append] at hcount
  have hlast : s.calls[j] ∈ (s.calls.drop (i + 1)).take (j - i) := by
    rw [List.mem_iff_getElem]
    exact ⟨j - i - 1, by simp; omega, by simp; congr 1; omega⟩
  have hone := List.single_le_sum (fun _ _ => Nat.zero_le _) _
    (List.mem_map_of_mem (f := fun c => c.op.toNat) hlast)
  have hop := UInt32.lt_iff_toNat_lt.mp (hpos _ (List.getElem_mem hj))
  rw [UInt32.toNat_zero] at hop
  omega

theorem addAndGet_distinct_example : ∃ s : Adders Bool, Steps (Cas.start 10) s ∧
    s.calls.map Cas.Done.result = [11, 13] ∧ s.failed false = 1 ∧ (s.calls.map Cas.Done.result).Nodup := by
  obtain ⟨s, hrun, -, hresults, hfailed, hpos, hsum⟩ := exists_contended
  exact ⟨s, hrun, hresults, hfailed, addAndGet_distinct 10 hrun hpos hsum⟩

end Atomic32
end Memlog
