/-
# The ids

`allocateId` hands out a 32-bit counter that skips the two markers. From 0 the
counter goes through all other values in order before it is back (`enumerates`),
so in a run no id is a marker and none comes again early
(`allocateIds_fresh`); the records of a run of calls carry these ids
(`traceAll_ids`).

`cmpHeader` compares two ids with a look at the wrap. `Compares` says what is
expected of it: with `Later a b`, `b` is logged after `a`, as an id is after those
shortly before it in its run (`later_of_run`). For ids on the two sides of the wrap
the answer is wrong; `Comparable` says for which pairs it is right (`cmpHeader_iff`).
-/
import Mathlib.Data.List.Iterate
import Memlog.Journal
import Memlog.Lib.Orbit

namespace Memlog

open Orbit

/-! ### Handing out ids -/

/-- The counter after `globalId`, as `allocateId` leaves it. -/
def nextId (globalId : UInt32) : UInt32 :=
  if globalId + 1 = START_PATTERN ∨ globalId + 1 = END_PATTERN then globalId + 1 + 1 else globalId + 1

/-- The `k`-th number that is no marker. -/
def idAt (k : ℕ) : UInt32 :=
  if k < START_PATTERN.toNat then .ofNat k
  else if k + 1 < END_PATTERN.toNat then .ofNat (k + 1)
  else .ofNat (k + 2)

/-- How many numbers of 32 bits are no marker. -/
def idCount : ℕ := 4294967294

theorem markers_toNat : START_PATTERN.toNat = 3203267278 ∧ END_PATTERN.toNat = 4208901871 := by decide

theorem succ_eq_marker_iff (globalId : UInt32) :
    (globalId + 1 = START_PATTERN ↔ globalId.toNat = 3203267277) ∧
      (globalId + 1 = END_PATTERN ↔ globalId.toNat = 4208901870) := by
  have hlt := globalId.toNat_lt
  constructor <;>
  · rw [← UInt32.toNat_inj, UInt32.toNat_add]
    simp only [markers_toNat, UInt32.toNat_one]
    omega

theorem nextId_toNat (globalId : UInt32) : (nextId globalId).toNat =
    if globalId.toNat = 3203267277 ∨ globalId.toNat = 4208901870 then globalId.toNat + 2
    else (globalId.toNat + 1) % 4294967296 := by
  unfold nextId
  simp only [succ_eq_marker_iff globalId]
  split_ifs with h
  · rw [UInt32.toNat_add, UInt32.toNat_add, UInt32.toNat_one]
    omega
  · rw [UInt32.toNat_add, UInt32.toNat_one]

theorem idAt_toNat {k : ℕ} (hk : k < idCount) : (idAt k).toNat =
    if k < 3203267278 then k else if k + 1 < 4208901871 then k + 1 else k + 2 := by
  unfold idCount at hk
  unfold idAt
  rw [markers_toNat.1, markers_toNat.2]
  split_ifs <;> rw [UInt32.toNat_ofNat'] <;> omega

theorem idAt_ne_marker {k : ℕ} (hk : k < idCount) : idAt k ≠ START_PATTERN ∧ idAt k ≠ END_PATTERN := by
  simp only [ne_eq, ← UInt32.toNat_inj, idAt_toNat hk, markers_toNat]
  split_ifs <;> omega

/-- From 0 the counter goes through all numbers that are no marker. -/
theorem enumerates : Enumerates nextId idCount idAt where
  pos := by decide
  step k hk := by
    have hmod : (k + 1) % idCount < idCount := Nat.mod_lt _ (by decide)
    rw [← UInt32.toNat_inj, nextId_toNat, idAt_toNat hk, idAt_toNat hmod]
    unfold idCount at hk ⊢
    split_ifs <;> omega
  injective i hi j hj h := by
    rw [← UInt32.toNat_inj, idAt_toNat hi, idAt_toNat hj] at h
    split_ifs at h <;> omega

/-! ### Runs -/

namespace Log

theorem allocateId_eq (log : Log) :
    log.allocateId = (log.globalId, { log with globalId := nextId log.globalId }) := rfl

/-- `n` calls of `allocateId`, one after the other: the ids, and the log they leave. -/
def allocateIds : ℕ → Log → List UInt32 × Log
  | 0, log => ([], log)
  | n + 1, log =>
    let (id, log) := log.allocateId
    let (ids, log) := allocateIds n log
    (id :: ids, log)

theorem allocateIds_ids (n : ℕ) (log : Log) : (allocateIds n log).1 = List.iterate nextId log.globalId n := by
  induction n generalizing log with
  | zero => rfl
  | succ n ih => simp only [allocateIds, allocateId_eq, List.iterate, ih]

theorem getElem?_allocateIds {n k : ℕ} {log : Log} {id : UInt32} (h0 : log.globalId = 0)
    (h : (allocateIds n log).1[k]? = some id) : id = idAt (k % idCount) := by
  have hzero : idAt 0 = 0 := by decide
  rw [allocateIds_ids, h0, ← hzero] at h
  obtain ⟨hk, h⟩ := List.getElem?_eq_some_iff.mp h
  rw [List.getElem_iterate, enumerates.iterate_eq] at h
  exact h.symm

/-- **Ids are no markers and do not repeat early.** -/
theorem allocateIds_fresh (n : ℕ) (log : Log) (h0 : log.globalId = 0) :
    (∀ id ∈ (allocateIds n log).1, id ≠ START_PATTERN ∧ id ≠ END_PATTERN) ∧
      ∀ i j a b, (allocateIds n log).1[i]? = some a → (allocateIds n log).1[j]? = some b →
        i < j → j - i < 4294967294 → a ≠ b := by
  constructor
  · intro id hid
    obtain ⟨k, hk⟩ := List.mem_iff_getElem?.mp hid
    rw [getElem?_allocateIds h0 hk]
    exact idAt_ne_marker (Nat.mod_lt _ (by decide))
  · intro i j a b ha hb hij hj
    rw [getElem?_allocateIds h0 ha, getElem?_allocateIds h0 hb]
    exact enumerates.ne hij (by unfold idCount; omega)

/-- The first three ids of a log. -/
theorem allocateIds_fresh_example :
    let ids := (allocateIds 3 (.new 4096 (by decide) (by decide))).1
    (∀ id ∈ ids, id ≠ START_PATTERN ∧ id ≠ END_PATTERN) ∧
      ∀ (i j : ℕ) (a b : UInt32), ids[i]? = some a → ids[j]? = some b → i < j → j - i < 4294967294 → a ≠ b :=
  allocateIds_fresh 3 (.new 4096 (by decide) (by decide)) rfl

theorem traceVargs_id {env : Env} {log log' : Log} {call : Call} {e : Entry}
    (h : log.traceVargs env call = .ok (log', e)) :
    e.header.id = log.globalId ∧ log'.globalId = nextId log.globalId := by
  obtain ⟨args, -, h⟩ := Loop.bind_eq_ok.mp h
  obtain ⟨rb, -, h⟩ := Loop.bind_eq_ok.mp h
  obtain ⟨rfl, rfl⟩ := Prod.mk.inj (Except.ok.inj h)
  exact ⟨rfl, rfl⟩

theorem traceAll_ids {env : Env} : ∀ {calls : List Call} {log log' : Log} {es : List Entry},
    traceAll env log calls = .ok (log', es) →
      es.map (fun e => e.header.id) = List.iterate nextId log.globalId calls.length
  | [], log, log', es, h => by
    obtain ⟨rfl, rfl⟩ := Prod.mk.inj (Except.ok.inj h)
    rfl
  | call :: calls, log, log', es, h => by
    obtain ⟨⟨log1, e⟩, hok, h⟩ := Loop.bind_eq_ok.mp h
    obtain ⟨⟨log2, rs⟩, hrest, h⟩ := Loop.bind_eq_ok.mp h
    obtain ⟨rfl, rfl⟩ := Prod.mk.inj (Except.ok.inj h)
    obtain ⟨hid, hnext⟩ := traceVargs_id hok
    rw [List.map_cons, traceAll_ids hrest, hid, hnext]
    rfl

/-! ### Comparing ids -/

/-- `cmpHeader`; a `uint32_t` that is returned as an `int` keeps its bits. -/
def cmpHeader (entry1 entry2 : Header) : Int32 :=
  if entry1.id = entry2.id then 0
  else if entry1.id < entry2.id then
    if 0x7FFFFFFF < entry2.id - entry1.id then (0xffffffff - entry2.id + entry1.id).toInt32
    else (entry1.id - entry2.id).toInt32
  else
    if 0x7FFFFFFF < entry1.id - entry2.id then (0xffffffff - entry1.id + entry2.id).toInt32
    else (entry1.id - entry2.id).toInt32

/-- `b` is logged after `a`, less than half of the ids later, possibly across the wrap. -/
def Later (a b : UInt32) : Prop := 0 < b - a ∧ b - a < 2147483648

/-- What is expected of `cmpHeader`: 0 for one id, and the sign of the order for two
ids with one logged after the other. -/
def Compares (entry1 entry2 : Header) : Prop :=
  (cmpHeader entry1 entry2 = 0 ↔ entry1.id = entry2.id) ∧
    (Later entry1.id entry2.id → cmpHeader entry1 entry2 < 0 ∧ 0 < cmpHeader entry2 entry1)

/-- The first id is not the larger one by more than 2^31, and they are not 0 and the
largest number. -/
def Comparable (a b : UInt32) : Prop :=
  a.toNat ≤ b.toNat + 2147483648 ∧ ¬ (a = 0 ∧ b = 4294967295)

theorem toInt_toInt32 (x : UInt32) :
    x.toInt32.toInt = if x.toNat < 2147483648 then (x.toNat : ℤ) else x.toNat - 4294967296 := by
  have hx : x.toInt32.toInt = x.toBitVec.toInt := rfl
  have hlt := x.toNat_lt
  rw [hx, BitVec.toInt_eq_toNat_cond, UInt32.toNat_toBitVec]
  split_ifs <;> omega

/-- The answer, by where the ids lie. -/
theorem cmpHeader_toInt (entry1 entry2 : Header) : (cmpHeader entry1 entry2).toInt =
    if entry1.id.toNat + 2147483648 ≤ entry2.id.toNat then
      (4294967295 - (entry2.id.toNat - entry1.id.toNat) : ℤ)
    else if entry2.id.toNat + 2147483648 ≤ entry1.id.toNat then
      (4294967295 - (entry1.id.toNat - entry2.id.toNat) : ℤ)
    else (entry1.id.toNat - entry2.id.toNat : ℤ) := by
  have h1 := entry1.id.toNat_lt
  have h2 := entry2.id.toNat_lt
  have hmax : (0x7FFFFFFF : UInt32).toNat = 2147483647 := rfl
  have hlast : (0xffffffff : UInt32).toNat = 4294967295 := rfl
  unfold cmpHeader
  simp only [UInt32.lt_iff_toNat_lt, ← UInt32.toNat_inj]
  split_ifs <;>
    simp only [toInt_toInt32, Int32.toInt_zero, UInt32.toNat_sub, UInt32.toNat_add, hmax,
      hlast] at * <;> omega

theorem later_iff (a b : UInt32) : Later a b ↔
    (a.toNat < b.toNat ∧ b.toNat < a.toNat + 2147483648) ∨ b.toNat + 2147483648 < a.toNat := by
  have ha := a.toNat_lt
  have hb := b.toNat_lt
  have hhalf : (2147483648 : UInt32).toNat = 2147483648 := rfl
  unfold Later
  simp only [UInt32.lt_iff_toNat_lt, UInt32.toNat_sub, UInt32.toNat_zero, hhalf]
  omega

/-- **Comparing ids.** The answer is the expected one for exactly the comparable
ids. -/
theorem cmpHeader_iff (entry1 entry2 : Header) : Compares entry1 entry2 ↔ Comparable entry1.id entry2.id := by
  have h1 := entry1.id.toNat_lt
  have h2 := entry2.id.toNat_lt
  have hlast : (4294967295 : UInt32).toNat = 4294967295 := rfl
  unfold Compares Comparable
  rw [later_iff]
  simp only [Int32.lt_iff_toInt_lt, ← Int32.toInt_inj, ← UInt32.toNat_inj, cmpHeader_toInt, Int32.toInt_zero,
    UInt32.toNat_zero, hlast]
  split_ifs <;> omega

/-- The last id and the first one of the next turn, and two ids around the wrap: the
code takes the first two for one id and answers that the earlier of the others is the
later one. -/
theorem cmpHeader_across_wrap :
    let header (id : UInt32) : Header := { Header.ofBytes [] with id := id }
    ¬ Compares (header 4294967295) (header 0) ∧ ¬ Compares (header 4294967294) (header 2) := by
  unfold Compares Later
  decide

/-! ### Ids of one run -/

/-- In a run from 0, an id handed out less than 2^31 - 2 calls after another one is
logged after it. -/
theorem later_of_run {n i j : ℕ} {log : Log} {a b : UInt32} (h0 : log.globalId = 0)
    (ha : (allocateIds n log).1[i]? = some a) (hb : (allocateIds n log).1[j]? = some b)
    (hij : i < j) (hj : j < i + 2147483646) : Later a b := by
  have hi : i % idCount < idCount := Nat.mod_lt _ (by decide)
  have hjlt : j % idCount < idCount := Nat.mod_lt _ (by decide)
  rw [getElem?_allocateIds h0 ha, getElem?_allocateIds h0 hb, later_iff, idAt_toNat hi, idAt_toNat hjlt]
  unfold idCount at hi hjlt ⊢
  split_ifs <;> omega

end Log
end Memlog
