/-
# Writes out of order

Producers reserve their bytes with `allocate` and copy them later with `set`, in
any order. `Writers` is the ring with all reservations so far, in the order they
were made, and whether each has been copied. As long as the index has not been
reduced, it is the true position, so a reservation and the bytes behind it end at
the index (`Inv.located`).

A copy is not lost as long as its reservation and all later ones fit the ring:
what is copied meanwhile is either behind it in this window, or in front of it
and itself in a window with it (`Inv.set`).

Key definitions: `Slot`, `Writers`, `Writers.Run`, `Writers.Inv`.
-/
import Memlog.Lib.Split
import Memlog.RingBuffer

namespace Memlog

open Circular

/-- A reservation: the location, the bytes to be copied there, and whether they have
been. -/
structure Slot where
  location : ℕ
  bytes : List UInt8
  written : Bool

/-- The ring, and the reservations in the order they were made. -/
structure Writers where
  ringBuffer : RingBuffer
  slots : List Slot

/-- The bytes of reservations together. -/
def reservedBytes (slots : List Slot) : ℕ := (slots.map (·.bytes.length)).sum

@[simp] theorem reservedBytes_nil : reservedBytes [] = 0 := rfl

@[simp] theorem reservedBytes_cons (slot : Slot) (slots : List Slot) :
    reservedBytes (slot :: slots) = slot.bytes.length + reservedBytes slots := rfl

@[simp] theorem reservedBytes_append (slots slots' : List Slot) :
    reservedBytes (slots ++ slots') = reservedBytes slots + reservedBytes slots' := by
  simp [reservedBytes]

namespace Writers

/-- Runs of producers, in any interleaving: a record of at most 4096 bytes that fits
the ring is reserved, while the index does not pass the roll-over limit; or a record
is copied, while the bytes reserved from its start on fit the ring. -/
inductive Run (rb : RingBuffer) : Writers → Prop
  | start : Run rb ⟨rb, []⟩
  | allocate {w bytes location rb'} : Run rb w → bytes.length ≤ min 4096 w.ringBuffer.size →
      w.ringBuffer.allocate bytes.length = (location, rb') → rb'.currentIndex ≤ UINT32_MAX - 10240 →
      Run rb ⟨rb', w.slots ++ [⟨location, bytes, false⟩]⟩
  | set {w pre slot post rb'} : Run rb w → w.slots = pre ++ slot :: post → slot.written = false →
      reservedBytes (slot :: post) ≤ w.ringBuffer.size →
      w.ringBuffer.set slot.location slot.bytes = .ok rb' →
      Run rb ⟨rb', pre ++ { slot with written := true } :: post⟩

/-- What holds in every run. -/
structure Inv (S : ℕ) (w : Writers) : Prop where
  size : w.ringBuffer.size = S
  index_le : w.ringBuffer.currentIndex ≤ UINT32_MAX - 10240
  /-- A reservation and all later ones end at the index. -/
  located : ∀ pre slot post, w.slots = pre ++ slot :: post →
    slot.location + reservedBytes (slot :: post) = w.ringBuffer.currentIndex
  fits : ∀ slot ∈ w.slots, slot.bytes.length ≤ S
  /-- What has been copied is there, while the later reservations fit the ring with it. -/
  held : ∀ pre slot post, w.slots = pre ++ slot :: post → slot.written = true →
    reservedBytes (slot :: post) ≤ S →
    read S w.ringBuffer.buffer slot.location slot.bytes.length = slot.bytes

variable {S : ℕ} {rb : RingBuffer} {w : Writers}

theorem Inv.start (hindex : rb.currentIndex ≤ UINT32_MAX - 10240) : Inv rb.size ⟨rb, []⟩ where
  size := rfl
  index_le := hindex
  located pre slot post h := by cases pre <;> cases h
  fits slot h := absurd h List.not_mem_nil
  held pre slot post h := by cases pre <;> cases h

theorem Inv.allocate {bytes : List UInt8} {location : ℕ} {rb' : RingBuffer} (h : Inv S w)
    (hlen : bytes.length ≤ min 4096 w.ringBuffer.size)
    (halloc : w.ringBuffer.allocate bytes.length = (location, rb'))
    (hindex : rb'.currentIndex ≤ UINT32_MAX - 10240) :
    Inv S ⟨rb', w.slots ++ [⟨location, bytes, false⟩]⟩ := by
  have hsize := h.size
  have hle := h.index_le
  -- the index is not reduced
  have hroll : w.ringBuffer.rollOver = w.ringBuffer := by
    refine if_neg ?_
    rw [RingBuffer.isIndexRollingOver_iff]
    rw [UINT32_MAX] at hle
    omega
  obtain ⟨rfl, rfl⟩ := Prod.mk.inj halloc
  rw [hroll] at hindex ⊢
  have hcurrent : (w.ringBuffer.advance bytes.length).currentIndex =
      w.ringBuffer.currentIndex + bytes.length :=
    w.ringBuffer.advance_current (by rw [UINT32_MAX] at hle; omega)
  refine ⟨hsize, hindex, ?_, ?_, ?_⟩
  · intro pre slot post heq
    rw [hcurrent]
    rcases Split.concat_cases heq with ⟨-, rfl, rfl⟩ | ⟨post, rfl, hslots⟩
    · rfl
    · have hslot := h.located pre slot post hslots
      simp only [reservedBytes_cons, reservedBytes_append, reservedBytes_nil] at hslot ⊢
      omega
  · intro slot hslot
    rcases List.mem_append.mp hslot with hslot | hslot
    · exact h.fits slot hslot
    · rw [List.mem_singleton.mp hslot]
      exact hsize ▸ (hlen.trans (Nat.min_le_right _ _))
  · intro pre slot post heq hwritten hfit
    rcases Split.concat_cases heq with ⟨-, rfl, rfl⟩ | ⟨post, rfl, hslots⟩
    · cases hwritten
    · refine h.held pre slot post hslots hwritten ?_
      simp only [reservedBytes_cons, reservedBytes_append] at hfit ⊢
      omega

theorem Inv.location_le (h : Inv S w) {pre post : List Slot} {slot : Slot}
    (hslots : w.slots = pre ++ slot :: post) :
    slot.location + slot.bytes.length ≤ UINT32_MAX - 10240 := by
  have hloc := h.located pre slot post hslots
  have hle := h.index_le
  rw [reservedBytes_cons] at hloc
  omega

theorem Inv.set_eq (h : Inv S w) {pre post : List Slot} {slot : Slot}
    (hslots : w.slots = pre ++ slot :: post) :
    w.ringBuffer.set slot.location slot.bytes = .ok { w.ringBuffer with
      buffer := write w.ringBuffer.size w.ringBuffer.buffer slot.location slot.bytes } := by
  have hle := h.location_le hslots
  have hmod := Nat.mod_le slot.location w.ringBuffer.size
  exact w.ringBuffer.set_eq (h.size ▸ h.fits slot (by rw [hslots]; simp)) (by rw [UINT32_MAX] at hle; omega)

theorem Inv.set {pre post : List Slot} {slot : Slot} {rb' : RingBuffer} (h : Inv S w)
    (hslots : w.slots = pre ++ slot :: post) (hwindow : reservedBytes (slot :: post) ≤ w.ringBuffer.size)
    (hset : w.ringBuffer.set slot.location slot.bytes = .ok rb') :
    Inv S ⟨rb', pre ++ { slot with written := true } :: post⟩ := by
  obtain rfl := h.size
  rw [h.set_eq hslots] at hset
  obtain rfl := Except.ok.inj hset
  rw [reservedBytes_cons] at hwindow
  have hloc := h.located pre slot post hslots
  rw [reservedBytes_cons] at hloc
  have hfits := h.fits slot (by rw [hslots]; simp)
  -- the bytes behind a place do not change, nor do locations
  refine ⟨rfl, h.index_le, ?_, ?_, ?_⟩
  · intro pre' slot' post' heq
    rcases Split.cons_cases heq with ⟨rfl, rfl, rfl⟩ | ⟨mid, rfl, rfl⟩ | ⟨mid, rfl, rfl⟩
    · exact h.located pre slot post hslots
    · have hloc' := h.located pre' slot' (mid ++ slot :: post) (by rw [hslots]; simp)
      simpa only [reservedBytes_cons, reservedBytes_append] using hloc'
    · exact h.located (pre ++ slot :: mid) slot' post' (by rw [hslots]; simp)
  · intro slot' hslot'
    rcases List.mem_append.mp hslot' with hpre | hrest
    · exact h.fits slot' (by rw [hslots]; exact List.mem_append_left _ hpre)
    · rcases List.mem_cons.mp hrest with rfl | hpost
      · exact hfits
      · exact h.fits slot' (by rw [hslots]; exact List.mem_append_right _ (List.mem_cons_of_mem _ hpost))
  · intro pre' slot' post' heq hwritten hfit
    rcases Split.cons_cases heq with ⟨rfl, rfl, rfl⟩ | ⟨mid, rfl, rfl⟩ | ⟨mid, rfl, rfl⟩
    · -- the copy itself
      exact read_write_same w.ringBuffer.size_pos _ _ hfits
    · -- a reservation in front of it, in the window of which it is
      have hloc' := h.located pre' slot' (mid ++ slot :: post) (by rw [hslots]; simp)
      simp only [reservedBytes_cons, reservedBytes_append] at hfit hloc'
      rw [read_write_disjoint _ (.inl ⟨by omega, by omega⟩)]
      refine h.held pre' slot' (mid ++ slot :: post) (by rw [hslots]; simp) hwritten ?_
      simp only [reservedBytes_cons, reservedBytes_append]
      exact hfit
    · -- a reservation behind it, in its own window
      have hslots' : w.slots = (pre ++ slot :: mid) ++ slot' :: post' := by rw [hslots]; simp
      have hloc' := h.located _ slot' post' hslots'
      simp only [reservedBytes_cons, reservedBytes_append] at hwindow hloc hloc'
      rw [read_write_disjoint _ (.inr ⟨by omega, by omega⟩)]
      exact h.held _ slot' post' hslots' hwritten hfit

theorem Run.inv (hrun : Run rb w) (hindex : rb.currentIndex ≤ UINT32_MAX - 10240) : Inv rb.size w := by
  induction hrun with
  | start => exact Inv.start hindex
  | allocate hrun hlen halloc hindex ih => exact ih.allocate hlen halloc hindex
  | set hrun hslots hfree hwindow hset ih => exact ih.set hslots hwindow hset

end Writers

/-- **Copies commute**: when all producers have copied their bytes, in whatever order,
each reservation that fits the ring with all later ones is read back. -/
theorem get_after_sets (rb : RingBuffer) (hindex : rb.currentIndex ≤ UINT32_MAX - 10240) (w : Writers)
    (hrun : Writers.Run rb w) (hall : ∀ slot ∈ w.slots, slot.written = true) :
    ∀ pre slot post, w.slots = pre ++ slot :: post → reservedBytes (slot :: post) ≤ rb.size →
      w.ringBuffer.get slot.location slot.bytes.length = .ok slot.bytes := by
  intro pre slot post hslots hfit
  have hinv := hrun.inv hindex
  have hle := hinv.location_le hslots
  have hmod := Nat.mod_le slot.location w.ringBuffer.size
  have hmem : slot ∈ w.slots := by
    rw [hslots]
    simp
  rw [w.ringBuffer.get_eq (hinv.size ▸ hinv.fits slot hmem) (by rw [UINT32_MAX] at hle; omega), hinv.size,
    hinv.held pre slot post hslots (hall slot hmem) hfit]

theorem get_after_sets_example : ∃ w, Writers.Run (.new 8 (by decide) (by decide)) w ∧
    w.slots = [⟨0, [1, 2, 3], true⟩, ⟨3, [4, 5, 6, 7], true⟩] ∧ w.ringBuffer.get 0 3 = .ok [1, 2, 3] := by
  -- both reserve, and the second one copies first
  have hreserved : Writers.Run (.new 8 (by decide) (by decide)) _ :=
    .allocate (.allocate .start (show [1, 2, 3].length ≤ _ by decide) rfl (by decide))
      (show [4, 5, 6, 7].length ≤ _ by decide) rfl (by decide)
  have hslots : _ = [⟨0, [1, 2, 3], false⟩] ++ (⟨3, [4, 5, 6, 7], false⟩ : Slot) :: [] := rfl
  have hsecond := hreserved.set hslots rfl (by decide) ((hreserved.inv (by decide)).set_eq hslots)
  have hslots' : _ = [] ++ (⟨0, [1, 2, 3], false⟩ : Slot) :: [⟨3, [4, 5, 6, 7], true⟩] := rfl
  have hboth := hsecond.set hslots' rfl (by decide) ((hsecond.inv (by decide)).set_eq hslots')
  exact ⟨_, hboth, rfl, get_after_sets _ (by decide) _ hboth (by simp) [] ⟨0, [1, 2, 3], true⟩
    [⟨3, [4, 5, 6, 7], true⟩] rfl (by decide)⟩

end Memlog
