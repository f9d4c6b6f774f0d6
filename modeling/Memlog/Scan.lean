/-
# What the two scanners find in a format

Each loop of `StringFormat` reads the format by index. Here is what it finds, as
a function of the characters from the cursor on: `encodeScan` lists the kinds
the encoder stores and says whether it gets to the end, or to its `assert(0)`;
`decodeScan` lists the literals and conversions the decoder prints. The loops
compute them: `encodeToArgsBuffer_eq` and `decodeFromArgsBuffer_eq`. Both loops
thereby end, and neither reads past the terminating NUL.

Key definitions: `encodeScan`, `decodeScan`, `storeAll`, `printAll`.
-/
import Mathlib.Data.List.Basic
import Memlog.StringFormat

namespace Memlog

/-! ### Reading the format -/

theorem CString.at_eq (s : CString) {i : ℕ} (h : i ≤ s.bytes.length) :
    s.at i = .ok (s.bytes.getD i 0) := by
  unfold CString.at
  rcases Nat.lt_or_eq_of_le h with hlt | heq
  · simp [hlt]
  · simp [heq]

/-- The cursor is at the end, or on a character that is not NUL. -/
theorem CString.drop_cases (s : CString) {i : ℕ} (h : i ≤ s.bytes.length) :
    (i = s.bytes.length ∧ s.bytes.drop i = []) ∨
      ∃ c, i < s.bytes.length ∧ c ≠ 0 ∧ s.bytes.drop i = c :: s.bytes.drop (i + 1) := by
  rcases Nat.lt_or_eq_of_le h with hlt | heq
  · right
    refine ⟨s.bytes[i], hlt, fun hc => s.nul_free (hc ▸ List.getElem_mem hlt), ?_⟩
    exact List.drop_eq_getElem_cons hlt
  · left
    exact ⟨heq, List.drop_eq_nil_of_le (by omega)⟩

theorem getD_of_drop {l t : List UInt8} {i : ℕ} {c : UInt8} (h : l.drop i = c :: t) : l.getD i 0 = c := by
  have hget := congrArg (·.getD 0 0) h
  simpa [List.getD_eq_getElem?_getD] using hget

theorem CString.at_add (s : CString) {i j : ℕ} (h : i + j ≤ s.bytes.length) :
    s.at (i + j) = .ok ((s.bytes.drop i).getD j 0) := by
  rw [s.at_eq h, List.getD_eq_getElem?_getD, List.getD_eq_getElem?_getD, List.getElem?_drop]

/-! ### The encoder -/

/-- What the encoder stores for an `h` with `c1`, `c2` behind it. -/
def convH (c1 c2 : UInt8) : Option Kind :=
  if c1 ∈ [chr 'o', chr 'x', chr 'X', chr 'u'] then some .word
  else if c1 ∈ [chr 'd', chr 'i'] then some .word
  else if c1 = chr 'h' ∧ c2 ∈ [chr 'x', chr 'X', chr 'u', chr 'o'] then some .word
  else none

/-- What the encoder stores for an `l` with `c1`, `c2` behind it. -/
def convL (c1 c2 : UInt8) : Option Kind :=
  if c1 = chr 'l' then
    if c2 ∈ [chr 'x', chr 'X', chr 'd', chr 'i', chr 'u'] then some .long64 else none
  else if c1 ∈ [chr 'x', chr 'X', chr 'd', chr 'i', chr 'u'] then some .int
  else if c1 = chr 'f' then some .double
  else none

/-- What the encoder's `switch` finds on `c` with `s` behind it: `none` is its
`assert(0)`, `some none` a conversion that stores nothing. -/
def encodeConv (c : UInt8) (s : List UInt8) : Option (Option Kind) :=
  if c = chr 'h' then some (convH (s.getD 0 0) (s.getD 1 0))
  else if c = chr 'c' then some (some .byte)
  else if c ∈ [chr 'd', chr 'u', chr 'i', chr 'x', chr 'X'] then some (some .int)
  else if c = chr 'f' then some (some .double)
  else if c = chr 'p' then some (some .ptr)
  else if c = chr 's' then some (some .string)
  else if c = chr 'l' then some (convL (s.getD 0 0) (s.getD 1 0))
  else none

/-- The kinds the encoder stores, reading on from inside a conversion or not, and
whether it reads to the end. -/
def encodeScan : Bool → List UInt8 → List Kind × Bool
  | _, [] => ([], true)
  | inside, c :: s =>
    if c = chr '%' then encodeScan (!inside) s
    else if inside then
      if staysInside c then encodeScan true s
      else match encodeConv c s with
        | none => ([], false)
        | some none => encodeScan false s
        | some (some k) => (k :: (encodeScan false s).1, (encodeScan false s).2)
    else encodeScan false s

theorem encodeScan_false_cons {c : UInt8} (h : c ≠ chr '%') (s : List UInt8) :
    encodeScan false (c :: s) = encodeScan false s := by
  simp [encodeScan, h]

/-- The bytes the kinds store for the arguments, in order. -/
def storeAll : List Kind → List Arg → Except Fault (List UInt8)
  | [], _ => .ok []
  | _ :: _, [] => .error .argument
  | k :: ks, a :: args => do return (← k.store a) ++ (← storeAll ks args)

/-- The character one ahead, and the one behind it: the second is read only when
the first is not NUL, so it is there to be read. -/
theorem CString.lookahead (s : CString) {i : ℕ} (h : i < s.bytes.length) :
    s.at (i + 1) = .ok ((s.bytes.drop (i + 1)).getD 0 0) ∧
      ((s.bytes.drop (i + 1)).getD 0 0 ≠ 0 →
        i + 2 ≤ s.bytes.length ∧ s.at (i + 2) = .ok ((s.bytes.drop (i + 1)).getD 1 0) ∧
        s.bytes.drop (i + 1) = (s.bytes.drop (i + 1)).getD 0 0 :: s.bytes.drop (i + 2)) := by
  refine ⟨s.at_add (i := i + 1) (j := 0) (by omega), fun hne => ?_⟩
  rcases s.drop_cases (show i + 1 ≤ s.bytes.length by omega) with ⟨-, hd⟩ | ⟨c, hlt, -, hd⟩
  · simp [hd] at hne
  · exact ⟨by omega, s.at_add (i := i + 1) (j := 1) (by omega), by rw [hd]; rfl⟩

/-- Wherever the encoder's `switch` leaves the cursor, the scan goes on as from
the next character. -/
def Resumes (format : CString) (i j : ℕ) : Prop :=
  i ≤ j ∧ j ≤ format.bytes.length ∧
    encodeScan false (format.bytes.drop j) = encodeScan false (format.bytes.drop (i + 1))

theorem Resumes.next {format : CString} {i : ℕ} (hi : i < format.bytes.length) :
    Resumes format i (i + 1) := ⟨by omega, by omega, rfl⟩

theorem encodeH_eq (format : CString) {i : ℕ} (hi : i < format.bytes.length)
    (hc : format.bytes.drop i = chr 'h' :: format.bytes.drop (i + 1)) :
    ∃ j, encodeH format i = .ok (convH ((format.bytes.drop (i + 1)).getD 0 0)
      ((format.bytes.drop (i + 1)).getD 1 0), j) ∧ Resumes format i j := by
  obtain ⟨h1, h2⟩ := format.lookahead hi
  have hnext := Resumes.next hi
  unfold encodeH convH
  rw [h1, Loop.ok_bind]
  by_cases ha : (format.bytes.drop (i + 1)).getD 0 0 ∈ [chr 'o', chr 'x', chr 'X', chr 'u']
  · exact ⟨i + 1, by simp only [if_pos ha, Loop.pure_eq_ok], hnext⟩
  rw [if_neg ha, if_neg ha]
  by_cases hb : (format.bytes.drop (i + 1)).getD 0 0 ∈ [chr 'd', chr 'i']
  · exact ⟨i + 1, by simp only [if_pos hb, Loop.pure_eq_ok], hnext⟩
  rw [if_neg hb, if_neg hb]
  by_cases hh : (format.bytes.drop (i + 1)).getD 0 0 = chr 'h'
  · obtain ⟨-, hat, -⟩ := h2 (by rw [hh]; decide)
    rw [if_pos hh, hat, Loop.ok_bind]
    by_cases hd : (format.bytes.drop (i + 1)).getD 1 0 ∈ [chr 'x', chr 'X', chr 'u', chr 'o']
    · refine ⟨i, by simp only [if_pos hd, if_pos (And.intro hh hd), Loop.pure_eq_ok], by omega, by omega, ?_⟩
      rw [hc, encodeScan_false_cons (by decide)]
    · exact ⟨i + 1, by simp only [hd, and_false, if_false, Loop.pure_eq_ok], hnext⟩
  · exact ⟨i + 1, by simp only [hh, false_and, if_false, Loop.pure_eq_ok], hnext⟩

theorem encodeL_eq (format : CString) {i : ℕ} (hi : i < format.bytes.length) :
    ∃ j, encodeL format i = .ok (convL ((format.bytes.drop (i + 1)).getD 0 0)
      ((format.bytes.drop (i + 1)).getD 1 0), j) ∧ Resumes format i j := by
  obtain ⟨h1, h2⟩ := format.lookahead hi
  have hnext := Resumes.next hi
  unfold encodeL convL
  rw [h1, Loop.ok_bind]
  by_cases hl : (format.bytes.drop (i + 1)).getD 0 0 = chr 'l'
  · obtain ⟨hle, hat, hdrop⟩ := h2 (by rw [hl]; decide)
    rw [if_pos hl, if_pos hl, hat, Loop.ok_bind]
    by_cases hd : (format.bytes.drop (i + 1)).getD 1 0 ∈ [chr 'x', chr 'X', chr 'd', chr 'i', chr 'u']
    · refine ⟨i + 2, by simp only [if_pos hd, Loop.pure_eq_ok], by omega, hle, ?_⟩
      rw [hdrop, hl, encodeScan_false_cons (by decide)]
    · exact ⟨i + 1, by simp only [if_neg hd, Loop.pure_eq_ok], hnext⟩
  rw [if_neg hl, if_neg hl]
  by_cases ha : (format.bytes.drop (i + 1)).getD 0 0 ∈ [chr 'x', chr 'X', chr 'd', chr 'i', chr 'u']
  · exact ⟨i + 1, by simp only [if_pos ha, Loop.pure_eq_ok], hnext⟩
  rw [if_neg ha, if_neg ha]
  by_cases hf : (format.bytes.drop (i + 1)).getD 0 0 = chr 'f'
  · exact ⟨i + 1, by simp only [if_pos hf, Loop.pure_eq_ok], hnext⟩
  · exact ⟨i + 1, by simp only [if_neg hf, Loop.pure_eq_ok], hnext⟩

/-- The `switch` of the encoder, from what it finds. -/
theorem encodeSwitch_eq (format : CString) {c : UInt8} {i : ℕ} (hi : i < format.bytes.length)
    (hc : format.bytes.drop i = c :: format.bytes.drop (i + 1)) :
    (encodeConv c (format.bytes.drop (i + 1)) = none ∧ encodeSwitch format c i = .error .assertion) ∨
      ∃ k j, encodeConv c (format.bytes.drop (i + 1)) = some k ∧ encodeSwitch format c i = .ok (k, j) ∧
        Resumes format i j := by
  have hnext := Resumes.next hi
  unfold encodeSwitch encodeConv
  by_cases h1 : c = chr 'h'
  · obtain ⟨j, hj, hr⟩ := encodeH_eq format hi (h1 ▸ hc)
    exact .inr ⟨_, j, if_pos h1, by rw [if_pos h1, hj], hr⟩
  rw [if_neg h1, if_neg h1]
  by_cases h2 : c = chr 'c'
  · exact .inr ⟨_, i + 1, if_pos h2, if_pos h2, hnext⟩
  rw [if_neg h2, if_neg h2]
  by_cases h3 : c ∈ [chr 'd', chr 'u', chr 'i', chr 'x', chr 'X']
  · exact .inr ⟨_, i + 1, if_pos h3, if_pos h3, hnext⟩
  rw [if_neg h3, if_neg h3]
  by_cases h4 : c = chr 'f'
  · exact .inr ⟨_, i + 1, if_pos h4, if_pos h4, hnext⟩
  rw [if_neg h4, if_neg h4]
  by_cases h5 : c = chr 'p'
  · exact .inr ⟨_, i + 1, if_pos h5, if_pos h5, hnext⟩
  rw [if_neg h5, if_neg h5]
  by_cases h6 : c = chr 's'
  · exact .inr ⟨_, i + 1, if_pos h6, if_pos h6, hnext⟩
  rw [if_neg h6, if_neg h6]
  by_cases h7 : c = chr 'l'
  · obtain ⟨j, hj, hr⟩ := encodeL_eq format hi
    exact .inr ⟨_, j, if_pos h7, by rw [if_pos h7, hj], hr⟩
  · exact .inl ⟨if_neg h7, if_neg h7⟩

/-- What the encoder still has to store, from a state of its loop. -/
def encodeRest (format : CString) (st : EncodeState) : Except Fault (List UInt8) := do
  let scan := encodeScan st.insidePercent (format.bytes.drop st.i)
  let out ← storeAll scan.1 st.args
  if scan.2 then return st.dst ++ out else throw .assertion

/-- A state whose scan lists one more kind first is the state after that kind is
pulled. -/
theorem encodeRest_pull (format : CString) (st st' : EncodeState) {k : Kind}
    (hscan : encodeScan st.insidePercent (format.bytes.drop st.i) =
      (k :: (encodeScan st'.insidePercent (format.bytes.drop st'.i)).1,
        (encodeScan st'.insidePercent (format.bytes.drop st'.i)).2))
    (hargs : st'.args = st.args) (hdst : st'.dst = st.dst) :
    (∃ e, st'.pull k = .error e ∧ encodeRest format st = .error e) ∨
      ∃ st'', st'.pull k = .ok st'' ∧ st''.i = st'.i ∧ st''.insidePercent = st'.insidePercent ∧
        encodeRest format st = encodeRest format st'' := by
  unfold encodeRest EncodeState.pull
  rw [hscan, hargs]
  cases st.args with
  | nil => exact .inl ⟨_, rfl, rfl⟩
  | cons a args =>
    cases hk : k.store a with
    | error e => exact .inl ⟨e, by simp [hk], by simp [storeAll, hk]⟩
    | ok b =>
      refine .inr ⟨{ st' with args := args, dst := st'.dst ++ b }, by simp [hk], rfl, rfl, ?_⟩
      simp only [storeAll, hk, Loop.ok_bind, hdst]
      cases hs : storeAll (encodeScan st'.insidePercent (format.bytes.drop st'.i)).1 args with
      | error e => simp
      | ok r => simp [List.append_assoc]

/-- A round of the encoder's loop does the first part of what is left. -/
theorem encodeStep_rest (format : CString) (st : EncodeState) (hi : st.i ≤ format.bytes.length) :
    (∃ e, encodeStep format st = .error e ∧ encodeRest format st = .error e) ∨
      (∃ b, encodeStep format st = .ok (.done b) ∧ encodeRest format st = .ok b) ∨
      ∃ st', encodeStep format st = .ok (.again st') ∧ encodeRest format st = encodeRest format st' ∧
        st'.i ≤ format.bytes.length ∧
        2 * (format.bytes.length - st'.i) + st'.insidePercent.toNat <
          2 * (format.bytes.length - st.i) + st.insidePercent.toNat := by
  obtain ⟨i, inside, args, dst⟩ := st
  unfold encodeStep
  rw [format.at_eq hi, Loop.ok_bind]
  rcases format.drop_cases hi with ⟨he, hd⟩ | ⟨c, hlt, hc0, hd⟩
  · -- the terminating NUL
    refine .inr (.inl ⟨dst, ?_, ?_⟩)
    · simp only at he
      simp [he]
    · simp [encodeRest, hd, encodeScan, storeAll]
  simp only at hlt hd hi
  have hget : format.bytes.getD i 0 = c := getD_of_drop hd
  simp only [hget, if_neg hc0]
  by_cases hp : c = chr '%'
  · refine .inr (.inr ⟨⟨i + 1, !inside, args, dst⟩, if_pos hp, ?_, hlt, ?_⟩)
    · simp [encodeRest, hd, hp, encodeScan]
    · have h1 := Bool.toNat_le (!inside)
      simp only
      omega
  rw [if_neg hp]
  cases inside with
  | false =>
    refine .inr (.inr ⟨⟨i + 1, false, args, dst⟩, rfl, ?_, hlt, ?_⟩)
    · simp [encodeRest, hd, encodeScan_false_cons hp]
    · simp only
      omega
  | true =>
    rw [if_pos rfl]
    by_cases hs : staysInside c = true
    · refine .inr (.inr ⟨⟨i + 1, true, args, dst⟩, if_pos hs, ?_, hlt, ?_⟩)
      · simp [encodeRest, hd, encodeScan, hp, hs]
      · simp only
        omega
    rw [if_neg hs]
    rcases encodeSwitch_eq format hlt hd with ⟨hconv, hsw⟩ | ⟨k, j, hconv, hsw, hij, hj, hres⟩
    · refine .inl ⟨.assertion, by rw [hsw]; rfl, ?_⟩
      simp [encodeRest, hd, encodeScan, hp, hs, hconv, storeAll]
    · rw [hsw, Loop.ok_bind]
      cases k with
      | none =>
        refine .inr (.inr ⟨⟨j, false, args, dst⟩, rfl, ?_, hj, ?_⟩)
        · simp [encodeRest, hd, encodeScan, hp, hs, hconv, hres]
        · simp only [Bool.toNat_false, Bool.toNat_true]
          omega
      | some k =>
        have hscan : encodeScan true (format.bytes.drop i) =
            (k :: (encodeScan false (format.bytes.drop j)).1,
              (encodeScan false (format.bytes.drop j)).2) := by
          simp [hd, encodeScan, hp, hs, hconv, hres]
        rcases encodeRest_pull format ⟨i, true, args, dst⟩ ⟨j, false, args, dst⟩ hscan rfl rfl with
          ⟨e, hpull, hrest⟩ | ⟨st', hpull, hi', hin', hrest⟩
        · exact .inl ⟨e, by simp only [hpull]; rfl, hrest⟩
        · refine .inr (.inr ⟨st', by simp only [hpull]; rfl, hrest, by rw [hi']; exact hj, ?_⟩)
          rw [hi', hin']
          simp only [Bool.toNat_false, Bool.toNat_true]
          omega

/-- **The encoder** stores the kinds its scan lists, and reaches its `assert(0)`
if the scan does not get to the end. -/
theorem encodeToArgsBuffer_eq (format : CString) (args : List Arg) :
    encodeToArgsBuffer format args = (do
      let out ← storeAll (encodeScan false format.bytes).1 args
      if (encodeScan false format.bytes).2 then return out else throw .assertion) := by
  unfold encodeToArgsBuffer
  rw [Loop.run_eq (fun st => st.i ≤ format.bytes.length)
    (fun st => 2 * (format.bytes.length - st.i) + st.insidePercent.toNat) (encodeRest format)
    (fun st hi => encodeStep_rest format st hi) (Nat.zero_le _) (by simp)]
  simp [encodeRest]

/-! ### The decoder -/

/-- How many characters after a `%` are its flag, width and precision. -/
def modifiers (s : List UInt8) : ℕ :=
  let flag := if isFlag (s.getD 0 0) then 1 else 0
  let width := flag + ((s.drop flag).takeWhile isdigit).length
  let dot := if s.getD width 0 = chr '.' then width + 1 else width
  dot + ((s.drop dot).takeWhile isdigit).length

theorem skipDigits_eq (format : CString) : ∀ {n i : ℕ}, i ≤ format.bytes.length →
    format.bytes.length - i < n →
    skipDigits format n i = .ok (i + ((format.bytes.drop i).takeWhile isdigit).length)
  | 0, _, _, hn => by omega
  | n + 1, i, hi, hn => by
    rw [skipDigits, format.at_eq hi, Loop.ok_bind]
    rcases format.drop_cases hi with ⟨he, hd⟩ | ⟨c, hlt, hc0, hd⟩
    · simp [he]
    have hget : format.bytes.getD i 0 = c := getD_of_drop hd
    rw [hget, hd]
    by_cases hdig : isdigit c = true
    · rw [if_pos ⟨hc0, hdig⟩, skipDigits_eq format (show i + 1 ≤ _ by omega) (by omega),
        List.takeWhile_cons_of_pos hdig, List.length_cons]
      congr 1
      omega
    · rw [if_neg (fun h => hdig h.2), List.takeWhile_cons_of_neg hdig]
      rfl

theorem takeWhile_drop_le (format : CString) {i : ℕ} (hi : i ≤ format.bytes.length) :
    i + ((format.bytes.drop i).takeWhile isdigit).length ≤ format.bytes.length := by
  have h := (List.takeWhile_sublist (p := isdigit) (l := format.bytes.drop i)).length_le
  rw [List.length_drop] at h
  omega

theorem getD_ne_zero_lt {s : List UInt8} {i : ℕ} (h : s.getD i 0 ≠ 0) : i < s.length := by
  by_contra hle
  rw [List.getD_eq_getElem?_getD, List.getElem?_eq_none (by omega)] at h
  exact h rfl

/-- From the character after a `%`, the decoder passes over its modifiers. -/
theorem skipModifiers_eq (format : CString) {i : ℕ} (hi : i ≤ format.bytes.length) :
    skipModifiers format i = .ok (i + modifiers (format.bytes.drop i)) ∧
      i + modifiers (format.bytes.drop i) ≤ format.bytes.length := by
  have hgetD : ∀ j, (format.bytes.drop i).getD j 0 = format.bytes.getD (i + j) 0 := fun j => by
    rw [List.getD_eq_getElem?_getD, List.getD_eq_getElem?_getD, List.getElem?_drop]
  unfold skipModifiers modifiers
  rw [format.at_eq hi, Loop.ok_bind]
  simp only [hgetD, List.drop_drop, Nat.add_zero]
  -- the flag
  have hflag : ∃ j, (if isFlag (format.bytes.getD i 0) then 1 else 0) = j ∧ i + j ≤ format.bytes.length ∧
      (if isFlag (format.bytes.getD i 0) then i + 1 else i) = i + j := by
    by_cases hf : isFlag (format.bytes.getD i 0) = true
    · refine ⟨1, if_pos hf, getD_ne_zero_lt fun h0 => ?_, if_pos hf⟩
      rw [h0] at hf
      exact absurd hf (by decide)
    · exact ⟨0, if_neg hf, hi, if_neg hf⟩
  obtain ⟨j, hj, hle, hij⟩ := hflag
  rw [hj, hij]
  -- the width
  have hw := takeWhile_drop_le format hle
  rw [skipDigits_eq format hle (by omega), Loop.ok_bind, format.at_eq hw, Loop.ok_bind, ← Nat.add_assoc i j]
  -- the dot
  generalize hwd : i + j + ((format.bytes.drop (i + j)).takeWhile isdigit).length = w at hw
  have hdot : ∃ d, (if format.bytes.getD w 0 = chr '.' then w + 1 else w) = d ∧ d ≤ format.bytes.length ∧
      i + (if format.bytes.getD w 0 = chr '.' then
        j + ((format.bytes.drop (i + j)).takeWhile isdigit).length + 1
        else j + ((format.bytes.drop (i + j)).takeWhile isdigit).length) = d := by
    by_cases hd : format.bytes.getD w 0 = chr '.'
    · refine ⟨w + 1, if_pos hd, getD_ne_zero_lt fun h0 => ?_, by rw [if_pos hd]; omega⟩
      rw [h0] at hd
      exact absurd hd (by decide)
    · exact ⟨w, if_neg hd, hw, by rw [if_neg hd]; omega⟩
  obtain ⟨d, hd, hdle, hid⟩ := hdot
  -- the precision
  rw [hd, hid, skipDigits_eq format hdle (by omega), ← Nat.add_assoc, hid]
  exact ⟨rfl, takeWhile_drop_le format hdle⟩

/-- What the decoder does on an `h` with `c1`, `c2` behind it, and how many
characters the conversion has. -/
def actionH (c1 c2 : UInt8) : Option (Action × ℕ) :=
  if c1 ∈ [chr 'd', chr 'u', chr 'x', chr 'X', chr 'o', chr 'i'] then some (.print .word, 2)
  else if c1 = chr 'h' ∧ c2 ∈ [chr 'x', chr 'X', chr 'u', chr 'o'] then some (.print .word, 3)
  else none

/-- What the decoder does on an `l` with `c1`, `c2` behind it. -/
def actionL (c1 c2 : UInt8) : Option (Action × ℕ) :=
  if c1 = chr 'l' then
    if c2 ∈ [chr 'd', chr 'i', chr 'x', chr 'u', chr 'X'] then some (.print .long64, 3) else none
  else if c1 ∈ [chr 'd', chr 'u', chr 'i', chr 'x', chr 'X'] then some (.print .int, 2)
  else if c1 = chr 'f' then some (.print .double, 2)
  else none

/-- What the decoder's `switch` finds at the start of `s`. -/
def decodeConv (s : List UInt8) : Option (Action × ℕ) :=
  let c := s.getD 0 0
  if c = chr 'h' then actionH (s.getD 1 0) (s.getD 2 0)
  else if c = chr 'c' then some (.print .byte, 1)
  else if c ∈ [chr 'd', chr 'u', chr 'i', chr 'x', chr 'X'] then some (.print .int, 1)
  else if c = chr 'f' then some (.print .double, 1)
  else if c = chr 'p' then some (.print .ptr, 1)
  else if c = chr 's' then some (.print .string, 1)
  else if c = chr 'l' then actionL (s.getD 1 0) (s.getD 2 0)
  else if c = chr '%' then some (.percent, 1)
  else none

/-- The second and third characters are read after ones that are not NUL. -/
theorem decodeH_eq (format : CString) {i : ℕ} (hi : i < format.bytes.length) :
    decodeH format i = .ok ((actionH ((format.bytes.drop (i + 1)).getD 0 0)
      ((format.bytes.drop (i + 1)).getD 1 0)).map fun a => (a.1, i + a.2)) := by
  obtain ⟨h1, h2⟩ := format.lookahead hi
  unfold decodeH actionH
  rw [h1, Loop.ok_bind]
  by_cases ha : (format.bytes.drop (i + 1)).getD 0 0 ∈
      [chr 'd', chr 'u', chr 'x', chr 'X', chr 'o', chr 'i']
  · rw [if_pos ha, if_pos ha]
    rfl
  rw [if_neg ha, if_neg ha]
  by_cases hh : (format.bytes.drop (i + 1)).getD 0 0 = chr 'h'
  · obtain ⟨-, hat, -⟩ := h2 (by rw [hh]; decide)
    rw [if_pos hh, hat, Loop.ok_bind]
    by_cases hd : (format.bytes.drop (i + 1)).getD 1 0 ∈ [chr 'x', chr 'X', chr 'u', chr 'o']
    · rw [if_pos hd, if_pos ⟨hh, hd⟩]
      rfl
    · rw [if_neg hd, if_neg (fun h => hd h.2)]
      rfl
  · rw [if_neg hh, if_neg (fun h => hh h.1)]
    rfl

theorem decodeL_eq (format : CString) {i : ℕ} (hi : i < format.bytes.length) :
    decodeL format i = .ok ((actionL ((format.bytes.drop (i + 1)).getD 0 0)
      ((format.bytes.drop (i + 1)).getD 1 0)).map fun a => (a.1, i + a.2)) := by
  obtain ⟨h1, h2⟩ := format.lookahead hi
  unfold decodeL actionL
  rw [h1, Loop.ok_bind]
  by_cases hl : (format.bytes.drop (i + 1)).getD 0 0 = chr 'l'
  · obtain ⟨-, hat, -⟩ := h2 (by rw [hl]; decide)
    rw [if_pos hl, if_pos hl, hat, Loop.ok_bind]
    by_cases hd : (format.bytes.drop (i + 1)).getD 1 0 ∈ [chr 'd', chr 'i', chr 'x', chr 'u', chr 'X']
    · rw [if_pos hd, if_pos hd]
      rfl
    · rw [if_neg hd, if_neg hd]
      rfl
  rw [if_neg hl, if_neg hl]
  by_cases ha : (format.bytes.drop (i + 1)).getD 0 0 ∈ [chr 'd', chr 'u', chr 'i', chr 'x', chr 'X']
  · rw [if_pos ha, if_pos ha]
    rfl
  rw [if_neg ha, if_neg ha]
  by_cases hf : (format.bytes.drop (i + 1)).getD 0 0 = chr 'f'
  · rw [if_pos hf, if_pos hf]
    rfl
  · rw [if_neg hf, if_neg hf]
    rfl

/-- The `switch` of the decoder, from what it finds. -/
theorem decodeSwitch_eq (format : CString) {i : ℕ} (hi : i ≤ format.bytes.length) :
    decodeSwitch format i = .ok ((decodeConv (format.bytes.drop i)).map fun a => (a.1, i + a.2)) := by
  have hget : ∀ j, (format.bytes.drop i).getD (j + 1) 0 = (format.bytes.drop (i + 1)).getD j 0 := fun j => by
    rw [List.getD_eq_getElem?_getD, List.getD_eq_getElem?_getD, List.getElem?_drop, List.getElem?_drop,
      Nat.add_right_comm, Nat.add_assoc]
  have h0 : format.at i = .ok ((format.bytes.drop i).getD 0 0) := format.at_add (j := 0) hi
  unfold decodeSwitch decodeConv
  rw [h0, Loop.ok_bind, hget 0, hget 1]
  by_cases h1 : (format.bytes.drop i).getD 0 0 = chr 'h'
  · have hlt : i < format.bytes.length := by
      have := getD_ne_zero_lt (s := format.bytes.drop i) (i := 0) (by rw [h1]; decide)
      rw [List.length_drop] at this
      omega
    simp only [if_pos h1]
    exact decodeH_eq format hlt
  simp only [if_neg h1]
  by_cases h7 : (format.bytes.drop i).getD 0 0 = chr 'l'
  · have hlt : i < format.bytes.length := by
      have := getD_ne_zero_lt (s := format.bytes.drop i) (i := 0) (by rw [h7]; decide)
      rw [List.length_drop] at this
      omega
    have hl := decodeL_eq format hlt
    rw [h7]
    simpa [chr] using hl
  simp only [if_neg h7]
  split_ifs <;> rfl

theorem ne_zero_of_mem {c : UInt8} {l : List UInt8} (h : c ∈ l) (hl : (0 : UInt8) ∉ l) : c ≠ 0 :=
  fun h0 => hl (h0 ▸ h)

theorem actionH_bounds {c1 c2 : UInt8} {a : Action} {n : ℕ} (h : actionH c1 c2 = some (a, n)) :
    (n = 2 ∧ c1 ≠ 0) ∨ (n = 3 ∧ c2 ≠ 0) := by
  unfold actionH at h
  split_ifs at h with h1 h2
  · cases h
    exact .inl ⟨rfl, ne_zero_of_mem h1 (by decide)⟩
  · cases h
    exact .inr ⟨rfl, ne_zero_of_mem h2.2 (by decide)⟩

theorem actionL_bounds {c1 c2 : UInt8} {a : Action} {n : ℕ} (h : actionL c1 c2 = some (a, n)) :
    (n = 2 ∧ c1 ≠ 0) ∨ (n = 3 ∧ c2 ≠ 0) := by
  unfold actionL at h
  split_ifs at h with h1 h2 h3 h4
  · cases h
    exact .inr ⟨rfl, ne_zero_of_mem h2 (by decide)⟩
  · cases h
    exact .inl ⟨rfl, ne_zero_of_mem h3 (by decide)⟩
  · cases h
    exact .inl ⟨rfl, by rw [h4]; decide⟩

/-- A conversion the decoder finds is there: it ends at a character that is not
NUL. -/
theorem decodeConv_bounds {s : List UInt8} {a : Action} {n : ℕ} (h : decodeConv s = some (a, n)) :
    1 ≤ n ∧ n ≤ s.length := by
  have hlong : (n = 2 ∧ s.getD 1 0 ≠ 0) ∨ (n = 3 ∧ s.getD 2 0 ≠ 0) → 1 ≤ n ∧ n ≤ s.length := by
    rintro (⟨rfl, hne⟩ | ⟨rfl, hne⟩)
    · exact ⟨by omega, getD_ne_zero_lt hne⟩
    · exact ⟨by omega, getD_ne_zero_lt hne⟩
  have hshort : n = 1 ∧ s.getD 0 0 ≠ 0 → 1 ≤ n ∧ n ≤ s.length := by
    rintro ⟨rfl, hne⟩
    exact ⟨le_rfl, getD_ne_zero_lt hne⟩
  unfold decodeConv at h
  simp only at h
  split_ifs at h with h1 h2 h3 h4 h5 h6 h7 h8
  · exact hlong (actionH_bounds h)
  · cases h
    exact hshort ⟨rfl, by rw [h2]; decide⟩
  · cases h
    exact hshort ⟨rfl, ne_zero_of_mem h3 (by decide)⟩
  · cases h
    exact hshort ⟨rfl, by rw [h4]; decide⟩
  · cases h
    exact hshort ⟨rfl, by rw [h5]; decide⟩
  · cases h
    exact hshort ⟨rfl, by rw [h6]; decide⟩
  · exact hlong (actionL_bounds h)
  · cases h
    exact hshort ⟨rfl, by rw [h8]; decide⟩

/-- What the decoder finds behind a `%`, and how many characters it takes. -/
def conversion (s : List UInt8) : Option (Action × ℕ) :=
  (decodeConv (s.drop (modifiers s))).map fun a => (a.1, modifiers s + a.2)

theorem conversion_bounds {s : List UInt8} {a : Action} {n : ℕ} (h : conversion s = some (a, n)) :
    1 ≤ n ∧ n ≤ s.length := by
  unfold conversion at h
  cases hc : decodeConv (s.drop (modifiers s)) with
  | none => simp [hc] at h
  | some r =>
    obtain ⟨a', m⟩ := r
    have hb := decodeConv_bounds hc
    rw [hc, Option.map_some, Option.some.injEq, Prod.mk.injEq] at h
    rw [List.length_drop] at hb
    omega

/-- A piece of a format as the decoder reads it. -/
inductive Token where
  | lit (c : UInt8)
  | percent
  | conv (k : Kind) (spec : List UInt8)
deriving DecidableEq

/-- The pieces the decoder finds, after `skip` characters of a conversion. -/
def decodeScan : ℕ → List UInt8 → List Token
  | _, [] => []
  | skip + 1, _ :: s => decodeScan skip s
  | 0, c :: s =>
    if c = chr '%' then
      match conversion s with
      | none => .lit c :: decodeScan 0 s
      | some (.percent, n) => .percent :: decodeScan n s
      | some (.print k, n) => .conv k (c :: s.take n) :: decodeScan n s
    else .lit c :: decodeScan 0 s

theorem decodeScan_drop : ∀ (n : ℕ) (s : List UInt8), decodeScan n s = decodeScan 0 (s.drop n)
  | 0, _ => rfl
  | n + 1, [] => by simp [decodeScan]
  | n + 1, _ :: s => by rw [decodeScan, decodeScan_drop n s, List.drop_succ_cons]

/-- `sprintf` fails on the piece. -/
def Token.fails : Token → Bool
  | .conv k spec => k ≠ .string && overflows spec
  | _ => false

/-- The output behind a piece that has printed `text`. -/
def Token.printed (text : List UInt8) (out : Output) : Token → Output
  | .lit _ => out.put text
  | .percent => (out.put text).nul
  | .conv k _ => if k = .string then out.put text else (out.put text).nul

/-- The output behind a piece whose text is `text`, if `sprintf` does not fail. -/
def Token.print (text : List UInt8) (out : Output) (t : Token) : Except Fault Output :=
  if t.fails then out.nul.back else .ok (t.printed text out)

/-- Print the pieces, the values read from the buffer at `index`, behind `out`;
`entry` is `*argsBufferIndexPtr` on entry. -/
def printAll (env : Env) (argsBuffer : List UInt8) (entry outputStringMaxLength : ℕ) :
    List Token → ℕ → Output → Except Fault DecodeResult
  | [], index, out => .ok ⟨0, index, out.nul, out.length⟩
  | .lit c :: ts, index, out => printAll env argsBuffer entry outputStringMaxLength ts index (out.put [c])
  | .percent :: ts, index, out =>
    printAll env argsBuffer entry outputStringMaxLength ts index (out.put [chr '%']).nul
  | .conv k spec :: ts, index, out => do
    let tempFormat ← strlcpy spec (spec.length + 1)
    match ← printStored env argsBuffer entry outputStringMaxLength k tempFormat index out with
    | .done r => return r
    | .again (index, out) => printAll env argsBuffer entry outputStringMaxLength ts index out

/-- What the decoder still has to do, from a state of its loop. -/
def decodeRest (env : Env) (format : CString) (argsBuffer : List UInt8) (entry max : ℕ)
    (st : DecodeState) : Except Fault DecodeResult :=
  printAll env argsBuffer entry max (decodeScan 0 (format.bytes.drop st.i)) st.argsBufferIndex st.outputString

/-! ### The output -/

namespace Output

variable {out out' : Output}

/-- Nothing but a NUL stands behind the cursor. -/
def Tidy (out : Output) : Prop := out.rest.length ≤ 1

theorem tidy_start (front : List UInt8) : (start front).Tidy := Nat.le_refl 1

theorem Tidy.put (h : out.Tidy) (s : List UInt8) : (out.put s).Tidy := by
  unfold Tidy Output.put at *
  rw [List.length_drop]
  omega

theorem Tidy.nul (h : out.Tidy) : out.nul.Tidy := by
  unfold Tidy Output.nul at *
  rw [List.length_cons, List.length_drop]
  omega

theorem Tidy.nul_rest (h : out.Tidy) : out.nul.rest = [0] := by
  unfold Tidy at h
  rw [Output.nul, List.drop_eq_nil_of_le h]

theorem Tidy.put_start (h : out.Tidy) (s : List UInt8) :
    (out.put s).nul = ⟨out.startOutputString, out.text ++ s, [0]⟩ := by
  rw [← (h.put s).nul_rest]
  rfl

theorem back_eq_ok (h : out.back = .ok out') : ∃ c, out.text = out'.text ++ [c] ∧ out'.rest = c :: out.rest ∧
    out'.startOutputString = out.startOutputString := by
  unfold back at h
  cases hlast : out.text.getLast? with
  | none =>
    rw [hlast] at h
    cases h
  | some c =>
    rw [hlast] at h
    obtain rfl := Except.ok.inj h
    exact ⟨c, (List.dropLast_append_getLast? c hlast).symm, rfl, rfl⟩

theorem back_error {fault : Fault} (h : out.back = .error fault) : out.text = [] ∧ fault = .bounds := by
  unfold back at h
  cases hlast : out.text.getLast? with
  | none =>
    rw [hlast] at h
    cases h
    exact ⟨List.getLast?_eq_none_iff.mp hlast, rfl⟩
  | some c =>
    rw [hlast] at h
    cases h

theorem length_congr (hstart : out.startOutputString = out'.startOutputString)
    (htext : out.text = out'.text) :
    out.length = out'.length := by
  unfold length
  rw [hstart, htext]

theorem length_put (front text : List UInt8) :
    ((start front).put text).length.getD 0 + front.length = (front ++ text).length := by
  simp only [length, start, put, List.length_append]
  split
  · simp only [Option.getD_some]
    omega
  · simp only [Option.getD_none]
    omega

end Output

theorem Token.sprintf_eq {k : Kind} (hk : k ≠ .string) (spec text : List UInt8) (out : Output) :
    out.sprintf spec text = (Token.conv k spec).print text out := by
  simp [Output.sprintf, Token.print, Token.fails, Token.printed, hk]

theorem Token.print_string (spec text : List UInt8) (out : Output) :
    (Token.conv .string spec).print text out = .ok (out.put text) := by
  simp [Token.print, Token.fails, Token.printed]

/-- A piece is printed if the cursor need not step out of the buffer. -/
theorem Token.exists_print {t : Token} {out : Output} (h : t.fails → out.text ≠ []) (text : List UInt8) :
    ∃ out', t.print text out = .ok out' := by
  unfold Token.print
  by_cases hfails : t.fails = true
  · rw [if_pos hfails]
    cases hback : out.nul.back with
    | ok out' => exact ⟨out', rfl⟩
    | error e => exact absurd (Output.back_error hback).1 (h hfails)
  · rw [if_neg hfails]
    exact ⟨_, rfl⟩

theorem Token.print_of_not_fails {t : Token} (h : t.fails = false) (text : List UInt8) (out : Output) :
    t.print text out = .ok (t.printed text out) := by
  rw [Token.print, h, if_neg Bool.false_ne_true]

@[simp] theorem Token.printed_text (t : Token) (text : List UInt8) (out : Output) :
    (t.printed text out).text = out.text ++ text := by
  cases t with
  | lit c => rfl
  | percent => rfl
  | conv k spec =>
    rw [Token.printed]
    split <;> rfl

@[simp] theorem Token.printed_start (t : Token) (text : List UInt8) (out : Output) :
    (t.printed text out).startOutputString = out.startOutputString := by
  cases t with
  | lit c => rfl
  | percent => rfl
  | conv k spec =>
    rw [Token.printed]
    split <;> rfl

theorem Token.printed_tidy {out : Output} (h : out.Tidy) (t : Token) (text : List UInt8) :
    (t.printed text out).Tidy := by
  cases t with
  | lit c => exact h.put text
  | percent => exact (h.put text).nul
  | conv k spec =>
    rw [Token.printed]
    split
    · exact h.put text
    · exact (h.put text).nul

/-- `strlcpy` takes the characters of a conversion, `n` of them behind a `%`. -/
theorem strlcpy_spec {c : UInt8} {s : List UInt8} {n : ℕ} (hn : n ≤ s.length) :
    strlcpy (c :: s) (n + 2) = strlcpy (c :: s.take n) ((c :: s.take n).length + 1) := by
  have hlen : (c :: s.take n).length + 1 = n + 2 := by
    rw [List.length_cons, List.length_take]
    omega
  rw [hlen]
  unfold strlcpy
  have htake : (c :: s).take (n + 2 - 1) = (c :: s.take n).take (n + 2 - 1) := by
    simp [List.take_take]
  rw [htake]

theorem strlcpy_all {spec : List UInt8} (h : spec.length ≤ 31) :
    strlcpy spec (spec.length + 1) = .ok spec := by
  unfold strlcpy
  rw [if_pos (by omega), Nat.add_sub_cancel, List.take_length]

theorem strlcpy_inv {spec tempFormat : List UInt8} (h : strlcpy spec (spec.length + 1) = .ok tempFormat) :
    spec.length ≤ 31 ∧ tempFormat = spec := by
  unfold strlcpy at h
  split at h
  · rw [← Except.ok.inj h, Nat.add_sub_cancel, List.take_length]
    exact ⟨by omega, rfl⟩
  · cases h

theorem decodeConversion_eq (format : CString) {i : ℕ} (hi : i < format.bytes.length) :
    decodeConversion format i (chr '%') =
      .ok ((conversion (format.bytes.drop (i + 1))).map fun a => (a.1, i + 1 + a.2)) := by
  obtain ⟨hskip, hle⟩ := skipModifiers_eq format (show i + 1 ≤ format.bytes.length from hi)
  rw [decodeConversion, if_pos rfl, hskip, Loop.ok_bind, decodeSwitch_eq format hle, conversion,
    List.drop_drop, Option.map_map]
  congr 2
  funext a
  simp [Nat.add_assoc]

theorem decodeStep_end (env : Env) (format : CString) (argsBuffer : List UInt8) (entry max : ℕ)
    {st : DecodeState} (hi : st.i = format.bytes.length) :
    decodeStep env format argsBuffer entry max st =
      .ok (.done ⟨0, st.argsBufferIndex, st.outputString.nul, st.outputString.length⟩) := by
  unfold decodeStep
  rw [format.at_eq hi.le, Loop.ok_bind]
  simp [hi]

/-- What a round of the decoder's loop does for a piece that ends in front of `i`. -/
def Token.round (env : Env) (argsBuffer : List UInt8) (entry max i : ℕ) (st : DecodeState) :
    Token → Except Fault (Loop.Next DecodeState DecodeResult)
  | .lit c => .ok (.again ⟨i, st.argsBufferIndex, st.outputString.put [c]⟩)
  | .percent => .ok (.again ⟨i, st.argsBufferIndex, (st.outputString.put [chr '%']).nul⟩)
  | .conv k spec => do
    let tempFormat ← strlcpy spec (spec.length + 1)
    match ← printStored env argsBuffer entry max k tempFormat st.argsBufferIndex st.outputString with
    | .done r => return .done r
    | .again (index, out) => return .again ⟨i, index, out⟩

/-- The conversion in which a piece ends in front of `i`. -/
def Token.EndsAt (format : CString) (start i : ℕ) : Token → Prop
  | .lit _ => ∀ c k j, format.at start = .ok c → decodeConversion format start c ≠ .ok (some (.print k, j))
  | .percent => ∀ c k j, format.at start = .ok c → decodeConversion format start c ≠ .ok (some (.print k, j))
  | .conv k spec => format.at start = .ok (chr '%') ∧
      decodeConversion format start (chr '%') = .ok (some (.print k, i)) ∧
      i = start + spec.length ∧ spec = (format.bytes.drop start).take spec.length

/-- **A round of the decoder's loop** deals with the first piece that is left. -/
theorem decodeStep_head (env : Env) (format : CString) (argsBuffer : List UInt8) (entry max : ℕ)
    {st : DecodeState} (hi : st.i < format.bytes.length) :
    ∃ t i, decodeScan 0 (format.bytes.drop st.i) = t :: decodeScan 0 (format.bytes.drop i) ∧ st.i < i ∧
      i ≤ format.bytes.length ∧ t.EndsAt format st.i i ∧
      decodeStep env format argsBuffer entry max st = t.round env argsBuffer entry max i st := by
  obtain ⟨start, index, out⟩ := st
  simp only at hi ⊢
  rcases format.drop_cases hi.le with ⟨he, -⟩ | ⟨c, -, hc0, hd⟩
  · omega
  have hget : format.bytes.getD start 0 = c := getD_of_drop hd
  have hat : format.at start = .ok c := by rw [format.at_eq hi.le, hget]
  have hlit : ∀ r, decodeConversion format start c = .ok r → (∀ k j, r ≠ some (.print k, j)) →
      ∀ c' k j, format.at start = .ok c' → decodeConversion format start c' ≠ .ok (some (.print k, j)) := by
    intro r hr hne c' k j hc' h
    obtain rfl := Except.ok.inj (hat.symm.trans hc')
    exact hne k j (Except.ok.inj (hr.symm.trans h))
  unfold decodeStep
  simp only [hat, Loop.ok_bind, if_neg hc0, hd]
  by_cases hp : c = chr '%'
  swap
  · have hnone : decodeConversion format start c = .ok none := if_neg hp
    refine ⟨.lit c, start + 1, ?_, Nat.lt_succ_self _, hi, hlit _ hnone (by simp), ?_⟩
    · rw [decodeScan, if_neg hp]
    · rw [hnone]
      rfl
  subst hp
  have hconv := decodeConversion_eq format hi
  rw [decodeScan, if_pos rfl]
  cases hc : conversion (format.bytes.drop (start + 1)) with
  | none =>
    rw [hc] at hconv
    refine ⟨.lit (chr '%'), start + 1, rfl, Nat.lt_succ_self _, hi, hlit _ hconv (by simp), ?_⟩
    rw [hconv]
    rfl
  | some r =>
    obtain ⟨a, n⟩ := r
    rw [hc, Option.map_some] at hconv
    have hb := conversion_bounds hc
    have hlen := List.length_drop (i := start + 1) (l := format.bytes)
    have hscan : decodeScan n (format.bytes.drop (start + 1)) =
        decodeScan 0 (format.bytes.drop (start + 1 + n)) := by
      rw [decodeScan_drop, List.drop_drop]
    cases a with
    | percent =>
      refine ⟨.percent, start + 1 + n, by simp only [hscan], by omega, by omega, hlit _ hconv (by simp), ?_⟩
      rw [hconv]
      rfl
    | print k =>
      have hspec : (chr '%' :: (format.bytes.drop (start + 1)).take n).length = n + 1 := by
        rw [List.length_cons, List.length_take]
        omega
      have hslice : chr '%' :: (format.bytes.drop (start + 1)).take n =
          (format.bytes.drop start).take (n + 1) := by
        rw [hd, List.take_succ_cons]
      refine ⟨.conv k (chr '%' :: (format.bytes.drop (start + 1)).take n), start + 1 + n,
        by simp only [hscan], by omega, by omega, ⟨hat, hconv, by omega, by rw [hspec, hslice]⟩, ?_⟩
      have hsiz : start + 1 + n - start + 1 = n + 2 := by omega
      rw [hconv, Loop.ok_bind]
      simp only [hsiz, strlcpy_spec hb.2]
      rfl

/-- A round of the decoder's loop does the first part of what is left. -/
theorem decodeStep_rest (env : Env) (format : CString) (argsBuffer : List UInt8) (entry max : ℕ)
    (st : DecodeState) (hi : st.i ≤ format.bytes.length) :
    (∃ e, decodeStep env format argsBuffer entry max st = .error e ∧
        decodeRest env format argsBuffer entry max st = .error e) ∨
      (∃ b, decodeStep env format argsBuffer entry max st = .ok (.done b) ∧
        decodeRest env format argsBuffer entry max st = .ok b) ∨
      ∃ st', decodeStep env format argsBuffer entry max st = .ok (.again st') ∧
        decodeRest env format argsBuffer entry max st = decodeRest env format argsBuffer entry max st' ∧
        st'.i ≤ format.bytes.length ∧ format.bytes.length - st'.i < format.bytes.length - st.i := by
  rcases Nat.lt_or_eq_of_le hi with hlt | hend
  swap
  · refine .inr (.inl ⟨_, decodeStep_end env format argsBuffer entry max hend, ?_⟩)
    rw [decodeRest, List.drop_eq_nil_of_le hend.ge]
    rfl
  obtain ⟨t, i, hscan, hlt', hle, -, hstep⟩ := decodeStep_head env format argsBuffer entry max hlt
  have hmeasure : format.bytes.length - i < format.bytes.length - st.i := by omega
  unfold decodeRest
  rw [hstep, hscan]
  cases t with
  | lit c => exact .inr (.inr ⟨_, rfl, rfl, hle, hmeasure⟩)
  | percent => exact .inr (.inr ⟨_, rfl, rfl, hle, hmeasure⟩)
  | conv k spec =>
    simp only [Token.round, printAll]
    cases hcpy : strlcpy spec (spec.length + 1) with
    | error e => exact .inl ⟨e, rfl, rfl⟩
    | ok tempFormat =>
      simp only [Loop.ok_bind]
      cases hpr : printStored env argsBuffer entry max k tempFormat st.argsBufferIndex st.outputString with
      | error e => exact .inl ⟨e, rfl, rfl⟩
      | ok next =>
        cases next with
        | done b => exact .inr (.inl ⟨b, rfl, rfl⟩)
        | again p => exact .inr (.inr ⟨⟨i, p.1, p.2⟩, rfl, rfl, hle, hmeasure⟩)

/-- **The decoder** prints the pieces its scan lists. -/
theorem decodeFromArgsBuffer_eq (env : Env) (format : CString) (argsBuffer : List UInt8)
    (index max : ℕ) (front : List UInt8) :
    decodeFromArgsBuffer env format argsBuffer index max front =
      printAll env argsBuffer index max (decodeScan 0 format.bytes) index (.start front) := by
  unfold decodeFromArgsBuffer
  rw [Loop.run_eq (fun st => st.i ≤ format.bytes.length) (fun st => format.bytes.length - st.i)
    (decodeRest env format argsBuffer index max)
    (fun st hi => decodeStep_rest env format argsBuffer index max st hi) (Nat.zero_le _) (by simp)]
  rfl

/-! ### How far the decoder reads -/

theorem memGet_bounds {n i v : ℕ} {buf : List UInt8} (h : memGet n buf i = .ok v) : i + n ≤ buf.length := by
  unfold memGet at h
  by_contra hlt
  rw [if_neg hlt] at h
  cases h

theorem memGet_map_bounds {α : Type} {f : ℕ → α} {n i : ℕ} {a : α} {buf : List UInt8}
    (h : f <$> memGet n buf i = .ok a) : i + n ≤ buf.length := by
  cases hget : memGet n buf i with
  | error e =>
    rw [hget] at h
    cases h
  | ok v => exact memGet_bounds hget

theorem Kind.print_bounds {env : Env} {spec buf text : List UInt8} {index width : ℕ} {k : Kind}
    (h : k.print env spec buf index = .ok (text, width)) : index + width ≤ buf.length := by
  cases k with
  | string => cases h
  | byte | word | int | double | ptr | long64 =>
    obtain ⟨v, hget, hv⟩ := Loop.bind_eq_ok.mp h
    obtain ⟨-, rfl⟩ := Prod.mk.inj (Except.ok.inj hv)
    exact memGet_map_bounds hget

/-- How many bytes a value other than a string takes. -/
def Kind.width : Kind → ℕ
  | .byte => 1
  | .word => 2
  | .int => 4
  | .double | .ptr | .long64 => 8
  | .string => 0

theorem Kind.print_width {env : Env} {spec buf text : List UInt8} {index width : ℕ} {k : Kind}
    (h : k.print env spec buf index = .ok (text, width)) : width = k.width := by
  cases k with
  | string => cases h
  | byte | word | int | double | ptr | long64 =>
    obtain ⟨v, -, hv⟩ := Loop.bind_eq_ok.mp h
    exact (Prod.mk.inj (Except.ok.inj hv)).2.symm

/-- The string that is read: up to the NUL or the limit. -/
theorem memGetString_inv {buf : List UInt8} (hbuf : buf.length < 4294967296) {left index : ℕ} {s : List UInt8}
    (h : memGetString buf left index = .ok s) : s = ((buf.drop index).take left).takeWhile (· ≠ 0) := by
  induction left generalizing index s with
  | zero =>
    rw [memGetString.eq_def] at h
    by_cases hi : index < buf.length
    · simp only [if_pos hi, Loop.ok_bind, ite_self] at h
      exact (Except.ok.inj h).symm
    · simp only [if_neg hi] at h
      cases h
  | succ left ih =>
    rw [memGetString.eq_def] at h
    by_cases hi : index < buf.length
    swap
    · simp only [if_neg hi] at h
      cases h
    simp only [if_pos hi, Loop.ok_bind] at h
    have hdrop : buf.drop index = buf.getD index 0 :: buf.drop (index + 1) := by
      rw [List.drop_eq_getElem_cons hi, List.getD_eq_getElem?_getD, List.getElem?_eq_getElem hi,
        Option.getD_some]
    rw [hdrop, List.take_succ_cons]
    by_cases hzero : buf.getD index 0 = 0
    · rw [if_pos hzero] at h
      rw [List.takeWhile_cons_of_neg (by simpa using hzero)]
      exact (Except.ok.inj h).symm
    · rw [if_neg hzero] at h
      obtain ⟨t, ht, h⟩ := Loop.bind_eq_ok.mp h
      rw [u32_of_lt (by omega)] at ht
      rw [List.takeWhile_cons_of_pos (by simpa using hzero), ← ih ht]
      exact (Except.ok.inj h).symm

/-- A string whose limit lies in the buffer is read. -/
theorem memGetString_take {buf : List UInt8} {left index : ℕ} (h : index + left < buf.length)
    (h32 : index + left < 4294967296) :
    memGetString buf left index = .ok (((buf.drop index).take left).takeWhile (· ≠ 0)) := by
  induction left generalizing index with
  | zero =>
    rw [memGetString.eq_def]
    simp only [if_pos (show index < buf.length by omega), Loop.ok_bind, ite_self]
    rfl
  | succ left ih =>
    have hi : index < buf.length := by omega
    have hdrop : buf.drop index = buf.getD index 0 :: buf.drop (index + 1) := by
      rw [List.drop_eq_getElem_cons hi, List.getD_eq_getElem?_getD, List.getElem?_eq_getElem hi,
        Option.getD_some]
    rw [memGetString.eq_def, hdrop, List.take_succ_cons]
    simp only [if_pos hi, Loop.ok_bind]
    by_cases hzero : buf.getD index 0 = 0
    · rw [if_pos hzero, List.takeWhile_cons_of_neg (by simpa using hzero)]
      rfl
    · rw [if_neg hzero, List.takeWhile_cons_of_pos (by simpa using hzero), u32_of_lt (by omega),
        ih (by omega) (by omega)]
      rfl

/-- A string that was read ends in front of a byte of the buffer. -/
theorem memGetString_bounds {buf : List UInt8} (hbuf : buf.length < 4294967296) :
    ∀ {left index : ℕ} {s : List UInt8}, memGetString buf left index = .ok s →
      index + s.length + 1 ≤ buf.length
  | left, index, s, h => by
    rw [memGetString.eq_def] at h
    dsimp only at h
    by_cases hi : index < buf.length
    · rw [if_pos hi, Loop.ok_bind] at h
      by_cases hb : buf.getD index 0 = 0
      · rw [if_pos hb] at h
        obtain rfl := Except.ok.inj h
        exact hi
      · rw [if_neg hb] at h
        cases left with
        | zero =>
          obtain rfl := Except.ok.inj h
          exact hi
        | succ left =>
          obtain ⟨t, ht, hs⟩ := Loop.bind_eq_ok.mp h
          obtain rfl := Except.ok.inj hs
          have ih := memGetString_bounds hbuf ht
          rw [u32_of_lt (by omega)] at ih
          rw [List.length_cons]
          omega
    · rw [if_neg hi] at h
      cases h

/-- What printing a stored value does, unless it leaves a buffer: it gives up, copies a
string, or prints one of the other values. -/
theorem printStored_cases {env : Env} {buf spec : List UInt8} {entry max index : ℕ} {k : Kind} {out : Output}
    {next : Loop.Next (ℕ × Output) DecodeResult}
    (h : printStored env buf entry max k spec index out = .ok next) :
    (k = .string ∧ 2147483648 ≤ maxString max index ∧ next = .done ⟨UINT32_MAX, entry, out, none⟩) ∨
      (k = .string ∧ ¬ 2147483648 ≤ maxString max index ∧
        ∃ s, memGetString buf (maxString max index) index = .ok s ∧
        next = .again (indexInc index (s.length + 1), out.put s)) ∨
      (k ≠ .string ∧ ∃ text width out', k.print env spec buf index = .ok (text, width) ∧
        out.sprintf spec text = .ok out' ∧ next = .again (indexInc index width, out')) := by
  unfold printStored at h
  by_cases hk : k = .string
  · simp only [if_pos hk] at h
    by_cases hmax : 2147483648 ≤ maxString max index
    · rw [if_pos hmax] at h
      exact .inl ⟨hk, hmax, (Except.ok.inj h).symm⟩
    · rw [if_neg hmax] at h
      obtain ⟨s, hs, hr⟩ := Loop.bind_eq_ok.mp h
      exact .inr (.inl ⟨hk, hmax, s, hs, (Except.ok.inj hr).symm⟩)
  · rw [if_neg hk] at h
    obtain ⟨⟨text, width⟩, hprint, h⟩ := Loop.bind_eq_ok.mp h
    obtain ⟨out', hout, hr⟩ := Loop.bind_eq_ok.mp h
    exact .inr (.inr ⟨hk, text, width, out', hprint, hout, (Except.ok.inj hr).symm⟩)

/-- The index moves forward, and stays in the buffer. -/
theorem printStored_bounds {env : Env} {buf spec : List UInt8} {entry max index : ℕ} {k : Kind}
    {out : Output} {p : ℕ × Output} (hbuf : buf.length < 4294967296)
    (h : printStored env buf entry max k spec index out = .ok (.again p)) :
    index ≤ p.1 ∧ p.1 ≤ buf.length := by
  rcases printStored_cases h with ⟨-, -, hnext⟩ | ⟨-, -, s, hs, hnext⟩ | ⟨-, text, width, out',
      hprint, -, hnext⟩
  · cases hnext
  · have hb := memGetString_bounds hbuf hs
    obtain rfl := Loop.Next.again.inj hnext
    rw [indexInc, u32_of_lt (by omega)]
    omega
  · have hb := Kind.print_bounds hprint
    obtain rfl := Loop.Next.again.inj hnext
    rw [indexInc, u32_of_lt (by omega)]
    omega

/-- A call that gives up returns -1, and leaves the index as it was on entry. -/
theorem printStored_done {env : Env} {buf spec : List UInt8} {entry max index : ℕ} {k : Kind} {out : Output}
    {r : DecodeResult} (h : printStored env buf entry max k spec index out = .ok (.done r)) :
    k = .string ∧ r = ⟨UINT32_MAX, entry, out, none⟩ := by
  rcases printStored_cases h with ⟨hk, -, hnext⟩ | ⟨-, -, s, -, hnext⟩ | ⟨-, text, width, out', -, -, hnext⟩
  · exact ⟨hk, Loop.Next.done.inj hnext⟩
  · cases hnext
  · cases hnext

theorem printAll_bounds {env : Env} {buf : List UInt8} {entry max : ℕ} (hbuf : buf.length < 4294967296) :
    ∀ (ts : List Token) {index : ℕ} {out : Output} {r : DecodeResult}, entry ≤ index → index ≤ buf.length →
      printAll env buf entry max ts index out = .ok r → entry ≤ r.argsBufferIndex ∧
        r.argsBufferIndex ≤ buf.length
  | [], index, out, r, h1, h2, h => by
    obtain rfl := Except.ok.inj h
    exact ⟨h1, h2⟩
  | .lit _ :: ts, _, _, _, h1, h2, h => printAll_bounds hbuf ts h1 h2 h
  | .percent :: ts, _, _, _, h1, h2, h => printAll_bounds hbuf ts h1 h2 h
  | .conv k spec :: ts, index, out, r, h1, h2, h => by
    obtain ⟨tempFormat, -, h⟩ := Loop.bind_eq_ok.mp h
    obtain ⟨next, hnext, h⟩ := Loop.bind_eq_ok.mp h
    cases next with
    | done r' =>
      obtain rfl := Except.ok.inj h
      obtain ⟨-, rfl⟩ := printStored_done hnext
      exact ⟨le_rfl, h1.trans h2⟩
    | again p =>
      obtain ⟨hle, hle'⟩ := printStored_bounds hbuf hnext
      exact printAll_bounds hbuf ts (h1.trans hle) hle' h

/-- The decoder leaves the index between where it was and the end of the buffer. -/
theorem decodeFromArgsBuffer_bounds {env : Env} {format : CString} {buf : List UInt8} {index max : ℕ}
    {front : List UInt8} {r : DecodeResult} (hbuf : buf.length < 4294967296) (hi : index ≤ buf.length)
    (h : decodeFromArgsBuffer env format buf index max front = .ok r) :
    index ≤ r.argsBufferIndex ∧ r.argsBufferIndex ≤ buf.length := by
  rw [decodeFromArgsBuffer_eq] at h
  exact printAll_bounds hbuf _ le_rfl hi h

/-! ### How the decoder fails -/

theorem memGet_map_error {α : Type} {f : ℕ → α} {n i : ℕ} {buf : List UInt8} {fault : Fault}
    (h : f <$> memGet n buf i = .error fault) : fault = .bounds := by
  unfold memGet at h
  split at h
  · cases h
  · cases h
    rfl

theorem Kind.print_error {env : Env} {spec buf : List UInt8} {index : ℕ} {k : Kind} {fault : Fault}
    (hk : k ≠ .string) (h : k.print env spec buf index = .error fault) : fault = .bounds := by
  cases k with
  | string => exact absurd rfl hk
  | byte | word | int | double | ptr | long64 =>
    rcases Loop.bind_eq_error.mp h with h | ⟨v, -, h⟩
    · exact memGet_map_error h
    · cases h

theorem memGetString_error {buf : List UInt8} {fault : Fault} : ∀ {left index : ℕ},
    memGetString buf left index = .error fault → fault = .bounds
  | left, index, h => by
    rw [memGetString.eq_def] at h
    dsimp only at h
    by_cases hi : index < buf.length
    · rw [if_pos hi, Loop.ok_bind] at h
      split at h
      · cases h
      cases left with
      | zero => cases h
      | succ left =>
        rcases Loop.bind_eq_error.mp h with h | ⟨s, -, h⟩
        · exact memGetString_error h
        · cases h
    · rw [if_neg hi] at h
      cases h
      rfl

theorem printStored_error {env : Env} {buf spec : List UInt8} {entry max index : ℕ} {k : Kind}
    {out : Output} {fault : Fault}
    (h : printStored env buf entry max k spec index out = .error fault) :
    fault = .bounds := by
  unfold printStored at h
  by_cases hk : k = .string
  · simp only [if_pos hk] at h
    split at h
    · cases h
    · rcases Loop.bind_eq_error.mp h with h | ⟨s, -, h⟩
      · exact memGetString_error h
      · cases h
  · rw [if_neg hk] at h
    rcases Loop.bind_eq_error.mp h with h | ⟨p, -, h⟩
    · exact Kind.print_error hk h
    rcases Loop.bind_eq_error.mp h with h | ⟨out', -, h⟩
    · unfold Output.sprintf at h
      split at h
      · exact (Output.back_error h).2
      · cases h
    · cases h

theorem printAll_error {env : Env} {buf : List UInt8} {entry max : ℕ} {fault : Fault} : ∀ (ts : List Token)
    {index : ℕ} {out : Output}, printAll env buf entry max ts index out = .error fault → fault = .bounds
  | [], _, _, h => by cases h
  | .lit _ :: ts, _, _, h => printAll_error ts h
  | .percent :: ts, _, _, h => printAll_error ts h
  | .conv k spec :: ts, index, out, h => by
    rcases Loop.bind_eq_error.mp h with h | ⟨tempFormat, -, h⟩
    · unfold strlcpy at h
      split at h
      · cases h
      · cases h
        rfl
    rcases Loop.bind_eq_error.mp h with h | ⟨next, -, h⟩
    · exact printStored_error h
    cases next with
    | done r => cases h
    | again p => exact printAll_error ts h

theorem decodeFromArgsBuffer_error {env : Env} {format : CString} {buf front : List UInt8}
    {index max : ℕ} {fault : Fault}
    (h : decodeFromArgsBuffer env format buf index max front = .error fault) :
    fault = .bounds := by
  rw [decodeFromArgsBuffer_eq] at h
  exact printAll_error _ h

theorem decodeFromArgsBuffer_ne_fuel {env : Env} {format : CString} {buf front : List UInt8} {index max : ℕ} :
    decodeFromArgsBuffer env format buf index max front ≠ .error .fuel := fun h =>
  absurd (decodeFromArgsBuffer_error h) (by decide)

end Memlog
