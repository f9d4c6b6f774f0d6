/-
# Deferred formatting is immediate formatting

A format of the grammar both scanners share: literal characters, `%%`, plain
`%s`, and conversions `%[flag]digits[.digits]conv` (`Piece`, `Spec`, `Conv`).
For such a format both scanners find its pieces (`encodeScan_pieces`,
`decodeScan_pieces`), every value is read back from where it was stored
(`printStored_conv`, `printStored_str`), and so the decoder prints what `sprintf`
prints for the original arguments (`RoundTrips`). Widths and precisions are `int`s,
since `sprintf` fails on larger ones.

The C library enters as `Printf`: the length modifiers `h` and `hh` and the
conversion `c` make `sprintf` convert its argument to a short or a char first,
and `%s` prints the string, or `(null)`.
-/
import Memlog.Scan

namespace Memlog

open ByteCodec

/-! ### The grammar -/

/-- The conversions after the flag, the width and the precision. -/
inductive Conv where
  | c | d | u | i | x | X | f | p | lf
  | ho | hx | hX | hu | hd | hi
  | hhx | hhX | hhu | hho
  | lld | lli | llu | llx | llX
deriving DecidableEq, Repr

/-- The characters of a conversion. -/
def Conv.text : Conv → List UInt8
  | .c => ascii "c" | .d => ascii "d" | .u => ascii "u" | .i => ascii "i" | .x => ascii "x"
  | .X => ascii "X" | .f => ascii "f" | .p => ascii "p" | .lf => ascii "lf"
  | .ho => ascii "ho" | .hx => ascii "hx" | .hX => ascii "hX" | .hu => ascii "hu"
  | .hd => ascii "hd" | .hi => ascii "hi"
  | .hhx => ascii "hhx" | .hhX => ascii "hhX" | .hhu => ascii "hhu" | .hho => ascii "hho"
  | .lld => ascii "lld" | .lli => ascii "lli" | .llu => ascii "llu" | .llx => ascii "llx"
  | .llX => ascii "llX"

/-- What a conversion stores. -/
def Conv.kind : Conv → Kind
  | .c => .byte
  | .d | .u | .i | .x | .X => .int
  | .f | .lf => .double
  | .p => .ptr
  | .ho | .hx | .hX | .hu | .hd | .hi | .hhx | .hhX | .hhu | .hho => .word
  | .lld | .lli | .llu | .llx | .llX => .long64

theorem Conv.kind_ne_string (k : Conv) : k.kind ≠ .string := by
  cases k <;> decide

/-- A flag, a width and a precision. The width and the precision are `int`s: `sprintf`
fails on a format with a larger one. -/
structure Modifiers where
  flag : Option UInt8
  flag_ok : ∀ c ∈ flag, isFlag c
  width : List UInt8
  width_ok : ∀ c ∈ width, isdigit c
  width_lt : digitsValue width < 2147483648
  precision : Option (List UInt8)
  precision_ok : ∀ p ∈ precision, ∀ c ∈ p, isdigit c
  precision_lt : ∀ p ∈ precision, digitsValue p < 2147483648

/-- A precision behind its dot. -/
def precisionBytes : Option (List UInt8) → List UInt8
  | none => []
  | some p => chr '.' :: p

def Modifiers.bytes (m : Modifiers) : List UInt8 := m.flag.toList ++ (m.width ++ precisionBytes m.precision)

/-- `%[flag]digits[.digits]conv`. -/
structure Spec where
  mods : Modifiers
  conv : Conv

def Spec.bytes (s : Spec) : List UInt8 := chr '%' :: (s.mods.bytes ++ s.conv.text)

/-- A piece of a format. -/
inductive Piece where
  | lit (c : UInt8) (h : c ≠ chr '%')
  | percent
  | str
  | conv (s : Spec)

def Piece.bytes : Piece → List UInt8
  | .lit c _ => [c]
  | .percent => ascii "%%"
  | .str => ascii "%s"
  | .conv s => s.bytes

/-- What a piece stores. -/
def Piece.kinds : Piece → List Kind
  | .lit _ _ => []
  | .percent => []
  | .str => [.string]
  | .conv s => [s.conv.kind]

/-- What the decoder makes of a piece. -/
def Piece.token : Piece → Token
  | .lit c _ => .lit c
  | .percent => .percent
  | .str => .conv .string (ascii "%s")
  | .conv s => .conv s.conv.kind s.bytes

/-- The type an argument of kind `k` is passed with. -/
def Kind.Accepts : Kind → Arg → Prop
  | .byte, .int _ | .word, .int _ | .int, .int _ => True
  | .double, .double _ => True
  | .ptr, .ptr _ => True
  | .string, .str _ => True
  | .long64, .longLong _ => True
  | _, _ => False

/-- The arguments match the pieces. -/
def Matches (ps : List Piece) (args : List Arg) : Prop :=
  List.Forall₂ Kind.Accepts (ps.flatMap Piece.kinds) args

/-- The text `printf` makes of the pieces and the arguments. -/
def immediate (sprintf : List UInt8 → Arg → List UInt8) : List Piece → List Arg → List UInt8
  | [], _ => []
  | .lit c _ :: ps, args => c :: immediate sprintf ps args
  | .percent :: ps, args => chr '%' :: immediate sprintf ps args
  | .str :: ps, a :: args => sprintf (ascii "%s") a ++ immediate sprintf ps args
  | .conv s :: ps, a :: args => sprintf s.bytes a ++ immediate sprintf ps args
  | .str :: _, [] => []
  | .conv _ :: _, [] => []

/-! ### Both scanners find the pieces -/

theorem span_digits {ds t : List UInt8} (hd : ∀ c ∈ ds, isdigit c) (ht : isdigit (t.getD 0 0) = false) :
    (ds ++ t).takeWhile isdigit = ds ∧ (ds ++ t).dropWhile isdigit = t := by
  rw [List.takeWhile_append_of_pos (by simpa using hd), List.dropWhile_append_of_pos (by simpa using hd)]
  cases t with
  | nil => exact ⟨List.append_nil ds, rfl⟩
  | cons c t =>
    have hc : isdigit c = false := ht
    rw [List.takeWhile_cons_of_neg (by simp [hc]), List.dropWhile_cons_of_neg (by simp [hc])]
    exact ⟨List.append_nil ds, rfl⟩

theorem takeWhile_digits {ds t : List UInt8} (hd : ∀ c ∈ ds, isdigit c) (ht : isdigit (t.getD 0 0) = false) :
    ((ds ++ t).takeWhile isdigit).length = ds.length := by
  rw [(span_digits hd ht).1]

theorem getD_append_length (l t : List UInt8) : (l ++ t).getD l.length 0 = t.getD 0 0 := by
  rw [List.getD_eq_getElem?_getD, List.getD_eq_getElem?_getD, List.getElem?_append_right le_rfl,
    Nat.sub_self]

/-- The first character of a conversion. -/
def Conv.head (k : Conv) : UInt8 := k.text.getD 0 0

theorem Conv.getD_head (k : Conv) (rest : List UInt8) : (k.text ++ rest).getD 0 0 = k.head := by
  cases k <;> rfl

theorem Conv.head_ok (k : Conv) : isFlag k.head = false ∧ isdigit k.head = false ∧ k.head ≠ chr '.' := by
  cases k <;> decide

/-- The characters of the flag and of the width at the start of `s`. -/
def flagAndWidth (s : List UInt8) : ℕ :=
  let flag := if isFlag (s.getD 0 0) then 1 else 0
  flag + ((s.drop flag).takeWhile isdigit).length

/-- Behind the flag and the width the decoder stands on the dot or on the
conversion. -/
theorem flagAndWidth_eq {F W t : List UInt8} (hF : F.length ≤ 1) (hflag : ∀ c ∈ F, isFlag c)
    (hW : ∀ c ∈ W, isdigit c) (ht1 : isFlag (t.getD 0 0) = false) (ht2 : isdigit (t.getD 0 0) = false) :
    flagAndWidth (F ++ (W ++ t)) = F.length + W.length := by
  unfold flagAndWidth
  rcases F with _ | ⟨f, F⟩
  · rcases W with _ | ⟨w, ws⟩
    · have h1 := takeWhile_digits (t := t) (List.forall_mem_nil _) ht2
      simp only [List.nil_append, ht1, Bool.false_eq_true, if_false, List.drop_zero] at h1 ⊢
      rw [h1, Nat.zero_add]
      rfl
    · by_cases hw : isFlag w = true
      · -- a width that starts with `0`: the zero is taken as the flag
        have hws : ∀ c ∈ ws, isdigit c := fun c hc => hW c (List.mem_cons_of_mem _ hc)
        have h1 := takeWhile_digits hws ht2
        simp only [List.nil_append, List.cons_append, List.getD_cons_zero, hw, if_true,
          List.drop_succ_cons, List.drop_zero, h1, List.length_nil, List.length_cons]
        exact Nat.add_comm 1 _ |>.trans (Nat.zero_add _).symm
      · have h1 := takeWhile_digits hW ht2
        simp only [List.nil_append, List.cons_append, List.getD_cons_zero, hw] at h1 ⊢
        simpa using h1
  · obtain rfl : F = [] := by simpa using hF
    have h1 := takeWhile_digits hW ht2
    simp only [List.cons_append, List.nil_append, List.getD_cons_zero, hflag f List.mem_cons_self, if_true,
      List.drop_succ_cons, List.drop_zero, h1, List.length_cons, List.length_nil, Nat.zero_add]

theorem modifiers_flagAndWidth (s : List UInt8) :
    modifiers s =
      let dot := if s.getD (flagAndWidth s) 0 = chr '.' then flagAndWidth s + 1 else flagAndWidth s
      dot + ((s.drop dot).takeWhile isdigit).length := rfl

/-- The decoder passes over exactly a flag, a width and a precision, in front of a
character that is none of them. -/
theorem modifiers_mods (m : Modifiers) {t : List UInt8} (ht1 : isFlag (t.getD 0 0) = false)
    (ht2 : isdigit (t.getD 0 0) = false) (ht3 : t.getD 0 0 ≠ chr '.') :
    modifiers (m.bytes ++ t) = m.bytes.length := by
  obtain ⟨flag, hflag, width, hwidth, -, precision, hprecision, -⟩ := m
  have hF : flag.toList.length ≤ 1 := by cases flag <;> simp
  have hflag' : ∀ c ∈ flag.toList, isFlag c := fun c hc => hflag c (by simpa using hc)
  rw [modifiers_flagAndWidth]
  unfold Modifiers.bytes precisionBytes
  cases precision with
  | none =>
    have hw := flagAndWidth_eq hF hflag' hwidth ht1 ht2
    simp only [List.append_nil, List.append_assoc] at hw ⊢
    rw [hw]
    have hget : (flag.toList ++ (width ++ t)).getD (flag.toList.length + width.length) 0 = t.getD 0 0 := by
      rw [← List.append_assoc, ← List.length_append, getD_append_length]
    have hdrop : (flag.toList ++ (width ++ t)).drop (flag.toList.length + width.length) = t := by
      rw [← List.append_assoc, ← List.length_append, List.drop_left]
    have h0 := takeWhile_digits (List.forall_mem_nil _) ht2
    rw [hget, if_neg ht3, hdrop, List.length_append]
    simpa using h0
  | some p =>
    have hdig : ∀ c ∈ p, isdigit c := hprecision p rfl
    have hw := flagAndWidth_eq (t := chr '.' :: (p ++ t)) hF hflag' hwidth rfl rfl
    simp only [List.append_assoc, List.cons_append] at hw ⊢
    rw [hw]
    have hget : (flag.toList ++ (width ++ chr '.' :: (p ++ t))).getD
        (flag.toList.length + width.length) 0 = chr '.' := by
      rw [← List.append_assoc, ← List.length_append, getD_append_length]
      rfl
    have hdrop : (flag.toList ++ (width ++ chr '.' :: (p ++ t))).drop
        (flag.toList.length + width.length + 1) = p ++ t := by
      rw [← List.append_assoc, ← List.length_append, ← List.drop_drop, List.drop_left]
      rfl
    rw [hget, if_pos rfl, hdrop, takeWhile_digits hdig ht2]
    simp only [List.length_append, List.length_cons]
    omega

/-- A zero that is taken for the flag does not change the width. -/
theorem digitsValue_zero {c : UInt8} (hflag : isFlag c) (hdigit : isdigit c) (ds : List UInt8) :
    digitsValue (c :: ds) = digitsValue ds := by
  simp only [isFlag, decide_eq_true_eq, List.mem_cons, List.not_mem_nil, or_false] at hflag
  rcases hflag with rfl | rfl | rfl | rfl | rfl
  · rfl
  all_goals exact absurd hdigit (by decide)

/-- A width and a precision that are `int`s do not make `sprintf` fail. -/
theorem Modifiers.overflows_eq (m : Modifiers) {t : List UInt8} (ht1 : isFlag (t.getD 0 0) = false)
    (ht2 : isdigit (t.getD 0 0) = false) (ht3 : t.getD 0 0 ≠ chr '.') :
    overflows (chr '%' :: (m.bytes ++ t)) = false := by
  obtain ⟨flag, hflag, width, hwidth, hwidth_lt, precision, hprecision, hprecision_lt⟩ := m
  -- what is behind the width: the precision, or the conversion
  obtain ⟨u, hbytes, hu1, hu2, hlt⟩ : ∃ u : List UInt8,
      precisionBytes precision ++ t = u ∧ isFlag (u.getD 0 0) = false ∧ isdigit (u.getD 0 0) = false ∧
        digitsValue (if u.getD 0 0 = chr '.' then (u.drop 1).takeWhile isdigit else []) < 2147483648 := by
    cases precision with
    | none => exact ⟨t, rfl, ht1, ht2, by rw [if_neg ht3]; decide⟩
    | some p =>
      refine ⟨chr '.' :: (p ++ t), rfl, rfl, rfl, ?_⟩
      have hp := (span_digits (hprecision p rfl) ht2).1
      rw [List.getD_cons_zero, if_pos rfl, List.drop_succ_cons, List.drop_zero, hp]
      exact hprecision_lt p rfl
  -- behind the flag, or a zero that is taken for it, stands a width with the same value
  obtain ⟨ws, hws, hvalue, hskip⟩ : ∃ ws : List UInt8,
      (∀ c ∈ ws, isdigit c) ∧ digitsValue ws = digitsValue width ∧
      (let s := flag.toList ++ (width ++ u); if isFlag (s.getD 0 0) then s.drop 1 else s) = ws ++ u := by
    cases flag with
    | some f =>
      have hf : isFlag f := hflag f rfl
      exact ⟨width, hwidth, rfl, by simp [hf]⟩
    | none =>
      cases width with
      | nil =>
        exact ⟨[], hwidth, rfl,
          if_neg (show ¬ isFlag (u.getD 0 0) = true by rw [hu1]; exact Bool.false_ne_true)⟩
      | cons c ws =>
        by_cases hc : isFlag c = true
        · have hdigit := hwidth c List.mem_cons_self
          exact ⟨ws, fun d hd => hwidth d (List.mem_cons_of_mem _ hd),
            (digitsValue_zero hc hdigit ws).symm, by simp [hc]⟩
        · exact ⟨c :: ws, hwidth, rfl, by simp [hc]⟩
  obtain ⟨htake, hdrop⟩ := span_digits hws hu2
  have hsplit : flag.toList ++ (width ++ precisionBytes precision) ++ t = flag.toList ++ (width ++ u) := by
    rw [← hbytes, List.append_assoc, List.append_assoc]
  unfold overflows Modifiers.bytes
  rw [hsplit]
  simp only [List.drop_succ_cons, List.drop_zero]
  simp only at hskip
  rw [hskip, htake, hdrop, hvalue, INT_MAX]
  simp only [Bool.or_eq_false_iff, decide_eq_false_iff_not]
  exact ⟨by omega, by omega⟩

/-- The decoder finds the conversion of a specification. -/
theorem conversion_spec (s : Spec) (rest : List UInt8) :
    conversion (s.mods.bytes ++ (s.conv.text ++ rest)) =
      some (.print s.conv.kind, (s.mods.bytes ++ s.conv.text).length) := by
  have hconv : decodeConv (s.conv.text ++ rest) = some (.print s.conv.kind, s.conv.text.length) := by
    cases s.conv <;> rfl
  obtain ⟨hc1, hc2, hc3⟩ := s.conv.head_ok
  rw [← s.conv.getD_head rest] at hc1 hc2 hc3
  unfold conversion
  rw [modifiers_mods s.mods hc1 hc2 hc3, List.drop_left, hconv, List.length_append]
  rfl

theorem Spec.not_fails (s : Spec) : (Token.conv s.conv.kind s.bytes).fails = false := by
  obtain ⟨hc1, hc2, hc3⟩ := s.conv.head_ok
  rw [Token.fails, Spec.bytes, s.mods.overflows_eq hc1 hc2 hc3, Bool.and_false]

/-- A conversion that starts right behind its `%`. -/
theorem conversion_bare {c : UInt8} {rest : List UInt8} (hf : isFlag c = false) (hd : isdigit c = false)
    (hdot : c ≠ chr '.') : conversion (c :: rest) = decodeConv (c :: rest) := by
  have hw : flagAndWidth (c :: rest) = 0 :=
    flagAndWidth_eq (F := []) (W := []) (t := c :: rest) (by simp) (by simp) (by simp) hf hd
  have hm : modifiers (c :: rest) = 0 := by
    rw [modifiers_flagAndWidth, hw]
    simp [hdot, hd]
  unfold conversion
  rw [hm, List.drop_zero]
  cases decodeConv (c :: rest) with
  | none => rfl
  | some r => simp

theorem decodeScan_percent {body rest : List UInt8}
    (h : conversion (body ++ rest) = some (.percent, body.length)) :
    decodeScan 0 (chr '%' :: (body ++ rest)) = .percent :: decodeScan 0 rest := by
  rw [decodeScan, if_pos rfl, h]
  simp only
  rw [decodeScan_drop, List.drop_left]

theorem decodeScan_print {body rest : List UInt8} {k : Kind}
    (h : conversion (body ++ rest) = some (.print k, body.length)) :
    decodeScan 0 (chr '%' :: (body ++ rest)) = .conv k (chr '%' :: body) :: decodeScan 0 rest := by
  rw [decodeScan, if_pos rfl, h]
  simp only
  rw [decodeScan_drop, List.take_left, List.drop_left]

/-- The decoder finds the pieces of a format. -/
theorem decodeScan_pieces : ∀ ps : List Piece,
    decodeScan 0 (ps.flatMap Piece.bytes) = ps.map Piece.token
  | [] => rfl
  | .lit c h :: ps => by
    rw [List.flatMap_cons, List.map_cons, ← decodeScan_pieces ps]
    simp only [Piece.bytes, Piece.token, List.cons_append, List.nil_append]
    rw [decodeScan, if_neg h]
  | .percent :: ps => by
    rw [List.flatMap_cons, List.map_cons, ← decodeScan_pieces ps]
    have hconv : conversion ([chr '%'] ++ ps.flatMap Piece.bytes) = _ := conversion_bare rfl rfl (by decide)
    exact decodeScan_percent hconv
  | .str :: ps => by
    rw [List.flatMap_cons, List.map_cons, ← decodeScan_pieces ps]
    have hconv : conversion ([chr 's'] ++ ps.flatMap Piece.bytes) = _ := conversion_bare rfl rfl (by decide)
    exact decodeScan_print hconv
  | .conv s :: ps => by
    have hconv := conversion_spec s (ps.flatMap Piece.bytes)
    rw [List.flatMap_cons, List.map_cons, ← decodeScan_pieces ps]
    simp only [Piece.bytes, Piece.token, Spec.bytes, List.cons_append]
    refine decodeScan_print ?_
    rw [List.append_assoc]
    exact hconv

theorem encodeScan_inside : ∀ {m : List UInt8} (t : List UInt8),
    (∀ c ∈ m, staysInside c ∧ c ≠ chr '%') → encodeScan true (m ++ t) = encodeScan true t
  | [], _, _ => rfl
  | c :: m, t, h => by
    obtain ⟨h1, h2⟩ := h c List.mem_cons_self
    rw [List.cons_append, encodeScan, if_neg h2, if_pos rfl, if_pos h1]
    exact encodeScan_inside t fun c hc => h c (List.mem_cons_of_mem _ hc)

theorem staysInside_of_digit {c : UInt8} (h : isdigit c) : staysInside c ∧ c ≠ chr '%' := by
  refine ⟨by simp [staysInside, h], ?_⟩
  rintro rfl
  exact absurd h (by decide)

theorem staysInside_of_flag {c : UInt8} (h : isFlag c) : staysInside c ∧ c ≠ chr '%' := by
  simp only [isFlag, decide_eq_true_eq, List.mem_cons, List.not_mem_nil, or_false] at h
  rcases h with rfl | rfl | rfl | rfl | rfl <;> decide

theorem Modifiers.inside (m : Modifiers) : ∀ c ∈ m.bytes, staysInside c ∧ c ≠ chr '%' := by
  obtain ⟨flag, hflag, width, hwidth, -, precision, hprecision, -⟩ := m
  intro c hc
  rcases List.mem_append.mp hc with hc | hc
  · exact staysInside_of_flag (hflag c (by simpa using hc))
  rcases List.mem_append.mp hc with hc | hc
  · exact staysInside_of_digit (hwidth c hc)
  cases precision with
  | none => exact absurd hc List.not_mem_nil
  | some p =>
    rcases List.mem_cons.mp hc with rfl | hc
    · decide
    · exact staysInside_of_digit (hprecision p rfl c hc)

/-- The encoder stores the kinds of the pieces, and reads to the end. -/
theorem encodeScan_pieces : ∀ ps : List Piece,
    encodeScan false (ps.flatMap Piece.bytes) = (ps.flatMap Piece.kinds, true)
  | [] => rfl
  | .lit c h :: ps => by
    rw [List.flatMap_cons, List.flatMap_cons]
    simp only [Piece.bytes, Piece.kinds, List.cons_append, List.nil_append]
    rw [encodeScan_false_cons h, encodeScan_pieces ps]
  | .percent :: ps => by
    rw [List.flatMap_cons, List.flatMap_cons]
    exact encodeScan_pieces ps
  | .str :: ps => by
    have ih := encodeScan_pieces ps
    rw [List.flatMap_cons, List.flatMap_cons]
    have h : encodeScan false (Piece.str.bytes ++ ps.flatMap Piece.bytes) =
        (.string :: (encodeScan false (ps.flatMap Piece.bytes)).1,
          (encodeScan false (ps.flatMap Piece.bytes)).2) := rfl
    rw [h, ih]
    rfl
  | .conv s :: ps => by
    have ih := encodeScan_pieces ps
    have h : encodeScan true (s.conv.text ++ ps.flatMap Piece.bytes) =
        (s.conv.kind :: (encodeScan false (ps.flatMap Piece.bytes)).1,
          (encodeScan false (ps.flatMap Piece.bytes)).2) := by
      cases s.conv <;> rfl
    rw [List.flatMap_cons, List.flatMap_cons]
    simp only [Piece.bytes, Piece.kinds, Spec.bytes, List.cons_append, List.append_assoc]
    rw [encodeScan, if_pos rfl, Bool.not_false, encodeScan_inside _ s.mods.inside, h, ih]
    rfl

/-! ### A value is read back from where it was stored -/

theorem memGet_append (pre b post : List UInt8) :
    memGet b.length (pre ++ (b ++ post)) pre.length = .ok (leNat b) := by
  unfold memGet
  rw [if_pos (by simp), List.drop_left, List.take_left]

theorem memGet_leBytes (pre post : List UInt8) (w v : ℕ) (hv : v < 256 ^ w) :
    memGet w (pre ++ (leBytes w v ++ post)) pre.length = .ok v := by
  have h := memGet_append pre (leBytes w v) post
  rwa [leBytes_length, leNat_leBytes, Nat.mod_eq_of_lt hv] at h

theorem memGetByte_memSetByte (pre post : List UInt8) (u : UInt8) :
    memGetByte (pre ++ (memSetByte u ++ post)) pre.length = .ok u := by
  have h : memGet 1 (pre ++ ([u] ++ post)) pre.length = .ok (leNat [u]) := memGet_append pre [u] post
  rw [memGetByte, memSetByte, h]
  simp [leNat]

theorem memGetWord_memSetWord (pre post : List UInt8) (u : UInt16) :
    memGetWord (pre ++ (memSetWord u ++ post)) pre.length = .ok u := by
  have h := memGet_leBytes pre post 2 u.toNat u.toNat_lt
  simp [memGetWord, memSetWord, h]

theorem memGetInt_memSetInt (pre post : List UInt8) (u : UInt32) :
    memGetInt (pre ++ (memSetInt u ++ post)) pre.length = .ok u := by
  have h := memGet_leBytes pre post 4 u.toNat u.toNat_lt
  simp [memGetInt, memSetInt, h]

/-- Doubles, pointers and 64-bit integers are stored alike. -/
theorem memGetLong64_memSetLong64 (pre post : List UInt8) (u : UInt64) :
    memGetLong64 (pre ++ (memSetLong64 u ++ post)) pre.length = .ok u := by
  have h := memGet_leBytes pre post 8 u.toNat u.toNat_lt
  simp [memGetLong64, memSetLong64, h]

/-- The value that is printed for an argument of kind `k`: what its bytes give
back. -/
def Kind.reread : Kind → Arg → Arg
  | .byte, .int v => .int v.toUInt8.toUInt32
  | .word, .int v => .int v.toUInt16.toUInt32
  | _, a => a

/-- An argument of the right type is stored, and printed as the value reread. -/
theorem Kind.print_stored (env : Env) (spec pre post : List UInt8) {k : Kind} {a : Arg} (hk : k ≠ .string)
    (ha : k.Accepts a) {b : List UInt8} (hb : k.store a = .ok b) :
    k.print env spec (pre ++ (b ++ post)) pre.length = .ok (env.sprintf spec (k.reread a), b.length) := by
  cases k <;> cases a <;> try exact ha.elim
  case string.str => exact absurd rfl hk
  case byte.int v =>
    obtain rfl : memSetByte v.toUInt8 = b := Except.ok.inj hb
    rw [Kind.print, memGetByte_memSetByte]
    rfl
  case word.int v =>
    obtain rfl : memSetWord v.toUInt16 = b := Except.ok.inj hb
    rw [Kind.print, memGetWord_memSetWord]
    rfl
  case int.int v =>
    obtain rfl : memSetInt v = b := Except.ok.inj hb
    rw [Kind.print, memGetInt_memSetInt]
    rfl
  case double.double v =>
    obtain rfl : memSetLong64 v = b := Except.ok.inj hb
    have h : memGetDouble (pre ++ (memSetLong64 v ++ post)) pre.length = .ok v :=
      memGetLong64_memSetLong64 pre post v
    rw [Kind.print, h]
    rfl
  case ptr.ptr v =>
    obtain rfl : memSetLong64 v = b := Except.ok.inj hb
    have h : memGetPtr (pre ++ (memSetLong64 v ++ post)) pre.length = .ok v :=
      memGetLong64_memSetLong64 pre post v
    rw [Kind.print, h]
    rfl
  case long64.longLong v =>
    obtain rfl : memSetLong64 v = b := Except.ok.inj hb
    rw [Kind.print, memGetLong64_memSetLong64]
    rfl

/-- A string that fits the limit is read up to its NUL. -/
theorem memGetString_append (post : List UInt8) : ∀ (s pre : List UInt8) (left : ℕ), 0 ∉ s → s.length ≤ left →
    pre.length + s.length < 4294967296 →
    memGetString (pre ++ (s ++ 0 :: post)) left pre.length = .ok s
  | [], pre, left, _, _, _ => by
    rw [memGetString.eq_def]
    cases left <;> simp
  | c :: s, pre, left + 1, hs, hle, hlt => by
    rw [List.mem_cons, not_or] at hs
    rw [List.length_cons] at hle hlt
    have ih := memGetString_append post s (pre ++ [c]) left hs.2 (Nat.le_of_succ_le_succ hle) (by
      rw [List.length_append, List.length_singleton]
      omega)
    rw [List.append_assoc, List.length_append, List.length_singleton, List.singleton_append] at ih
    have hget : (pre ++ (c :: s ++ 0 :: post)).getD pre.length 0 = c := by
      rw [getD_append_length]
      rfl
    have hpos : pre.length < (pre ++ (c :: s ++ 0 :: post)).length := by simp
    have hne : c ≠ 0 := Ne.symm hs.1
    rw [memGetString, if_pos hpos, hget]
    simp only [Loop.ok_bind, if_neg hne, u32_of_lt (show pre.length + 1 < 4294967296 by omega),
      List.cons_append, ih]
    rfl

/-- The text of a `%s` argument. -/
def stringText : Option CString → List UInt8
  | none => ascii "(null)"
  | some s => s.bytes

theorem memSetString_eq (s : Option CString) : memSetString s = stringText s ++ [0] := by
  cases s <;> rfl

theorem stringText_nul_free : ∀ s : Option CString, 0 ∉ stringText s
  | none => by decide
  | some s => s.nul_free

/-- Where the library prints a value of kind `k` the same as the value that is
read back. -/
structure Printf (sprintf : List UInt8 → Arg → List UInt8) : Prop where
  /-- `%c`, `%hd`, `%hhx` and so on convert the argument first. -/
  convert : ∀ (s : Spec) (a : Arg), sprintf s.bytes (s.conv.kind.reread a) = sprintf s.bytes a
  /-- `%s` prints the string. -/
  string : ∀ s : Option CString, sprintf (ascii "%s") (.str s) = stringText s

theorem indexInc_of_lt {index v : ℕ} (h : index + v < 4294967296) : indexInc index v = index + v :=
  u32_of_lt h

section Decode

variable (env : Env) (entry max : ℕ)

/-- A stored value of the grammar is printed, and the index moves behind its bytes. -/
theorem printStored_conv (s : Spec) (pre post : List UInt8) (out : Output) {a : Arg} {b : List UInt8}
    (h : Printf env.sprintf) (ha : s.conv.kind.Accepts a) (hb : s.conv.kind.store a = .ok b)
    (hlt : pre.length + b.length < 4294967296) :
    printStored env (pre ++ (b ++ post)) entry max s.conv.kind s.bytes pre.length out =
      .ok (.again ((pre ++ b).length, (Token.conv s.conv.kind s.bytes).printed
        (env.sprintf s.bytes a) out)) := by
  have hk := s.conv.kind_ne_string
  unfold printStored
  rw [if_neg hk, Kind.print_stored env s.bytes pre post hk ha hb, Loop.ok_bind, h.convert]
  simp only [Token.sprintf_eq hk, Token.print_of_not_fails s.not_fails, Loop.ok_bind, Loop.pure_eq_ok,
    indexInc_of_lt hlt, List.length_append]

/-- A stored string that ends before the limit is printed, and the index moves
behind its NUL. -/
theorem printStored_str (spec pre post : List UInt8) (out : Output) (s : Option CString)
    (hle : pre.length + (memSetString s).length ≤ max) (hmax : max < 2147483648) :
    printStored env (pre ++ (memSetString s ++ post)) entry max .string spec pre.length out =
      .ok (.again ((pre ++ memSetString s).length, out.put (stringText s))) := by
  rw [memSetString_eq, List.length_append, List.length_singleton] at hle
  have hleft : maxString max pre.length = max - pre.length - 1 := by
    have h1 : u32Sub max pre.length = max - pre.length := u32Sub_of_le (by omega) (by omega)
    unfold maxString
    rw [h1, u32Sub_of_le (by omega) (by omega)]
  have hget : memGetString (pre ++ ((stringText s ++ [0]) ++ post)) (max - pre.length - 1) pre.length =
      .ok (stringText s) := by
    rw [List.append_assoc, List.singleton_append]
    exact memGetString_append post _ pre _ (stringText_nul_free s) (by omega) (by omega)
  unfold printStored
  rw [if_pos rfl, hleft, memSetString_eq]
  simp only [hget, if_neg (show ¬ 2147483648 ≤ max - pre.length - 1 by omega), Loop.ok_bind, Loop.pure_eq_ok,
    indexInc_of_lt (show pre.length + ((stringText s).length + 1) < 4294967296 by omega),
    List.length_append, List.length_singleton]

end Decode

/-- The piece `t` prints `text` for a value whose stored bytes are `b`, wherever they lie
in front of the limit. -/
def Token.PrintsBack (env : Env) (b text : List UInt8) : Token → Prop
  | .lit c => b = [] ∧ text = [c]
  | .percent => b = [] ∧ text = [chr '%']
  | .conv k spec => spec.length ≤ 31 ∧
      ∀ entry max pre post out, pre.length + b.length ≤ max → max < 2147483648 →
        printStored env (pre ++ (b ++ post)) entry max k spec pre.length out =
          .ok (.again ((pre ++ b).length, (Token.conv k spec).printed text out))

/-- The first piece is printed, and the others go on behind its bytes. -/
theorem printAll_cons {env : Env} {t : Token} {b text : List UInt8} (h : t.PrintsBack env b text)
    {entry max : ℕ} {ts : List Token} {pre post : List UInt8} {out : Output}
    (hle : pre.length + b.length ≤ max) (hmax : max < 2147483648) :
    printAll env (pre ++ (b ++ post)) entry max (t :: ts) pre.length out =
      printAll env ((pre ++ b) ++ post) entry max ts (pre ++ b).length (t.printed text out) := by
  cases t with
  | lit c =>
    obtain ⟨rfl, rfl⟩ := h
    rw [List.append_nil]
    rfl
  | percent =>
    obtain ⟨rfl, rfl⟩ := h
    rw [List.append_nil]
    rfl
  | conv k spec =>
    obtain ⟨hlen, h⟩ := h
    rw [printAll, strlcpy_all hlen, Loop.ok_bind, h entry max pre post out hle hmax, Loop.ok_bind,
      List.append_assoc]

/-- What a call leaves that has printed `text` and ends at `index`. -/
def DecodeResult.printed (index : ℕ) (text : List UInt8) (out : Output) : DecodeResult :=
  ⟨0, index, (out.put text).nul, (out.put text).length⟩

theorem DecodeResult.printed_start (index : ℕ) (text front : List UInt8) :
    DecodeResult.printed index text (.start front) =
      ⟨0, index, ⟨front.length, front ++ text, [0]⟩, ((Output.start front).put text).length⟩ := by
  rw [DecodeResult.printed, (Output.tidy_start front).put_start]
  rfl

/-- A piece and the text behind it are one text. -/
theorem DecodeResult.printed_piece {out : Output} (h : out.Tidy) (t : Token) (index : ℕ)
    (text rest : List UInt8) :
    DecodeResult.printed index rest (t.printed text out) = DecodeResult.printed index (text ++ rest) out := by
  have htext : ((t.printed text out).put rest).text = (out.put (text ++ rest)).text := by
    rw [Output.put, Output.put, Token.printed_text, List.append_assoc]
  have hlength : ((t.printed text out).put rest).length = (out.put (text ++ rest)).length :=
    Output.length_congr (t.printed_start text out) htext
  unfold DecodeResult.printed
  rw [hlength, (t.printed_tidy h text).put_start, h.put_start, Token.printed_text, Token.printed_start,
    List.append_assoc]

/-- Printing the pieces prints what `printf` prints, and leaves the index behind
the stored bytes. -/
theorem printAll_pieces (env : Env) (h : Printf env.sprintf) (entry max : ℕ) (hmax : max < 2147483648)
    (post : List UInt8) : ∀ (ps : List Piece) (args : List Arg) (enc pre : List UInt8) (out : Output),
    (∀ s, .conv s ∈ ps → s.bytes.length ≤ 31) → Matches ps args →
    storeAll (ps.flatMap Piece.kinds) args = .ok enc → pre.length + enc.length ≤ max → out.Tidy →
    printAll env (pre ++ (enc ++ post)) entry max (ps.map Piece.token) pre.length out =
      .ok (.printed (pre.length + enc.length) (immediate env.sprintf ps args) out)
  | [], args, enc, pre, out, _, _, henc, _, _ => by
    obtain rfl : [] = enc := Except.ok.inj henc
    simp [printAll, immediate, DecodeResult.printed, Output.put]
  | .lit c hc :: ps, args, enc, pre, out, hlen, hm, henc, hle, htidy => by
    have ih := printAll_pieces env h entry max hmax post ps args enc pre (out.put [c])
      (fun s hs => hlen s (List.mem_cons_of_mem _ hs)) hm henc hle (htidy.put [c])
    exact ih.trans (congrArg Except.ok (DecodeResult.printed_piece htidy (.lit c) _ [c] _))
  | .percent :: ps, args, enc, pre, out, hlen, hm, henc, hle, htidy => by
    have ih := printAll_pieces env h entry max hmax post ps args enc pre (out.put [chr '%']).nul
      (fun s hs => hlen s (List.mem_cons_of_mem _ hs)) hm henc hle (htidy.put [chr '%']).nul
    exact ih.trans (congrArg Except.ok (DecodeResult.printed_piece htidy .percent _ [chr '%'] _))
  | .str :: ps, [], _, _, _, _, hm, _, _, _ => by cases hm
  | .str :: ps, a :: args, enc, pre, out, hlen, hm, henc, hle, htidy => by
    obtain ⟨ha, hargs⟩ := List.forall₂_cons.mp hm
    obtain ⟨s, rfl⟩ : ∃ s, a = .str s := by
      cases a <;> first | exact ⟨_, rfl⟩ | exact ha.elim
    obtain ⟨b, hb, henc⟩ := Loop.bind_eq_ok.mp henc
    obtain rfl : memSetString s = b := Except.ok.inj hb
    obtain ⟨enc', henc', henc⟩ := Loop.bind_eq_ok.mp henc
    obtain rfl : memSetString s ++ enc' = enc := Except.ok.inj henc
    have hback : Piece.str.token.PrintsBack env (memSetString s) (stringText s) :=
      ⟨by decide, fun entry max pre post out hle hmax =>
        printStored_str env entry max _ pre post out s hle hmax⟩
    rw [List.length_append] at hle
    have ih := printAll_pieces env h entry max hmax post ps args enc' (pre ++ memSetString s)
      (Piece.str.token.printed (stringText s) out)
        (fun s hs => hlen s (List.mem_cons_of_mem _ hs)) hargs henc'
      (by rw [List.length_append]; omega) (Token.printed_tidy htidy _ _)
    rw [List.map_cons, immediate, h.string, List.append_assoc, printAll_cons hback (by omega) hmax]
    rw [DecodeResult.printed_piece htidy] at ih
    simpa only [List.length_append, Nat.add_assoc] using ih
  | .conv s :: ps, [], _, _, _, _, hm, _, _, _ => by cases hm
  | .conv s :: ps, a :: args, enc, pre, out, hlen, hm, henc, hle, htidy => by
    obtain ⟨ha, hargs⟩ := List.forall₂_cons.mp hm
    obtain ⟨b, hb, henc⟩ := Loop.bind_eq_ok.mp henc
    obtain ⟨enc', henc', henc⟩ := Loop.bind_eq_ok.mp henc
    obtain rfl : b ++ enc' = enc := Except.ok.inj henc
    have hback : (Piece.conv s).token.PrintsBack env b (env.sprintf s.bytes a) :=
      ⟨hlen s List.mem_cons_self, fun entry max pre post out hle hmax =>
        printStored_conv env entry max s pre post out h ha hb (by omega)⟩
    rw [List.length_append] at hle
    have ih := printAll_pieces env h entry max hmax post ps args enc' (pre ++ b)
      ((Piece.conv s).token.printed (env.sprintf s.bytes a) out)
        (fun s hs => hlen s (List.mem_cons_of_mem _ hs)) hargs
      henc' (by rw [List.length_append]; omega) (Token.printed_tidy htidy _ _)
    rw [List.map_cons, immediate, List.append_assoc, printAll_cons hback (by omega) hmax]
    rw [DecodeResult.printed_piece htidy] at ih
    simpa only [List.length_append, Nat.add_assoc] using ih

theorem storeAll_of_accepts {ks : List Kind} {args : List Arg} (h : List.Forall₂ Kind.Accepts ks args) :
    ∃ enc, storeAll ks args = .ok enc := by
  induction h with
  | nil => exact ⟨[], rfl⟩
  | @cons k a ks args ha _ ih =>
    obtain ⟨enc, henc⟩ := ih
    obtain ⟨b, hb⟩ : ∃ b, k.store a = .ok b := by
      cases k <;> cases a <;> first | exact ⟨_, rfl⟩ | exact ha.elim
    exact ⟨b ++ enc, by simp [storeAll, hb, henc]⟩

/-! ### The round trip -/

/-- Encoding the arguments and decoding them in place, between any bytes, prints
`text`, behind whatever stands in front of it in the output buffer.
`outputStringMaxLength` is an `int`. -/
def RoundTrips (env : Env) (format : CString) (args : List Arg) (text : List UInt8) : Prop :=
  ∃ enc, encodeToArgsBuffer format args = .ok enc ∧
    ∀ pre post front : List UInt8, pre.length + enc.length < 2147483648 →
      decodeFromArgsBuffer env format (pre ++ (enc ++ post)) pre.length (pre.length + enc.length) front =
        .ok (.printed (pre.length + enc.length) text (.start front))

/-- Formats of the grammar round-trip to what `printf` prints. -/
theorem roundTrips_pieces (env : Env) (h : Printf env.sprintf) (ps : List Piece) (format : CString)
    (hformat : format.bytes = ps.flatMap Piece.bytes) (hlen : ∀ s, .conv s ∈ ps → s.bytes.length ≤ 31)
    (args : List Arg) (hargs : Matches ps args) :
    RoundTrips env format args (immediate env.sprintf ps args) := by
  obtain ⟨enc, henc⟩ := storeAll_of_accepts hargs
  refine ⟨enc, ?_, fun pre post front hlt => ?_⟩
  · rw [encodeToArgsBuffer_eq, hformat, encodeScan_pieces]
    simp [henc]
  · rw [decodeFromArgsBuffer_eq, hformat, decodeScan_pieces]
    exact printAll_pieces env h pre.length _ hlt post ps args enc pre (.start front) hlen hargs henc le_rfl
      (Output.tidy_start front)

/-- The decimal digits of an `int`. -/
def decimal (v : UInt32) : List UInt8 :=
  if v.toNat < 2147483648 then (Nat.toDigits 10 v.toNat).map chr
  else chr '-' :: (Nat.toDigits 10 (4294967296 - v.toNat)).map chr

/-- `sprintf` for the conversions `%d` and `%s`. -/
def sprintfDecimal (spec : List UInt8) : Arg → List UInt8
  | .int v => if spec = ascii "%d" then decimal v else []
  | .str s => stringText s
  | _ => []

theorem Spec.kind_of_bytes (s : Spec) {k : Kind} {bytes : List UInt8} (hs : s.bytes = bytes)
    (h : decodeScan 0 bytes = [.conv k bytes]) : s.conv.kind = k := by
  have hscan := decodeScan_pieces [.conv s]
  simp only [List.flatMap_cons, List.flatMap_nil, List.append_nil, Piece.bytes, List.map_cons, List.map_nil,
    Piece.token, hs, h] at hscan
  exact (Token.conv.inj (List.cons.inj hscan).1).1.symm

theorem printf_sprintfDecimal : Printf sprintfDecimal where
  convert s a := by
    by_cases hs : s.bytes = ascii "%d"
    · rw [s.kind_of_bytes (k := .int) hs (by decide)]
      rfl
    · cases s.conv.kind <;> cases a <;> simp [Kind.reread, sprintfDecimal, hs]
  string s := rfl

/-- A library for examples: the pointer to a format or a function name is looked
up in `strings`, and the time is not printed. -/
def exampleEnv (strings : UInt64 → CString) : Env :=
  { strings := strings, sprintf := sprintfDecimal, strftime := fun _ => [], scratch := fun _ => 0 }

end Memlog
