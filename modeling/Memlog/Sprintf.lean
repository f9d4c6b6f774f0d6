/-
# Long integers and padded strings

The encoder stores the low half of a `long`, and the decoder prints a string
without its width and its precision. So a text with such conversions is printed as
`sprintf` prints it where every `long` comes back from its low half, and every string is
what its width and its precision leave of it (`Item.Kept`); where a single
conversion is not kept, it is not (`prints_like_sprintf`).

The C library enters as `Sprintf64`: an `int` in the place of a `long` is read as some
`long` with that low half, different `long`s are printed differently, and a string is
cut to its precision and filled up with blanks to its width.

Key definitions: `Item`, `Modifiers.padded`, `Item.Kept`.
-/
import Memlog.Deferred

namespace Memlog

open ByteCodec

/-! ### The grammar -/

/-- The conversions of a `long`. -/
inductive LongConv where
  | ld | li | lu | lx | lX
deriving DecidableEq, Repr

def LongConv.text : LongConv → List UInt8
  | .ld => ascii "ld" | .li => ascii "li" | .lu => ascii "lu" | .lx => ascii "lx" | .lX => ascii "lX"

/-- `%[flag]digits[.digits]ld` and so on. -/
def longSpec (m : Modifiers) (k : LongConv) : List UInt8 := chr '%' :: (m.bytes ++ k.text)

/-- `%[-]digits[.digits]s`. -/
def strSpec (m : Modifiers) : List UInt8 := chr '%' :: (m.bytes ++ ascii "s")

/-- A piece of a format, with its argument. -/
inductive Item where
  | lit (c : UInt8) (h : c ≠ chr '%')
  | long (m : Modifiers) (k : LongConv) (v : UInt64)
  | str (m : Modifiers) (h : ∀ f ∈ m.flag, f = chr '-') (s : CString)

namespace Item

def bytes : Item → List UInt8
  | .lit c _ => [c]
  | .long m k _ => longSpec m k
  | .str m _ _ => strSpec m

def args : Item → List Arg
  | .lit _ _ => []
  | .long _ _ v => [.long v]
  | .str _ _ s => [.str (some s)]

/-- The text that `sprintf` makes of a piece. -/
def text (sprintf : List UInt8 → Arg → List UInt8) : Item → List UInt8
  | .lit c _ => [c]
  | .long m k v => sprintf (longSpec m k) (.long v)
  | .str m _ s => sprintf (strSpec m) (.str (some s))

/-- The text that the decoder makes of what the encoder stored. -/
def decoded (sprintf : List UInt8 → Arg → List UInt8) : Item → List UInt8
  | .lit c _ => [c]
  | .long m k v => sprintf (longSpec m k) (.int v.toUInt32)
  | .str _ _ s => s.bytes

/-- What a piece stores. -/
def stored : Item → List UInt8
  | .lit _ _ => []
  | .long _ _ v => memSetInt v.toUInt32
  | .str _ _ s => memSetString (some s)

def kinds : Item → List Kind
  | .lit _ _ => []
  | .long _ _ _ => [.int]
  | .str _ _ _ => [.string]

/-- What the decoder makes of a piece. -/
def token : Item → Token
  | .lit c _ => .lit c
  | .long m k _ => .conv .int (longSpec m k)
  | .str m _ _ => .conv .string (strSpec m)

end Item

/-! ### Both scanners find the pieces -/

theorem decodeScan_items (items : List Item) :
    decodeScan 0 (items.flatMap Item.bytes) = items.map Item.token := by
  induction items with
  | nil => rfl
  | cons item items ih =>
    rw [List.flatMap_cons, List.map_cons, ← ih]
    have hconv : ∀ (m : Modifiers) (t : List UInt8) (k : Kind), isFlag (t.getD 0 0) = false →
        isdigit (t.getD 0 0) = false → t.getD 0 0 ≠ chr '.' →
        decodeConv (t ++ items.flatMap Item.bytes) = some (.print k, t.length) →
        (t ++ items.flatMap Item.bytes).getD 0 0 = t.getD 0 0 →
        decodeScan 0 (chr '%' :: ((m.bytes ++ t) ++ items.flatMap Item.bytes)) =
          .conv k (chr '%' :: (m.bytes ++ t)) :: decodeScan 0 (items.flatMap Item.bytes) := by
      intro m t k h1 h2 h3 hdec hget
      apply decodeScan_print
      have hmods := modifiers_mods m (by rw [hget]; exact h1) (by rw [hget]; exact h2)
        (by rw [hget]; exact h3)
      unfold conversion
      rw [List.append_assoc, hmods, List.drop_left, hdec, List.length_append]
      rfl
    cases item with
    | lit c h =>
      simp only [Item.bytes, Item.token, List.cons_append, List.nil_append]
      rw [decodeScan, if_neg h]
    | long m k v =>
      cases k <;> exact hconv m _ .int rfl rfl (by decide) rfl rfl
    | str m h s => exact hconv m _ .string rfl rfl (by decide) rfl rfl

theorem encodeScan_items (items : List Item) :
    encodeScan false (items.flatMap Item.bytes) = (items.flatMap Item.kinds, true) := by
  induction items with
  | nil => rfl
  | cons item items ih =>
    rw [List.flatMap_cons, List.flatMap_cons]
    have hconv : ∀ (m : Modifiers) (t : List UInt8) (k : Kind),
        encodeScan true (t ++ items.flatMap Item.bytes) =
          (k :: (encodeScan false (items.flatMap Item.bytes)).1,
          (encodeScan false (items.flatMap Item.bytes)).2) →
        encodeScan false (chr '%' :: (m.bytes ++ t) ++ items.flatMap Item.bytes) =
          ([k] ++ items.flatMap Item.kinds, true) := by
      intro m t k h
      rw [List.cons_append, encodeScan, if_pos rfl, Bool.not_false, List.append_assoc,
        encodeScan_inside _ m.inside, h, ih]
      rfl
    cases item with
    | lit c h =>
      simp only [Item.bytes, Item.kinds, List.cons_append, List.nil_append]
      rw [encodeScan_false_cons h, ih]
    | long m k v =>
      apply hconv
      cases k <;> rfl
    | str m h s => exact hconv m _ .string rfl

/-! ### What is printed -/

section Decode

variable (env : Env)

theorem storeAll_items (items : List Item) :
    storeAll (items.flatMap Item.kinds) (items.flatMap Item.args) = .ok (items.flatMap Item.stored) := by
  induction items with
  | nil => rfl
  | cons item items ih =>
    rw [List.flatMap_cons, List.flatMap_cons, List.flatMap_cons]
    cases item with
    | lit c h => exact ih
    | long m k v =>
      simp only [Item.kinds, Item.args, Item.stored, List.cons_append, List.nil_append, storeAll, ih,
        Kind.store, vaInt, Loop.ok_bind, Loop.pure_eq_ok]
    | str m h s =>
      simp only [Item.kinds, Item.args, Item.stored, List.cons_append, List.nil_append, storeAll,
        ih, Kind.store, vaString, Loop.ok_bind, Loop.pure_eq_ok]

theorem longSpec_not_fails (m : Modifiers) (k : LongConv) :
    (Token.conv .int (longSpec m k)).fails = false := by
  have hconv : isFlag (k.text.getD 0 0) = false ∧ isdigit (k.text.getD 0 0) = false ∧
      k.text.getD 0 0 ≠ chr '.' := by
    cases k <;> decide
  rw [Token.fails, longSpec, m.overflows_eq hconv.1 hconv.2.1 hconv.2.2, Bool.and_false]

theorem Item.printsBack {item : Item} (hlen : item.bytes.length ≤ 31) :
    item.token.PrintsBack env item.stored (item.decoded env.sprintf) := by
  cases item with
  | lit c h => exact ⟨rfl, rfl⟩
  | long m k v =>
    refine ⟨hlen, fun entry max pre post out hle hmax => ?_⟩
    have hstore : Kind.int.store (.int v.toUInt32) = .ok (memSetInt v.toUInt32) := by
      rw [Kind.store, vaInt, Loop.ok_bind, Loop.pure_eq_ok]
    have hprint := Kind.print_stored env (longSpec m k) pre post (show Kind.int ≠ .string by decide)
      (show Kind.int.Accepts (.int v.toUInt32) from trivial) hstore
    have hwidth : pre.length + (memSetInt v.toUInt32).length < 4294967296 := by
      rw [Item.stored] at hle
      omega
    unfold printStored
    rw [if_neg (by decide), Item.stored, hprint, Loop.ok_bind]
    simp only [Token.sprintf_eq (show Kind.int ≠ .string by decide),
      Token.print_of_not_fails (longSpec_not_fails m k),
      Loop.ok_bind, Loop.pure_eq_ok, indexInc_of_lt hwidth, Kind.reread, Item.decoded, List.length_append]
  | str m h s =>
    refine ⟨hlen, fun entry max pre post out hle hmax => ?_⟩
    rw [Item.stored] at hle ⊢
    rw [printStored_str env entry max (strSpec m) pre post out (some s) hle hmax]
    rfl

theorem printAll_items (entry max : ℕ) (hmax : max < 2147483648) (post : List UInt8) (items : List Item) :
    ∀ (pre : List UInt8) (out : Output), (∀ item ∈ items, item.bytes.length ≤ 31) →
      pre.length + (items.flatMap Item.stored).length ≤ max → out.Tidy →
      printAll env (pre ++ (items.flatMap Item.stored ++ post)) entry max
        (items.map Item.token) pre.length out =
        .ok (.printed (pre.length + (items.flatMap Item.stored).length)
          (items.flatMap (Item.decoded env.sprintf)) out) := by
  induction items with
  | nil =>
    intro pre out _ _ _
    simp [printAll, DecodeResult.printed, Output.put]
  | cons item items ih =>
    intro pre out hlen hle htidy
    simp only [List.flatMap_cons, List.length_append, List.append_assoc] at hle ⊢
    rw [List.map_cons, printAll_cons (Item.printsBack env (hlen item List.mem_cons_self)) (by omega) hmax]
    refine (ih (pre ++ item.stored) _ (fun x hx => hlen x (List.mem_cons_of_mem _ hx)) ?_
      (Token.printed_tidy htidy _ _)).trans ?_
    · rw [List.length_append]
      omega
    · rw [DecodeResult.printed_piece htidy, List.length_append, Nat.add_assoc]

theorem decode_items (items : List Item) (format : CString)
    (hformat : format.bytes = items.flatMap Item.bytes)
    (hlen : ∀ item ∈ items, item.bytes.length ≤ 31) :
    RoundTrips env format (items.flatMap Item.args) (items.flatMap (Item.decoded env.sprintf)) := by
  refine ⟨items.flatMap Item.stored, ?_, fun pre post front hlt => ?_⟩
  · rw [encodeToArgsBuffer_eq, hformat, encodeScan_items, storeAll_items, Loop.ok_bind, if_pos rfl]
    rfl
  · rw [decodeFromArgsBuffer_eq, hformat, decodeScan_items]
    exact printAll_items env pre.length _ hlt post items pre (.start front) hlen (Nat.le_refl _)
      (Output.tidy_start front)

end Decode

/-- Arguments that fit an index of the decoder print one text. -/
theorem RoundTrips.unique {env : Env} {format : CString} {args : List Arg} {text text' enc : List UInt8}
    (h : RoundTrips env format args text) (h' : RoundTrips env format args text')
    (henc : encodeToArgsBuffer format args = .ok enc) (hlt : enc.length < 2147483648) : text = text' := by
  obtain ⟨enc1, henc1, hdec⟩ := h
  obtain ⟨enc2, henc2, hdec'⟩ := h'
  obtain rfl := Except.ok.inj (henc.symm.trans henc1)
  obtain rfl := Except.ok.inj (henc.symm.trans henc2)
  have hlt' : ([] : List UInt8).length + enc.length < 2147483648 := by rwa [List.length_nil, Nat.zero_add]
  have heq := Except.ok.inj ((hdec [] [] [] hlt').symm.trans (hdec' [] [] [] hlt'))
  exact congrArg (fun r : DecodeResult => r.outputString.text) heq

/-! ### What `sprintf` prints -/

/-- A string under a width and a precision: cut to the precision, and filled up with
blanks to the width, in front of it or, with a `-`, behind it. -/
def Modifiers.padded (m : Modifiers) (s : List UInt8) : List UInt8 :=
  let cut := match m.precision with
    | none => s
    | some p => s.take (digitsValue p)
  let fill := List.replicate (digitsValue m.width - cut.length) (chr ' ')
  if m.flag = some (chr '-') then cut ++ fill else fill ++ cut

/-- A C library on a target with 64-bit `long`s, where an argument that was passed as
an `int` is read as the `long` that `widen` makes of it. -/
structure Sprintf64 (sprintf : List UInt8 → Arg → List UInt8) (widen : UInt32 → UInt64) : Prop where
  /-- The `int` is the low half. -/
  low : ∀ v, (widen v).toUInt32 = v
  /-- An `int` read as a `long`. -/
  int : ∀ m k (v : UInt32), sprintf (longSpec m k) (.int v) = sprintf (longSpec m k) (.long (widen v))
  /-- The text of a `long` tells its value. -/
  injective : ∀ m k v w, sprintf (longSpec m k) (.long v) = sprintf (longSpec m k) (.long w) → v = w
  /-- A string is padded. -/
  string : ∀ m (s : CString), (∀ f ∈ m.flag, f = chr '-') →
    sprintf (strSpec m) (.str (some s)) = m.padded s.bytes

/-- The width and the precision leave the string as it is: it is not shorter than the
width, and not longer than the precision, unless what is cut off comes back as blanks. -/
def Modifiers.Leaves (m : Modifiers) (s : List UInt8) : Prop :=
  digitsValue m.width ≤ s.length ∧ ∀ p ∈ m.precision, s.length ≤ digitsValue p ∨
    (s.length = digitsValue m.width ∧
      ∀ c ∈ if m.flag = some (chr '-') then s.drop (digitsValue p) else s, c = chr ' ')

/-- The argument survives: a `long` is what is made of its low half, and a string is
left as it is. -/
def Item.Kept (widen : UInt32 → UInt64) : Item → Prop
  | .lit _ _ => True
  | .long _ _ v => v = widen v.toUInt32
  | .str m _ s => m.Leaves s.bytes

/-- A list that is blanks in front of its own beginning is blanks. -/
theorem forall_blank {α : Type} {a : α} {k n : ℕ} {s : List α} (hk : 0 < k)
    (h : List.replicate k a ++ s.take n = s) :
    ∀ c ∈ s, c = a := by
  have hget : ∀ i, i < s.length → s[i]? = some a := by
    intro i
    induction i using Nat.strong_induction_on with
    | _ i ih =>
      intro hi
      rw [← h]
      rcases Nat.lt_or_ge i k with hlt | hge
      · rw [List.getElem?_append_left (by simpa using hlt), List.getElem?_replicate, if_pos hlt]
      · have hprev := ih (i - k) (by omega) (by omega)
        have hlen := congrArg List.length h
        rw [List.length_append, List.length_replicate, List.length_take] at hlen
        rw [List.getElem?_append_right (by simpa using hge), List.length_replicate,
          List.getElem?_take, if_pos (by omega), hprev]
  intro c hc
  obtain ⟨i, hi, rfl⟩ := List.getElem_of_mem hc
  have hsome := hget i hi
  rw [List.getElem?_eq_getElem hi] at hsome
  exact Option.some.inj hsome

/-- Nothing is cut off: the width alone decides. -/
theorem fill_eq_iff {w : ℕ} {b : Bool} {s : List UInt8} :
    (if b then s ++ List.replicate (w - s.length) (chr ' ')
      else List.replicate (w - s.length) (chr ' ') ++ s) = s ↔ w ≤ s.length := by
  constructor
  · intro h
    have hlen := congrArg List.length h
    split at hlen <;> rw [List.length_append, List.length_replicate] at hlen <;> omega
  · intro h
    rw [Nat.sub_eq_zero_of_le h, List.replicate_zero, List.append_nil, List.nil_append, ite_self]

/-- Something is cut off: it has to come back as blanks. -/
theorem cut_fill_eq_iff {w n : ℕ} {b : Bool} {s : List UInt8} (hn : n < s.length) :
    (if b then s.take n ++ List.replicate (w - (s.take n).length) (chr ' ')
      else List.replicate (w - (s.take n).length) (chr ' ') ++ s.take n) = s ↔
      s.length = w ∧ ∀ c ∈ if b then s.drop n else s, c = chr ' ' := by
  rw [List.length_take_of_le hn.le]
  constructor
  · intro h
    have hlen := congrArg List.length h
    have hw : s.length = w := by
      split at hlen <;> rw [List.length_append, List.length_replicate,
        List.length_take_of_le hn.le] at hlen <;> omega
    refine ⟨hw, ?_⟩
    cases b with
    | true =>
      rw [if_pos rfl] at h ⊢
      have hsplit : s.take n ++ List.replicate (w - n) (chr ' ') = s.take n ++ s.drop n := by
        rw [h, List.take_append_drop]
      rw [← List.append_cancel_left hsplit]
      exact fun c hc => List.eq_of_mem_replicate hc
    | false =>
      rw [if_neg Bool.false_ne_true] at h ⊢
      exact forall_blank (by omega) h
  · rintro ⟨hw, hblank⟩
    cases b with
    | true =>
      rw [if_pos rfl] at hblank ⊢
      have hdrop : s.drop n = List.replicate (w - n) (chr ' ') :=
        List.eq_replicate_iff.mpr ⟨by rw [List.length_drop, hw], hblank⟩
      rw [← hdrop, List.take_append_drop]
    | false =>
      rw [if_neg Bool.false_ne_true] at hblank ⊢
      have hs : s = List.replicate s.length (chr ' ') := List.eq_replicate_iff.mpr ⟨rfl, hblank⟩
      have hsum : w - n + n = s.length := by omega
      conv_rhs => rw [hs, ← hsum, ← List.replicate_append_replicate]
      rw [hs, List.take_replicate, Nat.min_eq_left hn.le]

/-- **What `sprintf` leaves as it is.** -/
theorem Modifiers.padded_eq_iff (m : Modifiers) (s : List UInt8) : m.padded s = s ↔ m.Leaves s := by
  have hminus : ∀ l l' : List UInt8, (if m.flag = some (chr '-') then l else l') =
      if decide (m.flag = some (chr '-')) then l else l' := fun l l' => by simp
  unfold padded Leaves
  rw [hminus]
  cases hp : m.precision with
  | none =>
    simp only [Option.mem_def, reduceCtorEq, false_implies, implies_true, and_true]
    exact fill_eq_iff
  | some p =>
    simp only [Option.mem_def, Option.some.injEq, forall_eq']
    rcases Nat.lt_or_ge (digitsValue p) s.length with hcut | hle
    · rw [cut_fill_eq_iff hcut, ← hminus]
      constructor
      · rintro ⟨hw, hblank⟩
        exact ⟨hw.ge, .inr ⟨hw, hblank⟩⟩
      · rintro ⟨-, hle | ⟨hw, hblank⟩⟩
        · omega
        · exact ⟨hw, hblank⟩
    · rw [List.take_of_length_le hle, fill_eq_iff]
      exact ⟨fun hw => ⟨hw, .inl hle⟩, fun h => h.1⟩

theorem Item.decoded_eq_iff {sprintf : List UInt8 → Arg → List UInt8} {widen : UInt32 → UInt64}
    (h : Sprintf64 sprintf widen) (item : Item) :
    item.decoded sprintf = item.text sprintf ↔ item.Kept widen := by
  cases item with
  | lit c hc => exact iff_of_true rfl trivial
  | long m k v =>
    rw [decoded, text, h.int, Kept]
    exact ⟨fun heq => (h.injective _ _ _ _ heq).symm, fun hv => by rw [← hv]⟩
  | str m hflag s =>
    rw [decoded, text, h.string m s hflag, Kept, ← m.padded_eq_iff]
    exact eq_comm

/-- Of two `long`s with the same low half at most one is kept. -/
theorem Item.Kept.unique {widen : UInt32 → UInt64} {m m' : Modifiers} {k k' : LongConv}
    {v w : UInt64} (hv : (Item.long m k v).Kept widen) (hw : (Item.long m' k' w).Kept widen)
    (hlow : v.toUInt32 = w.toUInt32) :
    v = w := by
  rw [Kept] at hv hw
  rw [hv, hlow, ← hw]

theorem flatMap_decoded {sprintf : List UInt8 → Arg → List UInt8} {widen : UInt32 → UInt64}
    (h : Sprintf64 sprintf widen) {items : List Item} (hkept : ∀ item ∈ items, item.Kept widen) :
    items.flatMap (Item.decoded sprintf) = items.flatMap (Item.text sprintf) := by
  have hmap : items.map (Item.decoded sprintf) = items.map (Item.text sprintf) := by
    apply List.map_congr_left
    exact fun item hitem => (item.decoded_eq_iff h).mpr (hkept item hitem)
  rw [List.flatMap_def, hmap, ← List.flatMap_def]

/-- **Long integers and padded strings**: a format whose conversions are all kept is
printed as `sprintf` prints it, and one in which a single conversion is not kept is
not. -/
theorem prints_like_sprintf (env : Env) (widen : UInt32 → UInt64) (h : Sprintf64 env.sprintf widen)
    (items : List Item) (format : CString) (hformat : format.bytes = items.flatMap Item.bytes)
    (hlen : ∀ item ∈ items, item.bytes.length ≤ 31) :
    ((∀ item ∈ items, item.Kept widen) →
        RoundTrips env format (items.flatMap Item.args) (items.flatMap (Item.text env.sprintf))) ∧
      ∀ pre item post, items = pre ++ item :: post → (∀ other ∈ pre ++ post, other.Kept widen) →
        (items.flatMap Item.stored).length < 2147483648 →
        (RoundTrips env format (items.flatMap Item.args) (items.flatMap (Item.text env.sprintf)) ↔
          item.Kept widen) := by
  have hdec := decode_items env items format hformat hlen
  refine ⟨fun hkept => ?_, ?_⟩
  · rwa [← flatMap_decoded h hkept]
  intro pre item post hitems hkept hlt
  have hpre := flatMap_decoded h fun other hother => hkept other (List.mem_append_left _ hother)
  have hpost := flatMap_decoded h fun other hother => hkept other (List.mem_append_right _ hother)
  rw [← item.decoded_eq_iff h]
  constructor
  · intro htext
    have henc : encodeToArgsBuffer format (items.flatMap Item.args) = .ok (items.flatMap Item.stored) := by
      rw [encodeToArgsBuffer_eq, hformat, encodeScan_items, storeAll_items]
      rfl
    have heq := hdec.unique htext henc hlt
    simp only [hitems, List.flatMap_append, List.flatMap_cons, hpre, hpost] at heq
    exact List.append_cancel_right (List.append_cancel_left heq)
  · intro heq
    have hall : items.flatMap (Item.text env.sprintf) = items.flatMap (Item.decoded env.sprintf) := by
      simp only [hitems, List.flatMap_append, List.flatMap_cons, hpre, hpost, heq]
    rwa [hall]

/-! ### A library that prints `%lu` and `%s` -/

/-- The decimal digits of a `long`. -/
def decimal64 (v : UInt64) : List UInt8 := (Nat.toDigits 10 v.toNat).map chr

/-- Digits as bytes stand for the same number. -/
theorem digitsValue_toDigits (n : ℕ) : digitsValue ((Nat.toDigits 10 n).map chr) = n := by
  have hdigit : ∀ c ∈ Nat.toDigits 10 n, (chr c).toNat = c.toNat := by
    intro c hc
    have hd := Nat.isDigit_of_mem_toDigits (by decide) (by decide) hc
    simp only [Char.isDigit, Bool.and_eq_true, decide_eq_true_eq, ge_iff_le, UInt32.le_iff_toNat_le] at hd
    have h57 : c.toNat ≤ 57 := hd.2
    exact UInt8.toNat_ofNat_of_lt' (show c.toNat < 256 by omega)
  have hfold : ∀ (cs : List Char) (m : ℕ), (∀ c ∈ cs, (chr c).toNat = c.toNat) →
      (cs.map chr).foldl (fun n c => 10 * n + (c.toNat - 48)) m = Nat.ofDigitChars 10 cs m := by
    intro cs
    induction cs with
    | nil => exact fun m _ => rfl
    | cons c cs ih =>
      intro m hcs
      rw [List.map_cons, List.foldl_cons, Nat.ofDigitChars_cons,
        ih _ fun x hx => hcs x (List.mem_cons_of_mem _ hx), hcs c List.mem_cons_self]
      rfl
  calc digitsValue ((Nat.toDigits 10 n).map chr)
      = Nat.ofDigitChars 10 (Nat.toDigits 10 n) 0 := hfold _ 0 hdigit
    _ = n := Nat.ofDigitChars_ten_toDigits

/-- A string under a specification of `%s`. -/
def padSpec (spec s : List UInt8) : List UInt8 :=
  let minus := spec.getD 1 0 = chr '-'
  let mods := spec.drop (if minus then 2 else 1)
  let behind := mods.dropWhile isdigit
  let cut := if behind.getD 0 0 = chr '.' then s.take (digitsValue ((behind.drop 1).takeWhile isdigit)) else s
  let fill := List.replicate (digitsValue (mods.takeWhile isdigit) - cut.length) (chr ' ')
  if minus then cut ++ fill else fill ++ cut

/-- `sprintf` for the conversions of `unsigned long`s without modifiers and for
strings. -/
def sprintfLong (spec : List UInt8) : Arg → List UInt8
  | .long v => decimal64 v
  | .int v => decimal64 v.toUInt64
  | .str s => padSpec spec (stringText s)
  | _ => []

/-- A specification of `%s` behind its width. -/
def Modifiers.behind (m : Modifiers) : List UInt8 :=
  match m.precision with
  | none => ascii "s"
  | some p => chr '.' :: (p ++ ascii "s")

theorem strSpec_eq (m : Modifiers) : strSpec m = chr '%' :: (m.flag.toList ++ (m.width ++ m.behind)) := by
  unfold strSpec Modifiers.bytes precisionBytes Modifiers.behind
  cases m.precision <;> simp

theorem Modifiers.behind_head (m : Modifiers) :
    isdigit (m.behind.getD 0 0) = false ∧ m.behind.getD 0 0 ≠ chr '-' := by
  have hc : m.behind.getD 0 0 = chr 's' ∨ m.behind.getD 0 0 = chr '.' := by
    unfold behind
    cases m.precision with
    | none => exact .inl rfl
    | some p => exact .inr rfl
  rcases hc with hc | hc <;> rw [hc] <;> decide

/-- What is behind the width is the precision. -/
theorem Modifiers.behind_cut (m : Modifiers) (s : List UInt8) :
    (if m.behind.getD 0 0 = chr '.' then s.take (digitsValue ((m.behind.drop 1).takeWhile isdigit)) else s) =
      match m.precision with
      | none => s
      | some p => s.take (digitsValue p) := by
  unfold behind
  cases hp : m.precision with
  | none => rfl
  | some p =>
    have htake := (span_digits (t := ascii "s") (m.precision_ok p hp) rfl).1
    exact congrArg (fun ds => s.take (digitsValue ds)) htake

theorem padSpec_strSpec (m : Modifiers) (hflag : ∀ f ∈ m.flag, f = chr '-') (s : List UInt8) :
    padSpec (strSpec m) s = m.padded s := by
  obtain ⟨hdigit, hne⟩ := m.behind_head
  obtain ⟨hwidth, hdrop⟩ := span_digits m.width_ok hdigit
  have hminus : (strSpec m).getD 1 0 = chr '-' ↔ m.flag = some (chr '-') := by
    rw [strSpec_eq]
    cases hf : m.flag with
    | some f => simp [hflag f hf]
    | none =>
      apply iff_of_false
      · -- the width has no `-`, and what is behind it does not start with one
        intro h
        cases hw : m.width with
        | nil => exact hne (by simpa [hw] using h)
        | cons w ws =>
          have hw' : isdigit w := m.width_ok w (hw ▸ List.mem_cons_self)
          have hc : w = chr '-' := by simpa [hw] using h
          rw [hc] at hw'
          exact absurd hw' (by decide)
      · simp
  have hmods : (strSpec m).drop (if m.flag = some (chr '-') then 2 else 1) = m.width ++ m.behind := by
    rw [strSpec_eq]
    cases hf : m.flag with
    | none => rfl
    | some f => rw [hflag f hf]; rfl
  unfold padSpec
  simp only [hminus, hmods, hwidth, hdrop, m.behind_cut]
  rfl

theorem sprintf64_sprintfLong : Sprintf64 sprintfLong UInt32.toUInt64 where
  low v := by simp
  int m k v := rfl
  injective m k v w h := by
    have hv := congrArg digitsValue (show decimal64 v = decimal64 w from h)
    rw [decimal64, decimal64, digitsValue_toDigits, digitsValue_toDigits] at hv
    exact UInt64.toNat_inj.mp hv
  string m s hflag := padSpec_strSpec m hflag s.bytes

/-- A library for examples. -/
def longEnv : Env :=
  { strings := fun _ => ⟨[], by decide, by decide⟩, sprintf := sprintfLong, strftime := fun _ => [],
    scratch := fun _ => 0 }

/-- No flag, no width and no precision. -/
def Modifiers.none : Modifiers := ⟨.none, by simp, [], by simp, by decide, .none, by simp, by simp⟩

/-- A width of three. -/
def Modifiers.three : Modifiers :=
  ⟨.none, by simp, ascii "3", show ∀ c ∈ [chr '3'], isdigit c from List.forall_mem_singleton.mpr (by decide),
    by decide, .none, by simp, by simp⟩

theorem prints_like_sprintf_example :
    RoundTrips longEnv ⟨ascii "%lu %3s", by decide, by decide⟩
      [.long 4000000000, .str (some ⟨ascii "abcd", by decide, by decide⟩)] (ascii "4000000000 abcd") :=
  (prints_like_sprintf longEnv UInt32.toUInt64 sprintf64_sprintfLong
    [.long .none .lu 4000000000, .lit (chr ' ') (by decide),
      .str .three (by simp [Modifiers.three]) ⟨ascii "abcd", by decide, by decide⟩]
    ⟨ascii "%lu %3s", by decide, by decide⟩ (by decide) (by decide)).1 (by
      intro item hitem
      simp only [List.mem_cons, List.not_mem_nil, or_false] at hitem
      rcases hitem with rfl | rfl | rfl
      · exact show (4000000000 : UInt64) = _ by decide
      · exact trivial
      · exact ⟨by decide, by simp [Modifiers.three]⟩)

/-- `%lu` of 2^32 is printed as 0. -/
theorem prints_like_sprintf_fails :
    ¬ RoundTrips longEnv ⟨ascii "%lu", by decide, by decide⟩ [.long 4294967296] (ascii "4294967296") := by
  intro h
  have hdec := decode_items longEnv [.long .none .lu 4294967296] ⟨ascii "%lu",
    by decide, by decide⟩ (by decide) (by decide)
  have heq := hdec.unique h (show _ = Except.ok (leBytes 4 0) by decide) (by decide)
  exact absurd heq (by decide)

end Memlog
