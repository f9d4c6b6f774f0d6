/-
# Where the two scanners put the arguments

What a format makes the encoder store is a layout, and so is what it makes the
decoder read: a byte for each byte of a value, and a terminated string for each `%s`.
The scanners are written independently. Every argument is found, and the index ends
behind the last one, when their layouts agree and the decoder can copy the
conversions it finds (`arguments_found_iff`).

Key definitions: `layout`, `ScannersAgree`, `ArgumentsFound`.
-/
import Memlog.Bounds
import Memlog.Lib.Layout
import Memlog.Rendering

namespace Memlog

open ByteCodec Layout

/-- The cells that a value takes. -/
def Kind.cells (k : Kind) : List Cell := if k = .string then [.terminated] else List.replicate k.width .fixed

/-- The layout of values. -/
def layout (ks : List Kind) : List Cell := ks.flatMap Kind.cells

/-- The value that a piece reads. -/
def Token.kinds : Token → List Kind
  | .conv k _ => [k]
  | _ => []

/-- The scanners agree on a format: the decoder reads what the encoder stores, and it
finds no conversion of more than 31 characters. -/
structure ScannersAgree (format : CString) : Prop where
  layouts : Agree (layout (encodeScan false format.bytes).1)
    (layout ((decodeScan 0 format.bytes).flatMap Token.kinds))
  specs : ∀ t ∈ decodeScan 0 format.bytes, t.spec.length ≤ 31

/-! ### What is stored -/

theorem Kind.cells_string : Kind.string.cells = [.terminated] := rfl

theorem Kind.cells_fixed {k : Kind} (hk : k ≠ .string) : k.cells = List.replicate k.width .fixed := if_neg hk

theorem Kind.store_width {k : Kind} {a : Arg} {b : List UInt8} (hk : k ≠ .string) (h : k.store a = .ok b) :
    b.length = k.width := by
  rw [Kind.store_length h]
  cases k <;> first | rfl | exact absurd rfl hk

theorem Kind.stores {k : Kind} {a : Arg} {b : List UInt8} (h : k.store a = .ok b) : Stores 0 k.cells b := by
  by_cases hk : k = .string
  · subst hk
    obtain ⟨s, -, h⟩ := Loop.bind_eq_ok.mp h
    obtain rfl := Except.ok.inj h
    rw [memSetString_eq]
    exact .terminated (stringText_nul_free s) .nil
  · rw [Kind.cells_fixed hk, ← Kind.store_width hk h]
    exact .replicate b

theorem stores_of_storeAll : ∀ {ks : List Kind} {args : List Arg} {enc : List UInt8},
    storeAll ks args = .ok enc →
    Stores 0 (layout ks) enc
  | [], _, _, h => by
    obtain rfl := Except.ok.inj h
    exact .nil
  | _ :: _, [], _, h => by cases h
  | k :: ks, a :: args, enc, h => by
    obtain ⟨b, hb, h⟩ := Loop.bind_eq_ok.mp h
    obtain ⟨rest, hrest, h⟩ := Loop.bind_eq_ok.mp h
    obtain rfl := Except.ok.inj h
    exact (Kind.stores hb).append (stores_of_storeAll hrest)

theorem Kind.exists_store {k : Kind} (hk : k ≠ .string) {b : List UInt8} (h : b.length = k.width) :
    ∃ a, k.store a = .ok b := by
  have hbytes := leBytes_leNat b
  have hlt := leNat_lt b
  rw [h] at hbytes hlt
  cases k with
  | string => exact absurd rfl hk
  | byte =>
    obtain ⟨c, rfl⟩ := List.length_eq_one_iff.mp h
    exact ⟨.int c.toUInt32, congrArg (fun c => Except.ok [c]) (by simp)⟩
  | word =>
    have hv : (UInt32.ofNat (leNat b)).toUInt16.toNat = leNat b := by
      rw [UInt32.toNat_toUInt16, UInt32.toNat_ofNat', Nat.mod_mod_of_dvd _ (by decide),
        Nat.mod_eq_of_lt (hlt.trans_eq (by decide))]
    exact ⟨.int (.ofNat (leNat b)), congrArg Except.ok (by rw [memSetWord, hv]; exact hbytes)⟩
  | int =>
    have hv : (UInt32.ofNat (leNat b)).toNat = leNat b := by
      rw [UInt32.toNat_ofNat', Nat.mod_eq_of_lt (hlt.trans_eq (by decide))]
    exact ⟨.int (.ofNat (leNat b)), congrArg Except.ok (by rw [memSetInt, hv]; exact hbytes)⟩
  | double | ptr | long64 =>
    have hv : (UInt64.ofNat (leNat b)).toNat = leNat b := by
      rw [UInt64.toNat_ofNat', Nat.mod_eq_of_lt (hlt.trans_eq (by decide))]
    first
      | exact ⟨.double (.ofNat (leNat b)), congrArg Except.ok (by rw [memSetDouble, hv]; exact hbytes)⟩
      | exact ⟨.ptr (.ofNat (leNat b)), congrArg Except.ok (by rw [memSetPtr, hv]; exact hbytes)⟩
      | exact ⟨.longLong (.ofNat (leNat b)), congrArg Except.ok (by rw [memSetLong64, hv]; exact hbytes)⟩

/-- What fills the layout of values is stored for some arguments. -/
theorem exists_storeAll : ∀ {ks : List Kind} {enc : List UInt8},
    Stores 0 (layout ks) enc → enc.length < 2147483648 →
    ∃ args, storeAll ks args = .ok enc
  | [], _, .nil, _ => ⟨[], rfl⟩
  | k :: ks, enc, h, hlt => by
    rw [layout, List.flatMap_cons] at h
    obtain ⟨b, rest, rfl, hb, hrest⟩ := h.split
    rw [List.length_append] at hlt
    obtain ⟨args, hargs⟩ := exists_storeAll hrest (by omega)
    have hfirst : ∃ a, k.store a = .ok b := by
      by_cases hk : k = .string
      · subst hk
        cases hb with
        | terminated hs hnil =>
          cases hnil
          rw [List.length_append, List.length_singleton] at hlt
          exact ⟨.str (some ⟨_, hs, by omega⟩), rfl⟩
      · rw [Kind.cells_fixed hk] at hb
        exact Kind.exists_store hk hb.fixed_length
    obtain ⟨a, ha⟩ := hfirst
    exact ⟨a :: args, by simp only [storeAll, ha, hargs, Loop.ok_bind, Loop.pure_eq_ok]⟩

/-! ### What is read -/

section Decoder

variable {env : Env}

/-- A value of one width is printed from its bytes, wherever they lie. -/
theorem Kind.exists_print (spec : List UInt8) {k : Kind} (hk : k ≠ .string) {b : List UInt8}
    (h : b.length = k.width) :
    ∃ text, ∀ pre post : List UInt8, k.print env spec (pre ++ (b ++ post)) pre.length =
      .ok (text, k.width) := by
  obtain ⟨a, ha⟩ := Kind.exists_store hk h
  have hget := fun pre post : List UInt8 => memGet_append pre b post
  rw [h] at hget
  cases k with
  | string => exact absurd rfl hk
  | byte | word | int | double | ptr | long64 =>
    exact ⟨_, fun pre post => by
      simp only [Kind.print, memGetByte, memGetWord, memGetInt, memGetDouble, memGetPtr, memGetLong64,
        Kind.width] at hget ⊢
      rw [hget]
      rfl⟩

/-- What a reader takes for one value is printed, and the index moves behind it. -/
theorem printStored_of_takes {k : Kind} (spec : List UInt8) {Y : List Cell} {b rest : List UInt8}
    (h : takes 0 (k.cells ++ Y) b = some rest) : ∃ text n, n ≤ b.length ∧ takes 0 Y (b.drop n) = some rest ∧
      ∀ entry pre post out, pre.length + b.length < 2147483648 →
        printStored env (pre ++ (b ++ post)) entry (pre.length + b.length) k spec pre.length out =
          (Token.conv k spec).print text out >>= fun out => .ok (.again (pre.length + n, out)) := by
  by_cases hk : k = .string
  · subst hk
    rw [Kind.cells_string, List.singleton_append] at h
    cases b with
    | nil => cases h
    | cons c b =>
      rw [takes_terminated] at h
      have hfront : (front 0 (c :: b)).length + 1 ≤ (c :: b).length := by
        have hle := (List.takeWhile_sublist (l := (c :: b).dropLast)
          (fun a : UInt8 => decide (a ≠ 0))).length_le
        rw [List.length_dropLast, List.length_cons] at hle
        rw [front, List.length_cons]
        omega
      refine ⟨front 0 (c :: b), (front 0 (c :: b)).length + 1, hfront, h,
        fun entry pre post out hlt => ?_⟩
      generalize hl : c :: b = l at hfront hlt
      have hpos : 0 < l.length := by rw [← hl]; exact Nat.succ_pos _
      have hleft : maxString (pre.length + l.length) pre.length = l.length - 1 := by
        have hsub : u32Sub (pre.length + l.length) pre.length = l.length := by
          rw [u32Sub_of_le (by omega) (by omega), Nat.add_sub_cancel_left]
        unfold maxString
        rw [hsub, u32Sub_of_le hpos (by omega)]
      have hread := @memGetString_take (pre ++ (l ++ post)) (l.length - 1) pre.length
        (by simp only [List.length_append]; omega) (by omega)
      have hcut : ((l ++ post).take (l.length - 1)) = l.dropLast := by
        rw [List.take_append_of_le_length (Nat.sub_le _ _), List.dropLast_eq_take]
      rw [List.drop_left, hcut] at hread
      unfold printStored
      rw [if_pos rfl, hleft, if_neg (by omega), hread, Token.print_string]
      simp only [Loop.ok_bind, Loop.pure_eq_ok]
      rw [indexInc_of_lt (by rw [front] at hfront; omega)]
      rfl
  · rw [Kind.cells_fixed hk, takes_replicate] at h
    by_cases hle : k.width ≤ b.length
    swap
    · rw [if_neg hle] at h
      cases h
    rw [if_pos hle] at h
    obtain ⟨text, hprint⟩ := @Kind.exists_print env spec k hk (b.take k.width) (List.length_take_of_le hle)
    refine ⟨text, k.width, hle, h, fun entry pre post out hlt => ?_⟩
    have hprint := hprint pre (b.drop k.width ++ post)
    rw [← List.append_assoc (b.take _), List.take_append_drop] at hprint
    unfold printStored
    rw [if_neg hk, hprint, Loop.ok_bind]
    simp only [Token.sprintf_eq hk, Loop.pure_eq_ok,
      indexInc_of_lt (show pre.length + k.width < 4294967296 by omega)]

theorem layout_conv (k : Kind) (spec : List UInt8) (ts : List Token) :
    layout ((Token.conv k spec :: ts).flatMap Token.kinds) = k.cells ++ layout (ts.flatMap Token.kinds) := by
  rw [List.flatMap_cons, layout, List.flatMap_append, Token.kinds, List.flatMap_singleton]
  rfl

/-- A piece leaves the cursor room to step back, as often as the pieces behind it need. -/
theorem Token.print_room {t : Token} {ts : List Token} {out : Output}
    (h : (t :: ts).countP Token.fails ≤ out.text.length) (text : List UInt8) :
    ∃ out', t.print text out = .ok out' ∧ ts.countP Token.fails ≤ out'.text.length := by
  by_cases hfails : t.fails = true
  · rw [List.countP_cons_of_pos hfails] at h
    have hne : out.text ≠ [] := List.ne_nil_of_length_pos (by omega)
    obtain ⟨out', hout⟩ := Token.exists_print (fun _ => hne) text
    refine ⟨out', hout, ?_⟩
    rw [Token.print, if_pos hfails] at hout
    obtain ⟨c, htext, -⟩ := Output.back_eq_ok hout
    have hlength := congrArg List.length (show out.text = out'.text ++ [c] from htext)
    rw [List.length_append, List.length_singleton] at hlength
    omega
  · rw [List.countP_cons_of_neg hfails] at h
    refine ⟨_, Token.print_of_not_fails (Bool.eq_false_of_not_eq_true hfails) text out, ?_⟩
    rw [Token.printed_text, List.length_append]
    omega

/-- Bytes that the layout of the pieces takes up are read to their end, if the cursor of the
output need not step out of its buffer. -/
theorem printAll_of_takes : ∀ (ts : List Token) (b : List UInt8), (∀ t ∈ ts, t.spec.length ≤ 31) →
    takes 0 (layout (ts.flatMap Token.kinds)) b = some [] → ∃ print : Output → Except Fault Output,
      (∀ out, ts.countP Token.fails ≤ out.text.length → ∃ out', print out = .ok out') ∧
      ∀ entry pre post out, pre.length + b.length < 2147483648 →
        printAll env (pre ++ (b ++ post)) entry (pre.length + b.length) ts pre.length out =
          print out >>= fun out => resultOf entry (pre.length + b.length) out .complete := by
  intro ts
  induction ts with
  | nil =>
    intro b _ h
    obtain rfl : b = [] := Option.some.inj h
    refine ⟨fun out => .ok out.nul, fun out _ => ⟨_, rfl⟩, fun entry pre post out _ => ?_⟩
    rw [List.length_nil, Nat.add_zero]
    rfl
  | cons t ts ih =>
    intro b hspec h
    have hspec' : ∀ t ∈ ts, t.spec.length ≤ 31 := fun t ht => hspec t (List.mem_cons_of_mem _ ht)
    -- the first piece prints `first`, and the others go on behind it
    have hcons : ∀ (first : List UInt8) (print : Output → Except Fault Output),
        (∀ out, ts.countP Token.fails ≤ out.text.length → ∃ out', print out = .ok out') →
        ∀ out, (t :: ts).countP Token.fails ≤ out.text.length →
          ∃ out', (t.print first out >>= print) = .ok out' := by
      intro first print hroom out hle
      obtain ⟨out', hout, hle'⟩ := Token.print_room hle first
      rw [hout]
      exact hroom out' hle'
    cases t with
    | lit c =>
      obtain ⟨print, hroom, hprint⟩ := ih b hspec' h
      exact ⟨_, hcons [c] print hroom, fun entry pre post out hlt => hprint entry pre post (out.put [c]) hlt⟩
    | percent =>
      obtain ⟨print, hroom, hprint⟩ := ih b hspec' h
      exact ⟨_, hcons [chr '%'] print hroom,
        fun entry pre post out hlt => hprint entry pre post (out.put [chr '%']).nul hlt⟩
    | conv k spec =>
      rw [layout_conv] at h
      obtain ⟨first, n, hn, hrest, hstored⟩ := @printStored_of_takes env k spec _ _ _ h
      obtain ⟨print, hroom, hprint⟩ := ih (b.drop n) hspec' hrest
      refine ⟨_, hcons first print hroom, fun entry pre post out hlt => ?_⟩
      have hlen : (pre ++ b.take n).length = pre.length + n := by
        rw [List.length_append, List.length_take_of_le hn]
      have hend : pre.length + n + (b.drop n).length = pre.length + b.length := by
        rw [List.length_drop]
        omega
      have hlen31 : spec.length ≤ 31 := hspec _ List.mem_cons_self
      unfold printAll
      rw [strlcpy_all hlen31, Loop.ok_bind, hstored entry pre post out hlt]
      cases hfirst : (Token.conv k spec).print first out with
      | error e => rfl
      | ok out' =>
        have hnext := hprint entry (pre ++ b.take n) post out' (by omega)
        rw [hlen, hend, List.append_assoc pre, ← List.append_assoc (b.take n), List.take_append_drop] at hnext
        exact hnext

/-- What is printed of a value in front of the end is what a reader takes for it. -/
theorem takes_of_textAt {k : Kind} {spec b pre text : List UInt8} {n : ℕ} {Y : List Cell}
    (h : (Token.conv k spec).textAt env (pre ++ b) (pre ++ b).length pre.length = .ok (text, n))
    (hn : n ≤ b.length) :
    takes 0 (k.cells ++ Y) b = takes 0 Y (b.drop n) := by
  unfold Token.textAt at h
  by_cases hk : k = .string
  · subst hk
    simp only [if_true, List.take_length, List.drop_left] at h
    split at h
    · cases h
    · obtain ⟨-, rfl⟩ := Prod.mk.inj (Except.ok.inj h)
      cases b with
      | nil => exact absurd hn (Nat.not_succ_le_zero _)
      | cons c b => rfl
  · simp only [if_neg hk] at h
    split at h
    · rename_i r hprint
      cases h
      obtain rfl := Kind.print_width hprint
      rw [Kind.cells_fixed hk, takes_replicate, if_pos hn]
    · cases h

/-- A call that returns 0 has copied all conversions, and its layout has taken the bytes up
to its index. -/
theorem takes_of_printAll {entry : ℕ} : ∀ (ts : List Token) (b pre : List UInt8) (out : Output)
    (r : DecodeResult), (pre ++ b).length < 2147483648 →
    printAll env (pre ++ b) entry (pre ++ b).length ts pre.length out = .ok r → r.ret = 0 →
    (∀ t ∈ ts, t.spec.length ≤ 31) ∧ ∃ rest, takes 0 (layout (ts.flatMap Token.kinds)) b = some rest ∧
      r.argsBufferIndex + rest.length = (pre ++ b).length := by
  intro ts
  induction ts with
  | nil =>
    intro b pre out r _ h _
    obtain rfl := Except.ok.inj h
    exact ⟨List.forall_mem_nil _, b, rfl, (List.length_append ..).symm⟩
  | cons t ts ih =>
    intro b pre out r hlt h hret
    cases t with
    | lit c =>
      obtain ⟨hspec, htakes⟩ := ih b pre _ r hlt h hret
      exact ⟨List.forall_mem_cons.mpr ⟨Nat.zero_le _, hspec⟩, htakes⟩
    | percent =>
      obtain ⟨hspec, htakes⟩ := ih b pre _ r hlt h hret
      exact ⟨List.forall_mem_cons.mpr ⟨Nat.zero_le _, hspec⟩, htakes⟩
    | conv k spec =>
      obtain ⟨tempFormat, hcpy, h⟩ := Loop.bind_eq_ok.mp h
      obtain ⟨next, hnext, h⟩ := Loop.bind_eq_ok.mp h
      obtain ⟨hlen31, rfl⟩ := strlcpy_inv hcpy
      have hi : pre.length ≤ (pre ++ b).length := by
        rw [List.length_append]
        exact Nat.le_add_right _ _
      rcases @printStored_text env (pre ++ b) entry _ _ hlt (Nat.le_refl _) hi k tempFormat out with
        ⟨text, n, htext, hn, hprint⟩ | ⟨-, hprint⟩ | ⟨-, hprint⟩
      · obtain ⟨out', -, hagain⟩ := Loop.bind_eq_ok.mp (hprint.symm.trans hnext)
        obtain rfl := Except.ok.inj hagain
        have hn' : n ≤ b.length := by
          rw [List.length_append] at hn
          omega
        have hsplit : (pre ++ b.take n) ++ b.drop n = pre ++ b := by
          rw [List.append_assoc, List.take_append_drop]
        have hpre : (pre ++ b.take n).length = pre.length + n := by
          rw [List.length_append, List.length_take_of_le hn']
        have hrest := ih (b.drop n) (pre ++ b.take n) out' r
        rw [hsplit, hpre] at hrest
        obtain ⟨hspec, rest, htakes, hindex⟩ := hrest hlt h hret
        refine ⟨List.forall_mem_cons.mpr ⟨hlen31, hspec⟩, rest, ?_, hindex⟩
        rw [layout_conv, takes_of_textAt htext hn', htakes]
      · obtain rfl := Except.ok.inj (hnext.symm.trans hprint)
        obtain rfl := Except.ok.inj h
        cases hret
      · cases hnext.symm.trans hprint

end Decoder

/-! ### What is found for a format -/

/-- Every argument of the format is found: what is stored is read back from where it was
stored and nothing else, with the index behind it at the end, and `printAtIndex` goes
on behind the record. In the output buffer there is room for the cursor to step back where
`sprintf` fails. -/
structure ArgumentsFound (env : Env) (format : CString) : Prop where
  decode : ∀ args enc, encodeToArgsBuffer format args = .ok enc →
    ∀ front : List UInt8, (decodeScan 0 format.bytes).countP Token.fails ≤ front.length →
      ∃ out, ∀ pre post : List UInt8, pre.length + enc.length < 2147483648 →
        decodeFromArgsBuffer env format (pre ++ (enc ++ post)) pre.length (pre.length + enc.length) front =
          .ok ⟨0, pre.length + enc.length, out, out.length⟩
  next_index : ∀ (log log' : Log) (call : Call) (e : Entry),
    env.strings call.format = format → log.traceVargs env call = .ok (log', e) →
    ∀ (log'' : Log) (q : ℕ) dst retry hdr p, log''.ringBuffer.size < 2147483648 → q < log''.ringBuffer.size →
      e.bytes.length ≤ log''.ringBuffer.size → log''.ringBuffer.entryAt q = some e.bytes →
      log''.printAtIndex env q dst retry hdr = .ok p → p.next_index = q + e.bytes.length

section Format

variable {env : Env} {format : CString}

/-- The scanners agree, and so every argument is found. -/
theorem argumentsFound_of_agree (h : ScannersAgree format) : ArgumentsFound env format := by
  have hdecode : ∀ args enc, encodeToArgsBuffer format args = .ok enc →
      ∃ print : Output → Except Fault Output,
      (∀ out, (decodeScan 0 format.bytes).countP Token.fails ≤ out.text.length →
        ∃ out', print out = .ok out') ∧
      ∀ pre post front : List UInt8, pre.length + enc.length < 2147483648 →
        decodeFromArgsBuffer env format (pre ++ (enc ++ post)) pre.length (pre.length + enc.length) front =
          print (.start front) >>= fun out => .ok ⟨0, pre.length + enc.length, out, out.length⟩ := by
    intro args enc henc
    rw [encodeToArgsBuffer_eq] at henc
    obtain ⟨out, hout, hstored⟩ := Loop.bind_eq_ok.mp henc
    split at hstored
    swap
    · cases hstored
    obtain rfl := Except.ok.inj hstored
    obtain ⟨print, hroom, hprint⟩ :=
      @printAll_of_takes env _ out h.specs (takes_of_agree h.layouts (stores_of_storeAll hout))
    refine ⟨print, hroom, fun pre post front hlt => ?_⟩
    rw [decodeFromArgsBuffer_eq]
    exact hprint pre.length pre post (.start front) hlt
  refine ⟨fun args enc henc front hfront => ?_,
    fun log log' call e hformat hok log'' q dst retry hdr p hS hq hfit hentry hprint => ?_⟩
  · obtain ⟨print, hroom, hdec⟩ := hdecode args enc henc
    obtain ⟨out, hout⟩ := hroom (.start front) hfront
    refine ⟨out, fun pre post hlt => ?_⟩
    rw [hdec pre post front hlt, hout, Loop.ok_bind]
  · obtain ⟨hstage, hcall, -⟩ := Log.written_of_ok hok
    obtain ⟨rest, r, hdec, -, -, -, hnext, -⟩ := Log.printAtIndex_inv env hS hfit hentry (by omega) hprint
    obtain ⟨print, -, hdec'⟩ := hdecode call.args e.args (by rw [← hformat]; exact (Log.stage_ok hstage).1)
    have hlen := e.length_eq
    have hle := (Log.stage_ok hstage).2
    have hdec' := hdec' e.header.bytes (trailer e.header.id ++ rest) (Log.printPrefix env e.header)
      (by rw [Header.bytes_length]; omega)
    have hend : 56 + e.args.length = e.bytes.length - 8 := by omega
    rw [Header.bytes_length, hend] at hdec'
    rw [e.ofBytes, hcall, hformat, Entry.bytes, record, List.append_assoc, List.append_assoc] at hdec
    obtain ⟨out, -, hr⟩ := Loop.bind_eq_ok.mp (hdec'.symm.trans hdec)
    rw [hnext, ← Except.ok.inj hr]
    change q + (e.bytes.length - 8) + 8 = _
    omega

theorem encodeScan_length : ∀ (inside : Bool) (s : List UInt8), (encodeScan inside s).1.length ≤ s.length
  | _, [] => Nat.le_refl 0
  | inside, c :: s => by
    have hon := encodeScan_length true s
    have hoff := encodeScan_length false s
    have hnot := encodeScan_length (!inside) s
    unfold encodeScan
    rw [List.length_cons]
    split_ifs
    · omega
    · omega
    · split
      · exact Nat.zero_le _
      · omega
      · rw [List.length_cons]
        omega
    · omega

theorem decodeScan_length : ∀ (n : ℕ) (s : List UInt8), (decodeScan n s).length ≤ s.length
  | _, [] => by cases ‹ℕ› <;> exact Nat.le_refl 0
  | n + 1, _ :: s => Nat.le_succ_of_le (decodeScan_length n s)
  | 0, c :: s => by
    have ih := fun n => decodeScan_length n s
    unfold decodeScan
    split_ifs
    · split <;> rw [List.length_cons, List.length_cons] <;> exact Nat.succ_le_succ (ih _)
    · rw [List.length_cons, List.length_cons]
      exact Nat.succ_le_succ (ih 0)

theorem layout_length : ∀ ks : List Kind, (layout ks).length ≤ 8 * ks.length
  | [] => Nat.le_refl 0
  | k :: ks => by
    have ih := layout_length ks
    have hk : k.cells.length ≤ 8 := by cases k <;> decide
    rw [layout] at ih ⊢
    rw [List.flatMap_cons, List.length_append, List.length_cons]
    omega

theorem kinds_length : ∀ ts : List Token, (ts.flatMap Token.kinds).length ≤ ts.length
  | [] => Nat.le_refl 0
  | t :: ts => by
    have ih := kinds_length ts
    have ht : t.kinds.length ≤ 1 := by
      cases t with
      | conv k spec => exact Nat.le_refl 1
      | lit c => exact Nat.zero_le 1
      | percent => exact Nat.zero_le 1
    rw [List.flatMap_cons, List.length_append, List.length_cons]
    omega

/-- What fills the encoder's layout is stored for some arguments, if the encoder does not
reach its assertion. -/
theorem exists_encode (hassert : ∀ args, encodeToArgsBuffer format args ≠ .error .assertion)
    {enc : List UInt8} (h : Stores 0 (layout (encodeScan false format.bytes).1) enc)
    (hlt : enc.length < 2147483648) :
    ∃ args, encodeToArgsBuffer format args = .ok enc := by
  obtain ⟨args, hargs⟩ := exists_storeAll h hlt
  refine ⟨args, ?_⟩
  have hne := hassert args
  rw [encodeToArgsBuffer_eq, hargs, Loop.ok_bind] at hne ⊢
  by_cases hend : (encodeScan false format.bytes).2 = true
  · rw [if_pos hend]
    rfl
  · rw [if_neg hend] at hne
    exact absurd rfl hne

/-- Every argument is found, and so the scanners agree. -/
theorem agree_of_argumentsFound (hlen : format.bytes.length < 134217728)
    (hassert : ∀ args, encodeToArgsBuffer format args ≠ .error .assertion) (h : ArgumentsFound env format) :
    ScannersAgree format := by
  have henc := encodeScan_length false format.bytes
  have hdec := decodeScan_length 0 format.bytes
  have hX := layout_length (encodeScan false format.bytes).1
  have hY := layout_length ((decodeScan 0 format.bytes).flatMap Token.kinds)
  have hkinds := kinds_length (decodeScan 0 format.bytes)
  -- what one list of arguments shows
  have hread : ∀ enc : List UInt8, Stores 0 (layout (encodeScan false format.bytes).1) enc →
      enc.length < 2147483648 →
      (∀ t ∈ decodeScan 0 format.bytes, t.spec.length ≤ 31) ∧
        takes 0 (layout ((decodeScan 0 format.bytes).flatMap Token.kinds)) enc = some [] := by
    intro enc hstores hlt
    obtain ⟨args, hargs⟩ := exists_encode hassert hstores hlt
    obtain ⟨out, hround⟩ :=
      h.decode args enc hargs (List.replicate ((decodeScan 0 format.bytes).countP Token.fails) 0)
      (by rw [List.length_replicate])
    have hdecode := hround [] [] (by simpa using hlt)
    rw [decodeFromArgsBuffer_eq, List.append_nil, ← List.length_append] at hdecode
    obtain ⟨hspecs, rest, htakes, hindex⟩ := takes_of_printAll _ enc [] _ _ (by simpa using hlt) hdecode rfl
    have hnil : rest = [] := by
      rw [← List.length_eq_zero_iff]
      simp only at hindex
      omega
    rw [hnil] at htakes
    exact ⟨hspecs, htakes⟩
  refine ⟨(takesUp_iff (show (1 : UInt8) ≠ 0 by decide)).mp fun enc hstores hle =>
    (hread enc hstores (by omega)).2, ?_⟩
  obtain ⟨enc, hstores, hle⟩ := exists_stores (0 : UInt8) (layout (encodeScan false format.bytes).1)
  exact (hread enc hstores (by omega)).1

/-- **Where every argument is.** For a format on which the encoder does not reach its
assertion, the decoder finds every argument, whatever the arguments are, when the
scanners agree; and only then, for a format short enough that the arguments need not
exceed an `int`. -/
theorem arguments_found_iff (env : Env) (format : CString)
    (hassert : ∀ args, encodeToArgsBuffer format args ≠ .error .assertion) :
    (ScannersAgree format → ArgumentsFound env format) ∧
      (format.bytes.length < 134217728 → (ArgumentsFound env format ↔ ScannersAgree format)) :=
  ⟨argumentsFound_of_agree, fun hlen => ⟨agree_of_argumentsFound hlen hassert, argumentsFound_of_agree⟩⟩

theorem Kind.store_error {k : Kind} {a : Arg} {fault : Fault} (h : k.store a = .error fault) :
    fault = .argument := by
  cases k <;> cases a <;> cases h <;> rfl

theorem storeAll_error : ∀ {ks : List Kind} {args : List Arg} {fault : Fault},
    storeAll ks args = .error fault →
    fault = .argument
  | [], _, _, h => by cases h
  | _ :: _, [], _, h => by
    cases h
    rfl
  | k :: ks, a :: args, fault, h => by
    rcases Loop.bind_eq_error.mp h with h | ⟨b, -, h⟩
    · exact Kind.store_error h
    rcases Loop.bind_eq_error.mp h with h | ⟨rest, -, h⟩
    · exact storeAll_error h
    · cases h

/-- The encoder does not reach its assertion when its scan gets to the end. -/
theorem encode_ne_assertion (h : (encodeScan false format.bytes).2 = true) (args : List Arg) :
    encodeToArgsBuffer format args ≠ .error .assertion := by
  intro herror
  rw [encodeToArgsBuffer_eq] at herror
  rcases Loop.bind_eq_error.mp herror with herror | ⟨out, -, herror⟩
  · cases storeAll_error herror
  · rw [if_pos h] at herror
    cases herror

end Format

/-- `%-5.3f of %s` -/
def soundFormat : CString := ⟨ascii "%-5.3f of %s", by decide, by decide⟩

theorem scannersAgree_sound : ScannersAgree soundFormat := ⟨.inl (by decide), by decide⟩

theorem arguments_found_example :
    ArgumentsFound (exampleEnv fun _ => soundFormat) soundFormat :=
  (arguments_found_iff (exampleEnv fun _ => soundFormat) soundFormat (encode_ne_assertion (by decide))).1
    scannersAgree_sound

/-- `%-+5d`, with two flags. -/
def twoFlags : CString := ⟨ascii "%-+5d", by decide, by decide⟩

/-- The encoder stores an `int` for two flags, and the decoder prints the conversion as it
is. -/
theorem arguments_lost : (∀ args, encodeToArgsBuffer twoFlags args ≠ .error .assertion) ∧
    encodeToArgsBuffer twoFlags [.int 7] = .ok [7, 0, 0, 0] ∧
    ¬ ArgumentsFound (exampleEnv fun _ => twoFlags) twoFlags := by
  have hassert := encode_ne_assertion (show (encodeScan false twoFlags.bytes).2 = true by decide)
  refine ⟨hassert, by decide, fun h => ?_⟩
  have hlen := (agree_of_argumentsFound (by decide) hassert h).layouts.length
  exact absurd hlen (by decide)

end Memlog
