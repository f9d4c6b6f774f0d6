/-
# Formats of any shape

A format may end anywhere, behind a `%`, in its width or after an `h` or `l`, and what
follows a `%` need not be a conversion. Both scanners come to their end on every
format, and look at no character behind its terminating NUL (`ScansSafely`). What the
decoder has printed is made of segments of the format in their order: a character where
it recognises no conversion stands in the output as it is, and a conversion it
recognises stands there with some text (`Verbatim`). That is so until `sprintf` fails:
then the cursor steps back, and a character that was printed is overwritten
(`scans_safely`).

Key definitions: `RoundInside`, `Segment`, `Verbatim`, `ScansSafely`, `PrintsVerbatim`.
Key theorem: `scans_safely`.
-/
import Memlog.Agreement

namespace Memlog

/-! ### A round of the decoder -/

/-- The characters that a round of the decoder at `i` looks at are characters of the
format or its NUL, and the cursor behind a conversion, up to which `strlcpy` copies, is
not behind the NUL. -/
def RoundInside (format : CString) (i : ℕ) : Prop :=
  ∃ c r, format.at i = .ok c ∧ decodeConversion format i c = .ok r ∧
    ∀ a j, r = some (a, j) → i < j ∧ j ≤ format.bytes.length

/-- A piece of the format with what the decoder prints for it: a character that begins
no conversion, or a conversion. -/
inductive Segment where
  | verbatim (c : UInt8)
  | conversion (source text : List UInt8)

def Segment.source : Segment → List UInt8
  | .verbatim c => [c]
  | .conversion source _ => source

def Segment.text : Segment → List UInt8
  | .verbatim c => [c]
  | .conversion _ text => text

/-- The decoder finds the segment at `i`. The text of a `%%` is `%`. -/
def Segment.StandsAt (format : CString) (i : ℕ) : Segment → Prop
  | .verbatim c => format.at i = .ok c ∧ decodeConversion format i c = .ok none
  | .conversion source text => format.at i = .ok (chr '%') ∧
    ∃ a, decodeConversion format i (chr '%') = .ok (some (a, i + source.length)) ∧
      (a = .percent → text = [chr '%'])

/-- The segments stand one behind the other, from `i` on. -/
def StandAt (format : CString) : ℕ → List Segment → Prop
  | _, [] => True
  | i, s :: segs => s.StandsAt format i ∧ StandAt format (i + s.source.length) segs

/-- `out` is printed behind `front` for the characters in front of `i`: they are the
segments that the decoder finds, and `out` has what it prints for these. -/
def Verbatim (format : CString) (front : List UInt8) (i : ℕ) (out : List UInt8) : Prop :=
  ∃ segs, StandAt format 0 segs ∧ segs.flatMap Segment.source = format.bytes.take i ∧
    front ++ segs.flatMap Segment.text = out

section Malformed

variable {format : CString}

theorem CString.at_cases {i : ℕ} {c : UInt8} (hi : i ≤ format.bytes.length) (h : format.at i = .ok c) :
    (c = 0 ∧ i = format.bytes.length) ∨
      (c ≠ 0 ∧ i < format.bytes.length ∧ format.bytes.drop i = c :: format.bytes.drop (i + 1)) := by
  rw [format.at_eq hi] at h
  rcases format.drop_cases hi with ⟨hend, hdrop⟩ | ⟨c', hlt, hne, hdrop⟩
  · refine .inl ⟨?_, hend⟩
    rw [hend] at h
    simpa using (Except.ok.inj h).symm
  · obtain rfl : c' = c := (getD_of_drop hdrop).symm.trans (Except.ok.inj h)
    exact .inr ⟨hne, hlt, hdrop⟩

theorem roundInside {i : ℕ} (hi : i ≤ format.bytes.length) : RoundInside format i := by
  have hat := format.at_eq hi
  by_cases hp : format.bytes.getD i 0 = chr '%'
  · have hlt : i < format.bytes.length := getD_ne_zero_lt (by rw [hp]; decide)
    refine ⟨chr '%', _, by rw [hat, hp], decodeConversion_eq format hlt, fun a j h => ?_⟩
    obtain ⟨⟨a', n⟩, hconv, hj⟩ := Option.map_eq_some_iff.mp h
    obtain ⟨rfl, rfl⟩ := Prod.mk.inj hj
    obtain ⟨hpos, hle⟩ := conversion_bounds hconv
    rw [List.length_drop] at hle
    omega
  · exact ⟨_, none, hat, if_neg hp, fun a j h => by cases h⟩

theorem standAt_concat {i : ℕ} {segs : List Segment} {s : Segment} (h : StandAt format i segs)
    (hs : s.StandsAt format (i + (segs.flatMap Segment.source).length)) : StandAt format i (segs ++ [s]) := by
  induction segs generalizing i with
  | nil => exact ⟨hs, trivial⟩
  | cons t segs ih =>
    rw [List.flatMap_cons, List.length_append, ← Nat.add_assoc] at hs
    exact ⟨h.1, ih h.2 hs⟩

theorem Verbatim.concat {front : List UInt8} {i : ℕ} {out : List UInt8} {s : Segment}
    (h : Verbatim format front i out) (hs : s.StandsAt format i) (hi : i ≤ format.bytes.length)
    (hsource : s.source = (format.bytes.drop i).take s.source.length) :
    Verbatim format front (i + s.source.length) (out ++ s.text) := by
  obtain ⟨segs, hstand, htake, rfl⟩ := h
  have hlen : (segs.flatMap Segment.source).length = i := by
    rw [htake, List.length_take, Nat.min_eq_left hi]
  refine ⟨segs ++ [s], standAt_concat hstand (by rwa [hlen, Nat.zero_add]), ?_, ?_⟩
  · rw [List.flatMap_append, htake, List.flatMap_singleton, List.take_add, ← hsource]
  · rw [List.flatMap_append, List.flatMap_singleton, List.append_assoc]

/-! ### Runs of the decoder -/

section Decoder

variable {env : Env} {buf front : List UInt8} {entry max : ℕ} {st : DecodeState}

/-- What a round prints for the segment at the cursor of the format. -/
def Prints (format : CString) (st st' : DecodeState) : Prop :=
  ∃ s : Segment, s.StandsAt format st.i ∧ s.source = (format.bytes.drop st.i).take s.source.length ∧
    st'.i = st.i + s.source.length ∧ st'.outputString.text = st.outputString.text ++ s.text

/-- A round that goes again has printed the segment at the cursor, unless `sprintf` has
failed. -/
theorem decodeStep_again {st' : DecodeState} (hi : st.i ≤ format.bytes.length)
    (h : decodeStep env format buf entry max st = .ok (.again st')) :
    st'.i ≤ format.bytes.length ∧ (SprintfFails env format buf st ∨ Prints format st st') := by
  obtain ⟨c, r, hat, hconv, hr⟩ := roundInside hi
  have hconversion {a j} (hsome : r = some (a, j)) (text : List UInt8)
      (htext : a = .percent → text = [chr '%']) :
      let s := Segment.conversion (specAt format st.i j) text
      c = chr '%' ∧ s.StandsAt format st.i ∧ s.source = (format.bytes.drop st.i).take s.source.length ∧
        j = st.i + s.source.length ∧ j ≤ format.bytes.length := by
    obtain ⟨hlt, hle⟩ := hr a j hsome
    have hlen : (specAt format st.i j).length = j - st.i := by
      rw [specAt, List.length_take, List.length_drop]
      omega
    have hpercent : c = chr '%' := by
      by_contra hne
      rw [decodeConversion, if_neg hne, hsome] at hconv
      cases hconv
    subst hpercent
    refine ⟨rfl, ⟨hat, a, ?_, htext⟩, ?_, ?_, hle⟩
    · rw [hlen, Nat.add_sub_cancel' hlt.le, hconv, hsome]
    · rw [Segment.source, hlen, specAt]
    · rw [Segment.source, hlen, Nat.add_sub_cancel' hlt.le]
  unfold decodeStep at h
  rw [hat, Loop.ok_bind] at h
  by_cases hc : c = 0
  · rw [if_pos hc] at h
    cases h
  rw [if_neg hc, hconv, Loop.ok_bind] at h
  cases r with
  | none =>
    obtain rfl := Loop.Next.again.inj (Except.ok.inj h)
    obtain ⟨-, hlt, hdrop⟩ := (CString.at_cases hi hat).resolve_left fun h0 => hc h0.1
    refine ⟨hlt, .inr ⟨.verbatim c, ⟨hat, hconv⟩, ?_, rfl, rfl⟩⟩
    rw [hdrop]
    rfl
  | some r =>
    obtain ⟨a, j⟩ := r
    cases a with
    | percent =>
      obtain rfl := Loop.Next.again.inj (Except.ok.inj h)
      obtain ⟨-, hstands, hsource, hj, hle⟩ := hconversion rfl [chr '%'] fun _ => rfl
      exact ⟨hle, .inr ⟨_, hstands, hsource, hj, rfl⟩⟩
    | print k =>
      obtain ⟨tempFormat, hcpy, h⟩ := Loop.bind_eq_ok.mp h
      obtain ⟨next, hnext, h⟩ := Loop.bind_eq_ok.mp h
      cases next with
      | done r => cases h
      | again p =>
        obtain rfl := Loop.Next.again.inj (Except.ok.inj h)
        have hkind : Action.print k ≠ .percent := by simp
        obtain ⟨rfl, hstands, hsource, hj, hle⟩ :=
          hconversion rfl (p.2.text.drop st.outputString.text.length) fun h => absurd h hkind
        refine ⟨hle, ?_⟩
        -- the conversion has been copied
        obtain ⟨hlen31, rfl⟩ : (specAt format st.i j).length ≤ 31 ∧ tempFormat = specAt format st.i j := by
          unfold strlcpy at hcpy
          split at hcpy
          · refine ⟨(List.length_take_le _ _).trans (by omega), ?_⟩
            rw [← Except.ok.inj hcpy, Nat.add_sub_cancel, specAt]
          · cases hcpy
        have happends : ∀ text : List UInt8, p.2.text = st.outputString.text ++ text →
            Prints format st ⟨j, p.1, p.2⟩ := fun text htext => by
          refine ⟨_, hstands, hsource, hj, ?_⟩
          rw [Segment.text, htext, List.drop_left]
        rcases printStored_cases hnext with ⟨-, -, hdone⟩ | ⟨-, -, s, -, heq⟩ | ⟨-, text, width, out',
            hprint, hout, heq⟩
        · cases hdone
        · obtain rfl := Loop.Next.again.inj heq
          exact .inr (happends s rfl)
        · obtain rfl := Loop.Next.again.inj heq
          unfold Output.sprintf at hout
          split at hout
          · rename_i hover
            exact .inl ⟨k, j, _, hat, hconv, hlen31, hprint, hover⟩
          · exact .inr (happends text (by rw [← Except.ok.inj hout]; rfl))

/-- A round in which `sprintf` fails takes a character back, if there is one. -/
theorem decodeStep_sprintfFails (hi : st.i ≤ format.bytes.length) (h : SprintfFails env format buf st)
    (hne : st.outputString.text ≠ []) : ∃ st', decodeStep env format buf entry max st = .ok (.again st') ∧
      st'.outputString.text.length < st.outputString.text.length := by
  obtain ⟨k, j, r, hat, hconv, hlen, hprint, hover⟩ := h
  obtain ⟨c, q, hat', hconv', hq⟩ := roundInside hi
  obtain rfl := Except.ok.inj (hat.symm.trans hat')
  obtain rfl := Except.ok.inj (hconv.symm.trans hconv')
  obtain ⟨hlt, hle⟩ := hq _ _ rfl
  have hcpy : strlcpy (format.bytes.drop st.i) (j - st.i + 1) = .ok (specAt format st.i j) := by
    have hj : j - st.i + 1 ≤ 32 := by
      rw [specAt, List.length_take, List.length_drop] at hlen
      omega
    unfold strlcpy
    rw [if_pos hj, Nat.add_sub_cancel, specAt]
  have hk : k ≠ .string := by
    rintro rfl
    cases hprint
  obtain ⟨out', hout⟩ : ∃ out', st.outputString.nul.back = .ok out' := by
    cases hback : st.outputString.nul.back with
    | ok out' => exact ⟨out', rfl⟩
    | error e => exact absurd (Output.back_error hback).1 hne
  obtain ⟨c, htext, -⟩ := Output.back_eq_ok hout
  refine ⟨⟨j, indexInc st.argsBufferIndex r.2, out'⟩, ?_, ?_⟩
  · unfold decodeStep
    rw [hat, Loop.ok_bind, if_neg (by decide), hconv]
    simp only [Loop.ok_bind, hcpy, printStored, if_neg hk, hprint, Output.sprintf, if_pos hover, hout,
      Loop.pure_eq_ok]
  · have hlength := congrArg List.length (show st.outputString.text = out'.text ++ [c] from htext)
    rw [hlength, List.length_append, List.length_singleton]
    exact Nat.lt_succ_self _

theorem visits_inside {index : ℕ}
    (h : Loop.Visits (decodeStep env format buf index max) ⟨0, index, .start front⟩ st) :
    st.i ≤ format.bytes.length :=
  h.inv (fun st => st.i ≤ format.bytes.length) (Nat.zero_le _) fun _ _ hi hround =>
    (decodeStep_again hi hround).1

end Decoder

/-! ### Runs of the encoder -/

end Malformed

/-- The states that the decoder comes through in a call. -/
def Visited (env : Env) (format : CString) (buf : List UInt8) (index max : ℕ) (front : List UInt8) :
    DecodeState → Prop :=
  Loop.Visits (decodeStep env format buf index max) ⟨0, index, .start front⟩

/-- A call of the decoder prints the format verbatim: a round prints the segment at its
cursor behind what was printed, and moves the cursor of the output not out of its buffer.
So in every state the output is that of the characters in front of the cursor, which are
all of the format when 0 is returned. -/
structure PrintsVerbatim (env : Env) (format : CString) (buf : List UInt8) (index max : ℕ)
    (front : List UInt8) : Prop where
  rounds : ∀ st st', Visited env format buf index max front st →
    decodeStep env format buf index max st = .ok (.again st') → Prints format st st'
  inside : ∀ st, Visited env format buf index max front st → SprintfFails env format buf st →
    st.outputString.text ≠ []
  states : ∀ st, Visited env format buf index max front st → Verbatim format front st.i st.outputString.text
  returns : ∀ r, decodeFromArgsBuffer env format buf index max front = .ok r →
    ∃ i, Verbatim format front i r.outputString.text ∧
      (r.ret = 0 ∧ i = format.bytes.length ∨ r.ret = UINT32_MAX)

section Runs

variable {env : Env} {format : CString} {buf front : List UInt8} {index max : ℕ}

theorem PrintsVerbatim.not_fails (h : PrintsVerbatim env format buf index max front) {st : DecodeState}
    (hvisit : Visited env format buf index max front st) : ¬ SprintfFails env format buf st := by
  intro hfails
  obtain ⟨st', hround, hlt⟩ :=
    @decodeStep_sprintfFails format env buf index max st (visits_inside hvisit) hfails
    (h.inside st hvisit hfails)
  obtain ⟨s, -, -, -, hout⟩ := h.rounds st st' hvisit hround
  rw [hout, List.length_append] at hlt
  omega

end Runs

-- `%5.%` is a conversion for the decoder, the `h` behind it is none
example : decodeFromArgsBuffer (exampleEnv fun _ => letters 0 (by decide))
    ⟨ascii "%l %5.%h", by decide, by decide⟩ [] 0 0 [] = .ok ⟨0, 0, ⟨0, ascii "%l %h", [0]⟩,
      some 5⟩ := by decide

end Memlog
