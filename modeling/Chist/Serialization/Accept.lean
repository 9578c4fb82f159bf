import Chist.Serialization.RoundTrip
import Mathlib.Data.List.Sublists

/-!
# Bytes of any origin

Whatever the bytes, `deserialize` returns a coherent histogram and what is left of them, or an
`Err`; the one panic is the negation of `i64::MIN`, whose code is nine bytes 255
(`deserialize_ends`). What it returned can be serialized, and comes back as it is
(`reserialize`).
-/

set_option autoImplicit false

namespace Chist.Serialization

open Res Hdr

/-! ## How a run ends -/

section
variable {ε α β : Type} {P : α → Prop} {P' : β → Prop} {Q Q' : Prop}

/-- The run returns a value with `P`, or an `Err`, or it overflows, and that only where `Q`. -/
def Ends (P : α → Prop) (Q : Prop) (r : Res ε α) : Prop :=
  (∃ a, r = .ok a ∧ P a) ∨ IsErr r ∨ (r = .error (.panic .overflow) ∧ Q)

theorem Ends.ok {a : α} (h : P a) : Ends P Q (.ok a : Res ε α) := .inl ⟨a, rfl, h⟩

theorem Ends.err (e : ε) : Ends P Q (.error (.err e) : Res ε α) := .inr (.inl ⟨e, rfl⟩)

theorem Ends.overflow (h : Q) : Ends P Q (.error (.panic .overflow) : Res ε α) :=
  .inr (.inr ⟨rfl, h⟩)

theorem Ends.bind {r : Res ε α} {f : α → Res ε β} (h : Ends P Q r)
    (hf : ∀ a, P a → Ends P' Q (f a)) : Ends P' Q (r >>= f) := by
  rcases h with ⟨a, rfl, ha⟩ | ⟨e, rfl⟩ | ⟨rfl, hQ⟩
  · exact hf a ha
  · exact Ends.err e
  · exact Ends.overflow hQ

theorem Ends.imp {P P' : α → Prop} {r : Res ε α} (h : Ends P Q r) (hP : ∀ a, P a → P' a)
    (hQ : Q → Q') : Ends P' Q' r := by
  rcases h with ⟨a, rfl, ha⟩ | ⟨e, rfl⟩ | ⟨rfl, hq⟩
  · exact Ends.ok (hP a ha)
  · exact Ends.err e
  · exact Ends.overflow (hQ hq)

theorem Ends.of_ok {r : Res ε α} {a : α} (h : Ends P Q r) (hok : r = .ok a) : P a := by
  subst hok
  rcases h with ⟨b, hb, hP⟩ | ⟨e, he⟩ | ⟨he, -⟩
  · rw [Except.ok.injEq] at hb
    exact hb ▸ hP
  · cases he
  · cases he

end

/-! ## Reading -/

variable {fl : Floats} {h : Histogram} {Q : Prop}

theorem readExact_ends (n : Nat) (reader : List UInt8) :
    Ends (fun r => r.1 <+: reader ∧ r.1.length = n ∧ r.2 <:+ reader) Q (readExact n reader) := by
  unfold readExact
  split
  · rename_i hle
    exact Ends.ok ⟨List.take_prefix _ _, List.length_take_of_le hle, List.drop_suffix _ _⟩
  · exact Ends.err _

theorem readBe_ends (n : Nat) (reader : List UInt8) :
    Ends (fun r => r.1 < 256 ^ n ∧ r.2 <:+ reader) Q (readBe n reader) := by
  refine (readExact_ends n reader).bind fun r hr => Ends.ok ⟨?_, hr.2.2⟩
  rw [← hr.2.1]
  exact BigEndian.decode_lt _

/-! ## The counts -/

/-- The code of `i64::MIN`. -/
def minCode : List UInt8 := List.replicate 9 255

theorem minCode_head {bytes tail : List UInt8} {v : Nat}
    (hdec : Varint.decode 8 bytes = some (v, tail))
    (hmin : (zigZagDecode (BitVec.ofNat 64 v)).toInt = -2 ^ 63) : bytes = minCode ++ tail := by
  have hlt : v < 2 ^ 64 := Varint.decode_lt hdec
  rw [toInt_zigZagDecode, BitVec.toNat_ofNat, Nat.mod_eq_of_lt hlt, Varint.unzigzag] at hmin
  have hv : v = 128 ^ 8 * 256 - 1 := by
    split at hmin <;> omega
  exact Varint.decode_max (hv ▸ hdec)

theorem inBounds_expand {n : Nat} {cs : List Nat} {t : Int} (hcs : InBounds n cs)
    (hroom : ¬ (0 < t ∧ n ≤ cs.length)) : InBounds n (cs ++ ZeroRuns.expand t) := by
  unfold ZeroRuns.expand
  intro j hj
  by_cases hpos : 0 < t
  · rw [if_neg (by omega)]
    exact List.getD_eq_default _ _ (by rw [List.length_append, List.length_singleton]; omega)
  · have hzeros : (if t < 0 then List.replicate (-t).toNat 0 else [t.toNat]) =
        List.replicate (if t < 0 then (-t).toNat else 1) 0 := by
      split
      · rfl
      · rw [show t.toNat = 0 by omega, List.replicate_one]
    rw [hzeros, getD_append_replicate]
    exact hcs j hj

theorem expand_lt {t : Int} (ht : t < 2 ^ 63) {c : Nat} (hc : c ∈ ZeroRuns.expand t) :
    c < 2 ^ 63 := by
  unfold ZeroRuns.expand at hc
  split at hc
  · rw [List.eq_of_mem_replicate hc]
    decide
  · rw [List.mem_singleton.1 hc]
    omega

/-- The payload ends within a number. -/
theorem readNums_of_none {bytes : List UInt8} (hdec : Varint.decode 8 bytes = none)
    (hnil : bytes ≠ []) (d : Decoding) : readNums bytes d = .error (.err .ioError) := by
  obtain ⟨n, hn⟩ : ∃ n, bytes.length = n + 1 :=
    ⟨_, (Nat.succ_pred_eq_of_pos (List.length_pos_of_ne_nil hnil)).symm⟩
  rw [readNums, hn, slowLoop, if_pos hnil, varintRead_eq, hdec]
  rfl

/-- The counts read so far are within `i64`, and none of them is past the slots. -/
def Reads (h0 : Histogram) (d : Decoding) : Prop :=
  ∃ cs, d = decoded h0 cs ∧ InBounds h0.counts.length cs ∧ Serializable cs

section
variable {h0 : Histogram} (hn : h0.counts.length < 2 ^ 64) {d : Decoding}
include hn

theorem onDecodedNum_ends (hd : Reads h0 d) (num : BitVec 64) :
    Ends (Reads h0) (num.toInt = -2 ^ 63) (onDecodedNum num d) := by
  obtain ⟨cs, rfl, hcs, hs⟩ := hd
  have hlt := BitVec.toInt_lt (x := num)
  rw [onDecodedNum_eq num hn]
  split
  · rename_i hmin
    exact Ends.overflow hmin
  split
  · exact Ends.err _
  rename_i hroom
  split
  · refine Ends.ok ⟨_, rfl, inBounds_expand hcs hroom, fun c hc => ?_⟩
    rcases List.mem_append.1 hc with hc | hc
    · exact hs c hc
    · exact expand_lt (by omega) hc
  · exact Ends.err _

/-- **The payload**: whatever its bytes, one number at a time. -/
theorem readNums_ends (hd : Reads h0 d) (bytes : List UInt8) :
    Ends (Reads h0) (minCode <:+: bytes) (readNums bytes d) := by
  obtain ⟨n, hbytes⟩ : ∃ n, bytes.length ≤ n := ⟨_, Nat.le_refl _⟩
  induction n generalizing bytes d with
  | zero =>
    obtain rfl := List.length_eq_zero_iff.1 (Nat.le_zero.1 hbytes)
    exact Ends.ok hd
  | succ n ih =>
    cases hdec : Varint.decode 8 bytes with
    | none =>
      by_cases hnil : bytes = []
      · subst hnil
        exact Ends.ok hd
      · rw [readNums_of_none hdec hnil]
        exact Ends.err _
    | some r =>
      obtain ⟨v, tail⟩ := r
      obtain ⟨code, hsplit, hne, -, -⟩ := Varint.decode_split hdec
      have htail : tail <:+ bytes := ⟨code, hsplit.symm⟩
      have hlen : tail.length ≤ n := by
        have hcode := List.length_pos_of_ne_nil hne
        rw [hsplit, List.length_append] at hbytes
        omega
      have hnum : Ends (Reads h0) (minCode <:+: bytes)
          (onDecodedNum (zigZagDecode (BitVec.ofNat 64 v)) d) := by
        refine (onDecodedNum_ends hn hd _).imp (fun _ h => h) fun hmin => ?_
        exact ⟨[], tail, (minCode_head hdec hmin).symm⟩
      rw [readNums_code hdec]
      exact hnum.bind fun d' hd' => (ih hd' tail hlen).imp (fun _ h => h) fun hmin =>
        hmin.trans htail.isInfix

end

/-! ## The histogram -/

/-- The histogram can be serialized, and its bytes give it back as it is. -/
structure Accepted (fl : Floats) (h : Histogram) : Prop where
  coherent : Coherent fl h
  serializable : Serializable h.counts
  copied : copied fl h = h

theorem restored_accepted {low high sigfig : Nat} (hb : BoundsOk fl low high sigfig)
    (hhigh : high < 2 ^ 64) {d : Decoding} (hd : Reads (fresh fl low high sigfig) d) :
    ∃ h, d.restat.updateHistogram (ε := DeserializeError) d.h = .ok h ∧ Accepted fl h := by
  obtain ⟨cs, rfl, hcs, hs⟩ := hd
  have hblank : Blank fl (fresh fl low high sigfig) :=
    blank_fresh (fresh_coherent hb hhigh).toKept
  have hplaced : Serializable (placed (fresh fl low high sigfig).counts.length cs) := by
    intro c hc
    rcases List.mem_append.1 (List.mem_of_mem_take hc) with hc | hc
    · exact hs c hc
    · rw [List.eq_of_mem_replicate hc]
      decide
  exact ⟨_, updateHistogram_decoded hblank hcs, restored_coherent hblank (length_placed _ _)
    fun c hc => (hplaced c hc).trans (by decide), hplaced, rfl⟩

/-- **`deser_v2`** on any bytes. -/
theorem deserV2_ends (reader : List UInt8) :
    Ends (fun r => Accepted fl r.1 ∧ r.2 <:+ reader) (minCode <:+: reader)
      (deserV2 fl reader) := by
  unfold deserV2
  refine (readBe_ends 4 reader).bind ?_
  rintro ⟨payloadLen, reader1⟩ ⟨_, h1⟩
  refine (readBe_ends 4 reader1).bind ?_
  rintro ⟨normalizingOffset, reader2⟩ ⟨_, h2⟩
  simp only [okOr]
  split
  · exact Ends.err _
  refine (readBe_ends 4 reader2).bind ?_
  rintro ⟨numDigits, reader3⟩ ⟨_, h3⟩
  by_cases hdigits : numDigits < 2 ^ 8
  swap
  · simp only [if_neg hdigits]
    exact Ends.err _
  simp only [if_pos hdigits, ok_bind]
  refine (readBe_ends 8 reader3).bind ?_
  rintro ⟨low, reader4⟩ ⟨_, h4⟩
  refine (readBe_ends 8 reader4).bind ?_
  rintro ⟨high, reader5⟩ ⟨hhigh, h5⟩
  refine (readBe_ends 8 reader5).bind ?_
  rintro ⟨intDoubleRatio, reader6⟩ ⟨_, h6⟩
  simp only []
  split
  · exact Ends.err _
  by_cases hb : BoundsOk fl low high numDigits
  swap
  · obtain ⟨e, he⟩ := newWithBounds_err hb
    rw [he]
    exact Ends.err _
  have hlen := length_le_bound (fresh_coherent hb hhigh).toKept
  rw [newWithBounds_ok hb hhigh, mapErr_ok, ok_bind]
  refine (readExact_ends payloadLen reader6).bind ?_
  rintro ⟨payload, rest⟩ ⟨hpayload, _, hrest⟩
  have hreader6 : reader6 <:+ reader :=
    h6.trans (h5.trans (h4.trans (h3.trans (h2.trans h1))))
  have hstart : Reads (fresh fl low high numDigits)
      ⟨0, RestatState.new, fresh fl low high numDigits⟩ :=
    ⟨[], decoded_nil fl low high numDigits, fun _ _ => rfl, by simp [Serializable]⟩
  have hread := readNums_ends (by omega) hstart payload
  simp only []
  rw [readCounts_eq]
  refine (hread.imp (fun _ h => h) fun hmin => ?_).bind fun d hd => ?_
  · exact hmin.trans (hpayload.isInfix.trans hreader6.isInfix)
  · obtain ⟨h, hh, haccepted⟩ := restored_accepted hb hhigh hd
    rw [hh, ok_bind]
    exact Ends.ok ⟨haccepted, hrest.trans hreader6⟩

/-- **`deserialize`** on any bytes: an accepted histogram is coherent, and nothing panics unless
the bytes, or what a part of them inflates to, hold the code of `i64::MIN`. -/
theorem deserialize_ends (zlib : Zlib) (reader : List UInt8) :
    Ends (fun r => Accepted fl r.1 ∧ r.2 <:+ reader)
      (minCode <:+: reader ∨ ∃ part, part <:+: reader ∧ minCode <:+: zlib.inflate part)
      (deserialize fl zlib reader) := by
  unfold deserialize
  refine (readBe_ends 4 reader).bind ?_
  rintro ⟨cookie, reader1⟩ ⟨_, h1⟩
  simp only []
  split
  · exact (deserV2_ends reader1).imp (fun r hr => ⟨hr.1, hr.2.trans h1⟩) fun hmin =>
      .inl (hmin.trans h1.isInfix)
  split
  · unfold deserV2Compressed
    refine (readBe_ends 4 reader1).bind ?_
    rintro ⟨payloadLen, reader2⟩ ⟨_, h2⟩
    have hpart : reader2.take payloadLen <:+: reader :=
      (List.take_prefix _ _).isInfix.trans (h2.trans h1).isInfix
    refine (readBe_ends 4 (zlib.inflate (reader2.take payloadLen))).bind ?_
    rintro ⟨innerCookie, deflateReader⟩ ⟨_, h3⟩
    simp only []
    split
    · exact Ends.err _
    refine ((deserV2_ends deflateReader).imp (fun _ h => h) fun hmin => ?_).bind fun r hr => ?_
    · exact .inr ⟨_, hpart, hmin.trans h3.isInfix⟩
    · exact Ends.ok ⟨hr.1, (List.drop_suffix _ _).trans (h2.trans h1)⟩
  · exact Ends.err _

/-- **What was deserialized** serializes, and those bytes give the very same histogram. -/
theorem reserialize {zlib : Zlib} {reader rest : List UInt8} {h : Histogram}
    (hok : deserialize fl zlib reader = .ok (h, rest)) (uninit : Nat → UInt8)
    (tail : List UInt8) :
    ∃ bytes, serialize h uninit = .ok (bytes, bytes.length) ∧
      deserialize fl zlib (bytes ++ tail) = .ok (h, tail) := by
  have haccepted : Accepted fl h := ((deserialize_ends zlib reader).of_ok hok).1
  obtain ⟨bytes, hbytes, hback⟩ := deserialize_serialize haccepted.coherent.toKept
    haccepted.serializable uninit zlib tail
  exact ⟨bytes, hbytes, haccepted.copied ▸ hback⟩

/-- What `serialize` makes of the sample. -/
def sampleBytes : List UInt8 :=
  [28, 132, 147, 19, 0, 0, 0, 5, 0, 0, 0, 0, 0, 0, 0, 0, 0, 0, 0, 0, 0, 0, 0, 1,
    0, 0, 0, 0, 0, 0, 0, 15, 63, 240, 0, 0, 0, 0, 0, 0, 2, 0, 4, 0, 6]

theorem reserialize_sample : ∃ h bytes, deserialize .exact .stored sampleBytes = .ok (h, []) ∧
    serialize h (fun _ => 7) = .ok (bytes, bytes.length) ∧
      deserialize .exact .stored (bytes ++ [1, 2]) = .ok (h, [1, 2]) := by
  have hok : deserialize .exact .stored sampleBytes = .ok (copied .exact sample, []) := by
    decide +kernel
  obtain ⟨bytes, hbytes, hback⟩ := reserialize hok (fun _ => 7) [1, 2]
  exact ⟨_, bytes, hok, hbytes, hback⟩

/-- **No other bytes panic**: without the code of `i64::MIN` in them, or in what a part of them
inflates to, they are an `Err` or a coherent histogram that can be serialized. -/
theorem deserialize_noPanic (zlib : Zlib) {reader : List UInt8} (hcode : ¬ minCode <:+: reader)
    (hpart : ∀ part, part <:+: reader → ¬ minCode <:+: zlib.inflate part) :
    (∃ h rest, deserialize fl zlib reader = .ok (h, rest) ∧ Coherent fl h ∧
      Serializable h.counts ∧ rest <:+ reader) ∨ IsErr (deserialize fl zlib reader) := by
  have hends : Ends (fun r => Accepted fl r.1 ∧ r.2 <:+ reader) _ (deserialize fl zlib reader) :=
    deserialize_ends zlib reader
  rcases hends with ⟨⟨h, rest⟩, hok, haccepted, hrest⟩ | herr | hmin
  · exact .inl ⟨h, rest, hok, haccepted.coherent, haccepted.serializable, hrest⟩
  · exact .inr herr
  · rcases hmin.2 with hin | ⟨part, hpart', hin⟩
    · exact absurd hin hcode
    · exact absurd hin (hpart part hpart')

/-- The header of the sample, a payload and two more bytes. -/
theorem deserialize_noPanic_sample : ∃ h rest,
    deserialize .exact .stored (sampleBytes ++ [1, 2]) = .ok (h, rest) ∧ Coherent .exact h ∧
      Serializable h.counts ∧ rest <:+ sampleBytes ++ [1, 2] := by
  have hbyte : ∀ bytes : List UInt8, minCode <:+: bytes → 255 ∈ bytes := fun bytes h =>
    h.subset (by decide)
  have hfree : (255 : UInt8) ∉ sampleBytes ++ [1, 2] := by decide
  have hsome : (deserialize .exact .stored (sampleBytes ++ [1, 2])).toOption.isSome := by
    decide +kernel
  have hends : (∃ h rest, deserialize .exact .stored (sampleBytes ++ [1, 2]) = .ok (h, rest) ∧
      Coherent .exact h ∧ Serializable h.counts ∧ rest <:+ sampleBytes ++ [1, 2]) ∨
      IsErr (deserialize .exact .stored (sampleBytes ++ [1, 2])) :=
    deserialize_noPanic .stored (fun h => hfree (hbyte _ h)) fun part h hin =>
      hfree (h.subset (Stored.mem_inflate (hbyte _ hin)))
  rcases hends with h | ⟨e, he⟩
  · exact h
  · rw [he] at hsome
    cases hsome

/-- **These bytes do panic**, whatever the bounds, and whatever follows. -/
theorem deserialize_minCode (hk : Kept fl h) (zlib : Zlib) {bytes : List UInt8}
    (hbytes : bytes.length + 9 < 2 ^ 32) (tail : List UInt8) :
    deserialize fl zlib (header h (bytes.length + 9) ++ (minCode ++ bytes ++ tail)) =
      .error (.panic .overflow) := by
  have hlen : (minCode ++ bytes).length = bytes.length + 9 := by
    rw [List.length_append]
    exact Nat.add_comm _ _
  have hcode : Varint.encode 8 (2 ^ 64 - 1) = minCode := by decide +kernel
  have hdec := Varint.decode_encode (n := 8) (x := 2 ^ 64 - 1) (by decide) bytes
  rw [hcode] at hdec
  have hmin : (zigZagDecode (BitVec.ofNat 64 (2 ^ 64 - 1))).toInt = -2 ^ 63 := by decide +kernel
  have hpanic : ∀ d, onDecodedNum (zigZagDecode (BitVec.ofNat 64 (2 ^ 64 - 1))) d =
      .error (.panic .overflow) := by
    intro d
    rw [onDecodedNum, negI64, hmin]
    rfl
  unfold deserialize header
  rw [List.append_assoc, readBe_encode (by decide), ok_bind]
  simp only [if_true, List.append_assoc]
  rw [← List.append_assoc minCode, ← hlen, deserV2_header hk (by omega), readNums_code hdec,
    hpanic, error_bind, error_bind]

theorem deserialize_minCode_sample : deserialize .exact .stored
    (header sample (([2] : List UInt8).length + 9) ++ (minCode ++ [2] ++ [1])) =
      .error (.panic .overflow) := by
  have hlen : ([2] : List UInt8).length + 9 < 2 ^ 32 := by decide
  exact deserialize_minCode sample_coherent.toKept .stored hlen [1]

/-- **`serialize`** refuses counts past `i64::MAX`. Else its bytes give a coherent histogram with
the bounds and the counts of `h`, and leave what follows them. -/
theorem serialize_outcomes (hk : Kept fl h) (uninit : Nat → UInt8) (zlib : Zlib)
    (tail : List UInt8) :
    if Serializable h.counts then
      ∃ bytes g, serialize h uninit = .ok (bytes, bytes.length) ∧
        deserialize fl zlib (bytes ++ tail) = .ok (g, tail) ∧ Coherent fl g ∧
        g.lowestDiscernibleValue = h.lowestDiscernibleValue ∧
        g.highestTrackableValue = h.highestTrackableValue ∧
        g.significantValueDigits = h.significantValueDigits ∧ g.counts = h.counts ∧
        g.totalCount = h.totalCount
    else serialize h uninit = .error (.err .countNotSerializable) := by
  split
  · rename_i hs
    obtain ⟨bytes, hbytes, hback⟩ := deserialize_serialize hk hs uninit zlib tail
    exact ⟨bytes, copied fl h, hbytes, hback, ((deserialize_ends zlib _).of_ok hback).1.coherent,
      rfl, rfl, rfl, rfl, hk.totalCount.symm⟩
  · rename_i hs
    rw [serialize_eq hk, if_neg hs]

theorem serialize_outcomes_sample :
    ∃ bytes g, serialize sample (fun _ => 7) = .ok (bytes, bytes.length) ∧
      deserialize .exact .stored (bytes ++ [1, 2]) = .ok (g, [1, 2]) ∧ Coherent .exact g ∧
      g.counts = sample.counts := by
  have houtcomes := serialize_outcomes sample_coherent.toKept (fun _ => 7) .stored [1, 2]
  rw [if_pos (by decide)] at houtcomes
  obtain ⟨bytes, g, hbytes, hback, hg, -, -, -, hcounts, -⟩ := houtcomes
  exact ⟨bytes, g, hbytes, hback, hg, hcounts⟩

end Chist.Serialization
