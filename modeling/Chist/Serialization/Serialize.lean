import Chist.Hdr.Coherent
import Chist.Lib.ZeroRuns
import Chist.Lib.Stored
import Chist.Serialization.Varint

/-!
# The V2 serializer

`serialize`, into a `Vec<u8>`, which takes any bytes. The buffer is stretched over memory that was
never written (`set_len`), so the model takes the bytes found there as a parameter. A count is
written as itself and a run of at least two zeros as a negative number (`payload`);
`serialize_eq` gives the bytes written, which do not depend on what the memory held, and the only
way to fail: a count above `i64::MAX`. The compressed format (`serializeDeflate`) wraps the same
bytes; its zlib coder is no part of the repository and is a parameter.
-/

set_option autoImplicit false

namespace Chist.Serialization

open Res Hdr

/-- `V2SerializeError`. A write to a `Vec<u8>` is never an `IoError`. -/
inductive V2SerializeError
  | countNotSerializable
  | usizeTypeTooSmall
  deriving DecidableEq, Repr

def v2Cookie : Nat := 0x1c849303 ||| 0x10

def v2CompressedCookie : Nat := 0x1c849304 ||| 0x10

def v2HeaderSize : Nat := 40

/-- The bits of the `f64` 1.0. -/
def oneBits : Nat := 0x3FF0000000000000

variable {ε : Type}

/-! ## Encoding the counts -/

def countsArrayMaxEncodedSize (length : Nat) : Option Nat :=
  if length * 9 < 2 ^ 64 then some (length * 9) else none

def maxEncodedSize (h : Histogram) : Res ε (Option Nat) := do
  let mx ← h.max
  match ← h.indexFor mx with
  | some i =>
    let length ← checkU 64 (i + 1)
    return (countsArrayMaxEncodedSize length).bind fun x =>
      if x + v2HeaderSize < 2 ^ 64 then some (x + v2HeaderSize) else none
  | none => return none

/-- The inner loop of `encode_counts`: the index past a run of zeros and the zeros so far. A read
past the counts, undefined in the source, panics here. The first argument bounds the turns. -/
def zeroRun (counts : List Nat) (indexLimit : Nat) : Nat → Nat → Nat → Res ε (Nat × Nat)
  | 0, i, zeroCount => .ok (i, zeroCount)
  | fuel + 1, i, zeroCount => do
    if i ≤ indexLimit then
      let c ← index counts i
      if c = 0 then zeroRun counts indexLimit fuel (i + 1) (zeroCount + 1)
      else return (i, zeroCount)
    else
      return (i, zeroCount)

def toI64 (count : Nat) : Option (BitVec 64) :=
  if count < 2 ^ 63 then some (BitVec.ofNat 64 count) else none

/-- `count_or_zeros` for the count at index `i`, and the next index. -/
def countOrZeros (counts : List Nat) (indexLimit i : Nat) :
    Res V2SerializeError (BitVec 64 × Nat) := do
  let count ← index counts i
  let (i, zeroCount) ←
    if count = 0 then zeroRun counts indexLimit (indexLimit + 1) (i + 1) 1 else pure (i + 1, 0)
  if 1 < zeroCount then
    return (BitVec.ofInt 64 (-(zeroCount : Int)), i)
  else
    match toI64 count with
    | some num => return (num, i)
    | none => throw (.err .countNotSerializable)

/-- `&mut buf[start..]`. -/
def sliceFrom (buf : List UInt8) (start : Nat) : Res ε (List UInt8) :=
  if start ≤ buf.length then .ok (buf.drop start) else .panic .indexOutOfBounds

/-- The loop of `encode_counts`: the buffer and the bytes written. The first argument bounds the
turns, each of which goes on to a later index. -/
def encodeLoop (counts : List Nat) (indexLimit : Nat) :
    Nat → Nat → Nat → List UInt8 → Res V2SerializeError (List UInt8 × Nat)
  | 0, _, bytesWritten, buf => .ok (buf, bytesWritten)
  | fuel + 1, i, bytesWritten, buf => do
    if i ≤ indexLimit then
      let (num, i) ← countOrZeros counts indexLimit i
      let zz := zigZagEncode num
      let slice ← sliceFrom buf bytesWritten
      let (slice, n) ← varintWrite zz.toNat slice
      encodeLoop counts indexLimit fuel i (bytesWritten + n) (buf.take bytesWritten ++ slice)
    else
      return (buf, bytesWritten)

def encodeCounts (h : Histogram) (buf : List UInt8) :
    Res V2SerializeError (List UInt8 × Nat) := do
  let mx ← h.max
  let i ← h.indexFor mx
  let indexLimit ← expectSome "Index for max value must exist" i
  assert "index_limit <= h.counts.len()" (indexLimit ≤ h.counts.length)
  encodeLoop h.counts indexLimit (indexLimit + 1) 0 0 buf

/-! ## The header -/

/-- The header from the normalizing index offset on. -/
def headerTail (h : Histogram) : List UInt8 :=
  BigEndian.encode 4 0 ++ BigEndian.encode 4 h.significantValueDigits ++
    BigEndian.encode 8 h.lowestDiscernibleValue ++ BigEndian.encode 8 h.highestTrackableValue ++
    BigEndian.encode 8 oneBits

/-- The header, with `len` for the length of the payload. -/
def header (h : Histogram) (len : Nat) : List UInt8 :=
  BigEndian.encode 4 v2Cookie ++ (BigEndian.encode 4 len ++ headerTail h)

/-- `V2Serializer::serialize`: the bytes written and the length returned. `uninit` are the bytes
`set_len` uncovers. -/
def serialize (h : Histogram) (uninit : Nat → UInt8) :
    Res V2SerializeError (List UInt8 × Nat) := do
  let size ← maxEncodedSize h
  let maxSize ← match size with
    | some maxSize => pure maxSize
    | none => throw (.err .usizeTypeTooSmall)
  let buf := header h 0
  assert "V2_HEADER_SIZE == self.buf.len()" (v2HeaderSize = buf.length)
  let buf := buf ++ (List.range (maxSize - v2HeaderSize)).map uninit
  let slice ← sliceFrom buf v2HeaderSize
  let (slice, countsLen) ← encodeCounts h slice
  let buf := buf.take v2HeaderSize ++ slice
  let totalLen := v2HeaderSize + countsLen
  let buf := buf.take 4 ++ BigEndian.encode 4 (countsLen % 2 ^ 32) ++ buf.drop 8
  return (buf.take totalLen, totalLen)

/-! ## The compressed format -/

/-- The zlib library: what the encoder writes for some bytes, what the decoder reads before the
end or an error of some bytes, and how many it takes of the reader. The encoder is bounded by its
worst case, stored blocks. -/
structure Zlib where
  deflate : List UInt8 → List UInt8
  inflate : List UInt8 → List UInt8
  taken : List UInt8 → Nat
  inflate_deflate : ∀ bytes, inflate (deflate bytes) = bytes
  length_deflate : ∀ bytes, (deflate bytes).length ≤ 2 * bytes.length + 64

/-- A zlib that stores. -/
def Zlib.stored : Zlib where
  deflate := Stored.deflate
  inflate := Stored.inflate
  taken := List.length
  inflate_deflate := Stored.inflate_deflate
  length_deflate data := by
    rw [Stored.length_deflate]
    omega

/-- `V2DeflateSerializeError`, without the `IoError` that a `Vec<u8>` never gives. -/
inductive V2DeflateSerializeError
  | internalSerializationError (e : V2SerializeError)
  deriving DecidableEq, Repr

/-- `V2DeflateSerializer::serialize`: the bytes written and the length returned. -/
def serializeDeflate (zlib : Zlib) (h : Histogram) (uninit : Nat → UInt8) :
    Res V2DeflateSerializeError (List UInt8 × Nat) := do
  let (uncompressedBuf, uncompressedLen) ←
    mapErr .internalSerializationError (serialize h uninit)
  assert "self.uncompressed_buf.len() == uncompressed_len"
    (uncompressedBuf.length = uncompressedLen)
  let compressedBuf := BigEndian.encode 4 v2CompressedCookie ++ BigEndian.encode 4 0 ++
    zlib.deflate (uncompressedBuf.take uncompressedLen)
  let totalCompressedLen := compressedBuf.length
  let len ← subU (totalCompressedLen % 2 ^ 32) 8
  let compressedBuf := compressedBuf.take 4 ++ BigEndian.encode 4 len ++ compressedBuf.drop 8
  return (compressedBuf, totalCompressedLen)

/-! ## The payload -/

/-- The bytes of a signed number. -/
def code (t : Int) : List UInt8 := Varint.encode 8 (Varint.zigzag t)

/-- The bytes of a list of counts. -/
def payload (counts : List Nat) : List UInt8 := (ZeroRuns.tokens counts).flatMap code

/-- The counts are at most `i64::MAX`. -/
def Serializable (counts : List Nat) : Prop := ∀ c ∈ counts, c < 2 ^ 63

instance (counts : List Nat) : Decidable (Serializable counts) :=
  inferInstanceAs (Decidable (∀ c ∈ counts, c < 2 ^ 63))

theorem length_code_le (t : Int) : (code t).length ≤ 9 := Varint.length_encode_le 8 _

theorem payload_cons_of_ne {c : Nat} (h0 : c ≠ 0) (cs : List Nat) :
    payload (c :: cs) = code c ++ payload cs := by
  unfold payload ZeroRuns.tokens
  rw [ZeroRuns.tokensFrom, if_neg h0]
  rfl

theorem payload_cons_zero (cs : List Nat) : payload (0 :: cs) =
    (ZeroRuns.runTokens (1 + (cs.takeWhile (· = 0)).length)).flatMap code ++
      payload (cs.dropWhile (· = 0)) := by
  unfold payload ZeroRuns.tokens
  rw [ZeroRuns.tokensFrom, if_pos rfl, ZeroRuns.tokensFrom_succ, Nat.zero_add, List.flatMap_append]

theorem length_payload_le (cs : List Nat) : (payload cs).length ≤ 9 * cs.length := by
  have hsum : ∀ ts : List Int, (ts.flatMap code).length ≤ 9 * ts.length := by
    intro ts
    induction ts with
    | nil => exact Nat.le_refl _
    | cons t ts ih =>
      have hcode := length_code_le t
      rw [List.flatMap_cons, List.length_append, List.length_cons]
      omega
  have htokens := ZeroRuns.length_tokensFrom_le 0 cs
  have hle := hsum (ZeroRuns.tokens cs)
  unfold payload
  unfold ZeroRuns.tokens at hle ⊢
  omega

/-! ## The loop -/

/-- The counts from index `i` up to the limit. -/
def rest (counts : List Nat) (indexLimit i : Nat) : List Nat :=
  (counts.take (indexLimit + 1)).drop i

section
variable {counts : List Nat} {indexLimit i : Nat} (hlimit : indexLimit < counts.length)
include hlimit

theorem rest_cons (hi : i ≤ indexLimit) :
    rest counts indexLimit i = counts.getD i 0 :: rest counts indexLimit (i + 1) := by
  have hlt : i < (counts.take (indexLimit + 1)).length := by
    rw [List.length_take]
    omega
  rw [rest, List.drop_eq_getElem_cons hlt, List.getElem_take,
    List.getD_eq_getElem _ _ (by omega)]
  rfl

omit hlimit in
theorem rest_nil (hi : indexLimit < i) : rest counts indexLimit i = [] := by
  refine List.drop_of_length_le ?_
  rw [List.length_take]
  omega

theorem index_counts (hi : i ≤ indexLimit) :
    index (ε := ε) counts i = .ok (counts.getD i 0) := by
  rw [List.getD_eq_getElem _ _ (by omega)]
  exact index_ok (List.getElem?_eq_getElem (by omega))

theorem zeroRun_eq {fuel : Nat} (hfuel : indexLimit < fuel + i) (z : Nat) :
    zeroRun (ε := ε) counts indexLimit fuel i z =
      .ok (i + ((rest counts indexLimit i).takeWhile (· = 0)).length,
        z + ((rest counts indexLimit i).takeWhile (· = 0)).length) := by
  induction fuel generalizing i z with
  | zero =>
    rw [rest_nil (by omega)]
    rfl
  | succ fuel ih =>
    rw [zeroRun]
    by_cases hi : i ≤ indexLimit
    · rw [if_pos hi, index_counts hlimit hi, ok_bind, rest_cons hlimit hi]
      by_cases h0 : counts.getD i 0 = 0
      · rw [if_pos h0, ih (by omega), List.takeWhile_cons_of_pos (by simpa using h0),
          List.length_cons]
        simp only [Except.ok.injEq, Prod.mk.injEq]
        omega
      · rw [if_neg h0, List.takeWhile_cons_of_neg (by simpa using h0)]
        rfl
    · rw [if_neg hi, rest_nil (by omega)]
      rfl

omit hlimit in
theorem drop_takeWhile (cs : List Nat) :
    cs.drop (cs.takeWhile (· = 0)).length = cs.dropWhile (· = 0) := by
  have hsplit := List.takeWhile_append_dropWhile (p := fun c : Nat => decide (c = 0)) (l := cs)
  calc cs.drop (cs.takeWhile (· = 0)).length
      = (cs.takeWhile (· = 0) ++ cs.dropWhile (· = 0)).drop (cs.takeWhile (· = 0)).length := by
        rw [hsplit]
    _ = cs.dropWhile (· = 0) := List.drop_left

omit hlimit in
theorem serializable_dropWhile (cs : List Nat) :
    Serializable cs ↔ Serializable (cs.dropWhile (· = 0)) := by
  induction cs with
  | nil => exact Iff.rfl
  | cons c cs ih =>
    by_cases h0 : c = 0
    · subst h0
      rw [List.dropWhile_cons_of_pos (by simp), ← ih]
      simp [Serializable]
    · rw [List.dropWhile_cons_of_neg (by simpa using h0)]

omit hlimit in
theorem code_eq {num : BitVec 64} {t : Int} (h : num.toInt = t) :
    code t = Varint.encode 8 (zigZagEncode num).toNat := by
  rw [toNat_zigZagEncode, h]
  rfl

/-- One number of the payload: a count, a zero, or a run of zeros. -/
theorem countOrZeros_eq (hsize : indexLimit < 2 ^ 32) (hi : i ≤ indexLimit) :
    (¬ counts.getD i 0 < 2 ^ 63 ∧
      countOrZeros counts indexLimit i = .error (.err .countNotSerializable)) ∨
    ∃ num j, countOrZeros counts indexLimit i = .ok (num, j) ∧ i < j ∧ j ≤ indexLimit + 1 ∧
      counts.getD i 0 < 2 ^ 63 ∧
      payload (rest counts indexLimit i) =
        Varint.encode 8 (zigZagEncode num).toNat ++ payload (rest counts indexLimit j) ∧
      (Serializable (rest counts indexLimit i) ↔ Serializable (rest counts indexLimit j)) := by
  have hcons := rest_cons hlimit hi
  unfold countOrZeros
  rw [index_counts hlimit hi, ok_bind]
  by_cases h0 : counts.getD i 0 = 0
  · -- a run of zeros, of length `1 + k`
    obtain ⟨k, hk⟩ : ∃ k, k = ((rest counts indexLimit (i + 1)).takeWhile (· = 0)).length :=
      ⟨_, rfl⟩
    have hlen : k ≤ indexLimit - i := by
      have hle := (List.takeWhile_sublist (fun c : Nat => decide (c = 0))
        (l := rest counts indexLimit (i + 1))).length_le
      rw [rest, List.length_drop, List.length_take] at hle
      rw [hk, rest]
      omega
    have hrest : rest counts indexLimit (i + 1 + k) =
        (rest counts indexLimit (i + 1)).dropWhile (· = 0) := by
      rw [← drop_takeWhile, ← hk, rest, rest, List.drop_drop]
    have hpayload : payload (rest counts indexLimit i) =
        (ZeroRuns.runTokens (1 + k)).flatMap code ++
          payload (rest counts indexLimit (i + 1 + k)) := by
      rw [hcons, h0, payload_cons_zero, ← hk, hrest]
    have hserial : Serializable (rest counts indexLimit i) ↔
        Serializable (rest counts indexLimit (i + 1 + k)) := by
      rw [hcons, h0, serializable_dropWhile, List.dropWhile_cons_of_pos (by simp), hrest]
    rw [if_pos h0, zeroRun_eq hlimit (by omega), ok_bind, ← hk]
    by_cases hrun : 1 < 1 + k
    · have hnum : (BitVec.ofInt 64 (-((1 + k : Nat) : Int))).toInt = -((1 + k : Nat) : Int) := by
        rw [BitVec.toInt_ofInt]
        exact Int.bmod_eq_of_le_mul_two (by omega) (by omega)
      obtain ⟨n, rfl⟩ : ∃ n, k = n + 1 := ⟨k - 1, by omega⟩
      refine .inr ⟨_, i + 1 + (n + 1), if_pos hrun, by omega, by omega, by omega, ?_, hserial⟩
      rw [hpayload, ← code_eq hnum, show 1 + (n + 1) = n + 2 by omega]
      simp [ZeroRuns.runTokens]
    · obtain rfl : k = 0 := by omega
      refine .inr ⟨0#64, i + 1 + 0, by rw [h0]; rfl, by omega, by omega, by omega, ?_, hserial⟩
      rw [hpayload, ← code_eq BitVec.toInt_zero]
      simp [ZeroRuns.runTokens]
  · rw [if_neg h0, pure_eq_ok, ok_bind]
    by_cases hc : counts.getD i 0 < 2 ^ 63
    · have hnum : (BitVec.ofNat 64 (counts.getD i 0)).toInt = (counts.getD i 0 : Int) := by
        rw [BitVec.toInt_ofNat']
        exact Int.bmod_eq_of_le_mul_two (by omega) (by omega)
      refine .inr ⟨BitVec.ofNat 64 (counts.getD i 0), i + 1, ?_, by omega, by omega, hc, ?_, ?_⟩
      · simp only [Nat.not_lt_zero, if_false, toI64, if_pos hc, pure_eq_ok]
      · rw [hcons, payload_cons_of_ne h0, code_eq hnum]
      · rw [hcons]
        exact List.forall_mem_cons.trans ⟨And.right, fun hrest => ⟨hc, hrest⟩⟩
    · refine .inl ⟨hc, ?_⟩
      simp only [Nat.not_lt_zero, if_false, toI64, if_neg hc, throw_eq_error]

/-- **The loop of `encode_counts`**: the payload of the counts left, or the error if one of them is
too large. -/
theorem encodeLoop_eq (hsize : indexLimit < 2 ^ 32) {fuel : Nat} (hfuel : indexLimit < fuel + i)
    (done todo : List UInt8)
    (hroom : 9 * (rest counts indexLimit i).length ≤ todo.length) :
    encodeLoop counts indexLimit fuel i done.length (done ++ todo) =
      if Serializable (rest counts indexLimit i) then
        .ok (done ++ payload (rest counts indexLimit i) ++
            todo.drop (payload (rest counts indexLimit i)).length,
          done.length + (payload (rest counts indexLimit i)).length)
      else .error (.err .countNotSerializable) := by
  induction fuel generalizing i done todo with
  | zero =>
    rw [rest_nil (by omega)]
    simp [encodeLoop, Serializable, payload, ZeroRuns.tokens, ZeroRuns.tokensFrom,
      ZeroRuns.runTokens]
  | succ fuel ih =>
    rw [encodeLoop]
    by_cases hi : i ≤ indexLimit
    · rw [if_pos hi]
      rcases countOrZeros_eq hlimit hsize hi with ⟨hc, herr⟩ | ⟨num, j, hok, hlt, hle, hc, hp, hs⟩
      · have hnot : ¬ Serializable (rest counts indexLimit i) := fun hall =>
          hc (hall _ (by rw [rest_cons hlimit hi]; exact List.mem_cons_self))
        rw [herr, if_neg hnot]
        rfl
      · have hlen : (rest counts indexLimit i).length = indexLimit + 1 - i := by
          rw [rest, List.length_drop, List.length_take]
          omega
        have hlen' : (rest counts indexLimit j).length = indexLimit + 1 - j := by
          rw [rest, List.length_drop, List.length_take]
          omega
        have hcode := Varint.length_encode_le 8 (zigZagEncode num).toNat
        have hnext := ih (i := j) (by omega)
          (done ++ Varint.encode 8 (zigZagEncode num).toNat)
          (todo.drop (Varint.encode 8 (zigZagEncode num).toNat).length)
          (by rw [List.length_drop]; omega)
        rw [hok, ok_bind]
        simp only [sliceFrom, List.length_append, Nat.le_add_right, if_true, ok_bind,
          List.drop_left, List.take_left]
        rw [varintWrite_eq _ (by omega), ok_bind, ← List.append_assoc, ← List.length_append, hnext,
          hp, if_congr hs.symm rfl rfl]
        simp only [List.length_append, List.append_assoc, List.drop_drop, Nat.add_left_comm,
          Nat.add_comm]
    · rw [if_neg hi, rest_nil (by omega)]
      simp [Serializable, payload, ZeroRuns.tokens, ZeroRuns.tokensFrom, ZeroRuns.runTokens]

end

/-! ## The whole -/

/-- The counts that are written: up to the last occupied slot. -/
def written (h : Histogram) : List Nat := h.counts.take (Slots.last h.counts + 1)

@[simp] theorem length_header (h : Histogram) (len : Nat) : (header h len).length = 40 := by
  simp [header, headerTail]

/-- Writing a length over its placeholder, past the cookie. -/
theorem length_patch (cookie len : Nat) (bs : List UInt8) :
    (BigEndian.encode 4 cookie ++ (BigEndian.encode 4 0 ++ bs)).take 4 ++ BigEndian.encode 4 len ++
      (BigEndian.encode 4 cookie ++ (BigEndian.encode 4 0 ++ bs)).drop 8 =
      BigEndian.encode 4 cookie ++ (BigEndian.encode 4 len ++ bs) := by
  have hcookie : (BigEndian.encode 4 cookie).length = 4 := BigEndian.length_encode 4 cookie
  have hzero : (BigEndian.encode 4 0).length = 4 := BigEndian.length_encode 4 0
  rw [List.take_left' hcookie, ← List.append_assoc (BigEndian.encode 4 cookie),
    List.drop_left' (by rw [List.length_append, hcookie, hzero]), List.append_assoc]

theorem header_patch (h : Histogram) (len : Nat) (bs : List UInt8) :
    (header h 0 ++ bs).take 4 ++ BigEndian.encode 4 len ++ (header h 0 ++ bs).drop 8 =
      header h len ++ bs := by
  have hpatch := length_patch v2Cookie len (headerTail h ++ bs)
  simpa only [header, List.append_assoc] using hpatch

section
variable {fl : Floats} {h : Histogram} (hk : Kept fl h)
include hk

theorem length_le_bound : h.counts.length ≤ 66 * 2 ^ 17 := by
  rw [hk.length]
  exact bins_le hk.half_le hk.bucketCount_le

omit hk in
theorem serializable_written (h : Histogram) :
    Serializable (written h) ↔ Serializable h.counts := by
  refine ⟨fun hw c hc => ?_, fun hall c hc => hall c (List.mem_of_mem_take hc)⟩
  obtain ⟨i, hi, rfl⟩ := List.mem_iff_getElem.1 hc
  by_cases hle : i ≤ Slots.last h.counts
  · refine hw _ ?_
    rw [written, List.mem_take_iff_getElem]
    exact ⟨i, by omega, rfl⟩
  · by_contra hne
    refine hle (Slots.le_last ?_)
    rw [List.getD_eq_getElem _ _ hi]
    omega

theorem maxEncodedSize_eq :
    maxEncodedSize (ε := ε) h = .ok (some ((Slots.last h.counts + 1) * 9 + 40)) := by
  have hlast := hk.last_lt
  have hbound := length_le_bound hk
  unfold maxEncodedSize countsArrayMaxEncodedSize v2HeaderSize
  rw [hk.max, ok_bind, indexFor_eq hk.toHasLayout maxOf_lt, ok_bind, hk.slot_maxOf]
  simp only []
  rw [checkU_ok (by omega), ok_bind, if_pos (by omega), Option.bind_some, if_pos (by omega)]
  rfl

theorem encodeCounts_eq {buf : List UInt8} (hroom : 9 * (written h).length ≤ buf.length) :
    encodeCounts h buf = if Serializable h.counts then
      .ok (payload (written h) ++ buf.drop (payload (written h)).length,
        (payload (written h)).length)
      else .error (.err .countNotSerializable) := by
  have hlast := hk.last_lt
  have hbound := length_le_bound hk
  have hfuel : Slots.last h.counts < Slots.last h.counts + 1 + 0 := Nat.lt_succ_self _
  have hloop := encodeLoop_eq hlast (by omega) hfuel [] buf hroom
  unfold encodeCounts
  rw [hk.max, ok_bind, indexFor_eq hk.toHasLayout maxOf_lt, ok_bind, hk.slot_maxOf,
    expectSome_some, ok_bind, assert_ok (decide_eq_true (Nat.le_of_lt hlast)), ok_bind,
    ← if_congr (serializable_written h) rfl rfl]
  have hrest : rest h.counts (Slots.last h.counts) 0 = written h := rfl
  simpa [hrest] using hloop

/-- **`serialize`** writes the header and the payload, and fails only for a count above
`i64::MAX`. What the uncovered memory held does not matter. -/
theorem serialize_eq (uninit : Nat → UInt8) : serialize h uninit =
    if Serializable h.counts then
      .ok (header h (payload (written h)).length ++ payload (written h),
        40 + (payload (written h)).length)
    else .error (.err .countNotSerializable) := by
  have hlast := hk.last_lt
  have hbound := length_le_bound hk
  have hwritten : (written h).length = Slots.last h.counts + 1 := by
    rw [written, List.length_take]
    omega
  have hpayload := length_payload_le (written h)
  -- the buffer as `set_len` leaves it
  obtain ⟨junk, hjunk⟩ : ∃ junk, junk = (List.range ((Slots.last h.counts + 1) * 9 + 40 -
    v2HeaderSize)).map uninit := ⟨_, rfl⟩
  have hroom : 9 * (written h).length ≤ junk.length := by
    rw [hjunk, List.length_map, List.length_range, hwritten, v2HeaderSize]
    omega
  have hheader : (header h 0).length = v2HeaderSize := length_header h 0
  have hslice : sliceFrom (ε := V2SerializeError) (header h 0 ++ junk) v2HeaderSize = .ok junk := by
    rw [sliceFrom, if_pos (by rw [List.length_append, hheader]; omega)]
    exact congrArg _ (List.drop_left' hheader)
  unfold serialize
  rw [maxEncodedSize_eq hk, ok_bind]
  simp only [pure_eq_ok, ok_bind]
  rw [assert_ok (decide_eq_true hheader.symm), ok_bind, ← hjunk, hslice, ok_bind,
    encodeCounts_eq hk hroom]
  by_cases hs : Serializable h.counts
  · rw [if_pos hs, if_pos hs, ok_bind]
    simp only []
    rw [List.take_left' hheader, Nat.mod_eq_of_lt (by omega), header_patch, v2HeaderSize,
      ← List.append_assoc, List.take_left' (by simp)]
  · rw [if_neg hs, if_neg hs]
    rfl

end

end Chist.Serialization
