import Chist.Serialization.Serialize

/-!
# The deserializer

`deserialize` from a byte slice: the header, then the payload in two loops, a fast one over slices
of nine bytes and a slow one for the last bytes. Both decode the same numbers, so the fast one is
only an optimisation (`readCounts_eq`).
-/

set_option autoImplicit false

namespace Chist.Serialization

open Res Hdr

variable {ε : Type}

/-! ## Reading numbers -/

/-- `reader.read_exact` on a byte slice. -/
def readExact (n : Nat) (reader : List UInt8) : Res DeserializeError (List UInt8 × List UInt8) :=
  if n ≤ reader.length then .ok (reader.take n, reader.drop n) else .error (.err .ioError)

/-- A big endian read of `n` bytes. -/
def readBe (n : Nat) (reader : List UInt8) : Res DeserializeError (Nat × List UInt8) := do
  let (bytes, reader) ← readExact n reader
  return (BigEndian.decode bytes, reader)

/-! ## Decoding the counts -/

/-- `DecodeLoopState`, with the two values it is passed along with. -/
structure Decoding where
  destIndex : Nat
  restat : RestatState
  h : Histogram
  deriving DecidableEq, Repr

/-- `set_count_at_index`: `None` for its `Err(())`. -/
def setCountAtIndex (h : Histogram) (i count : Nat) : Option Histogram :=
  if i < h.counts.length then some { h with counts := h.counts.set i count } else none

/-- `-x` on `i64`, checked for overflow. -/
def negI64 (x : BitVec 64) : Res ε Int :=
  if x.toInt = -2 ^ 63 then .panic .overflow else .ok (-x.toInt)

/-- `i64::to_usize` and `u64::from_i64`. -/
def natOfI64 (x : Int) : Option Nat := if 0 ≤ x then some x.toNat else none

def okOr {α : Type} (e : ε) : Option α → Res ε α
  | some a => .ok a
  | none => .error (.err e)

def onDecodedNum (countOrZeros : BitVec 64) (d : Decoding) : Res DeserializeError Decoding := do
  if countOrZeros.toInt < 0 then
    let neg ← negI64 countOrZeros
    let zeroCount ← okOr .usizeTypeTooSmall (natOfI64 neg)
    -- skip the zeros
    let destIndex ← okOr .usizeTypeTooSmall (checkedAdd d.destIndex zeroCount)
    return { d with destIndex := destIndex }
  else
    let count ← okOr .unsuitableCounterType (natOfI64 countOrZeros.toInt)
    let d ←
      if 0 < count then do
        let h ← okOr .encodedArrayTooLong (setCountAtIndex d.h d.destIndex count)
        pure { d with h := h, restat := d.restat.onNonzeroCount d.destIndex count }
      else pure d
    let destIndex ← okOr .usizeTypeTooSmall (checkedAdd d.destIndex 1)
    return { d with destIndex := destIndex }

/-- The fast loop, while more than nine bytes are left: the index it stops at. The first argument
bounds the turns, each of which consumes a byte or more. -/
def fastLoop (payload : List UInt8) : Nat → Nat → Decoding → Res DeserializeError (Nat × Decoding)
  | 0, i, d => .ok (i, d)
  | fuel + 1, i, d => do
    if i < payload.length - 9 then
      let (zzNum, bytesRead) ← varintReadSlice ((payload.drop i).take 9)
      let d ← onDecodedNum (zigZagDecode (BitVec.ofNat 64 zzNum)) d
      fastLoop payload fuel (i + bytesRead) d
    else
      return (i, d)

/-- The slow loop, until the cursor is at its end. -/
def slowLoop : Nat → List UInt8 → Decoding → Res DeserializeError Decoding
  | 0, _, d => .ok d
  | fuel + 1, cursor, d => do
    if cursor ≠ [] then
      let (zzNum, cursor) ← varintRead cursor
      let d ← onDecodedNum (zigZagDecode (BitVec.ofNat 64 zzNum)) d
      slowLoop fuel cursor d
    else
      return d

/-- Both loops of `deser_v2`. -/
def readCounts (payload : List UInt8) (d : Decoding) : Res DeserializeError Decoding := do
  let (i, d) ← fastLoop payload payload.length 0 d
  slowLoop payload.length (payload.drop i) d

/-! ## The whole -/

/-- `deser_v2`: the histogram and the rest of the reader. -/
def deserV2 (fl : Floats) (reader : List UInt8) :
    Res DeserializeError (Histogram × List UInt8) := do
  let (payloadLen, reader) ← readBe 4 reader
  let (normalizingOffset, reader) ← readBe 4 reader
  if normalizingOffset ≠ 0 then throw (.err .unsupportedFeature)
  let (numDigits, reader) ← readBe 4 reader
  let numDigits ← okOr .invalidParameters (if numDigits < 2 ^ 8 then some numDigits else none)
  let (low, reader) ← readBe 8 reader
  let (high, reader) ← readBe 8 reader
  let (intDoubleRatio, reader) ← readBe 8 reader
  -- as floats: only the bits of 1.0 are equal to it
  if intDoubleRatio ≠ oneBits then throw (.err .unsupportedFeature)
  let h ← mapErr (fun _ => .invalidParameters) (Histogram.newWithBounds fl low high numDigits)
  let (payload, reader) ← readExact payloadLen reader
  let d ← readCounts payload ⟨0, RestatState.new, h⟩
  let h ← d.restat.updateHistogram d.h
  return (h, reader)

/-- `deser_v2_compressed`. -/
def deserV2Compressed (fl : Floats) (zlib : Zlib) (reader : List UInt8) :
    Res DeserializeError (Histogram × List UInt8) := do
  let (payloadLen, reader) ← readBe 4 reader
  let deflateReader := zlib.inflate (reader.take payloadLen)
  let (innerCookie, deflateReader) ← readBe 4 deflateReader
  if innerCookie ≠ v2Cookie then throw (.err .invalidCookie)
  let (h, _) ← deserV2 fl deflateReader
  return (h, reader.drop (zlib.taken (reader.take payloadLen)))

/-- `deserialize`: the histogram and the rest of the reader. -/
def deserialize (fl : Floats) (zlib : Zlib) (reader : List UInt8) :
    Res DeserializeError (Histogram × List UInt8) := do
  let (cookie, reader) ← readBe 4 reader
  if cookie = v2Cookie then deserV2 fl reader
  else if cookie = v2CompressedCookie then deserV2Compressed fl zlib reader
  else throw (.err .invalidCookie)

/-! ## One loop for two -/

/-- The slow loop with the turns it needs. -/
def readNums (bytes : List UInt8) (d : Decoding) : Res DeserializeError Decoding :=
  slowLoop bytes.length bytes d

theorem slowLoop_nil (fuel : Nat) (d : Decoding) : slowLoop fuel [] d = .ok d := by
  cases fuel with
  | zero => rfl
  | succ fuel => rfl

theorem slowLoop_congr {m n : Nat} {bytes : List UInt8} (hm : bytes.length ≤ m)
    (hn : bytes.length ≤ n) (d : Decoding) : slowLoop m bytes d = slowLoop n bytes d := by
  induction m generalizing n bytes d with
  | zero =>
    obtain rfl := List.length_eq_zero_iff.1 (Nat.le_zero.1 hm)
    rw [slowLoop_nil, slowLoop_nil]
  | succ m ih =>
    by_cases hnil : bytes = []
    · rw [hnil, slowLoop_nil, slowLoop_nil]
    · have hpos := List.length_pos_of_ne_nil hnil
      obtain ⟨n, rfl⟩ : ∃ n', n = n' + 1 := ⟨n - 1, by omega⟩
      rw [slowLoop, slowLoop, if_pos hnil, if_pos hnil, varintRead_eq]
      cases hdec : Varint.decode 8 bytes with
      | none => rfl
      | some r =>
        obtain ⟨v, tail⟩ := r
        obtain ⟨code, rfl, hne, -, -⟩ := Varint.decode_split hdec
        have hcode := List.length_pos_of_ne_nil hne
        rw [List.length_append] at hm hn
        simp only [ok_bind]
        exact congrArg _ (funext fun d' => ih (by omega) (by omega) d')

theorem slowLoop_eq {fuel : Nat} {bytes : List UInt8} (h : bytes.length ≤ fuel) (d : Decoding) :
    slowLoop fuel bytes d = readNums bytes d :=
  slowLoop_congr h (Nat.le_refl _) d

theorem readNums_code {bytes tail : List UInt8} {v : Nat}
    (h : Varint.decode 8 bytes = some (v, tail)) (d : Decoding) : readNums bytes d =
      onDecodedNum (zigZagDecode (BitVec.ofNat 64 v)) d >>= readNums tail := by
  obtain ⟨code, rfl, hne, -, -⟩ := Varint.decode_split h
  have hcode := List.length_pos_of_ne_nil hne
  have hnil : code ++ tail ≠ [] := by simp [hne]
  obtain ⟨n, hn⟩ : ∃ n, (code ++ tail).length = n + 1 :=
    ⟨(code ++ tail).length - 1, by rw [List.length_append]; omega⟩
  have htail : tail.length ≤ n := by
    rw [List.length_append] at hn
    omega
  rw [readNums, hn, slowLoop, if_pos hnil, varintRead_eq, h]
  simp only [ok_bind]
  exact congrArg _ (funext fun d' => slowLoop_eq htail d')

theorem fastLoop_slowLoop (payload : List UInt8) {fuel i : Nat}
    (hfuel : payload.length ≤ fuel + i) (d : Decoding) :
    (do let (i, d) ← fastLoop payload fuel i d
        slowLoop payload.length (payload.drop i) d) = readNums (payload.drop i) d := by
  have hslow : ∀ j d, slowLoop payload.length (payload.drop j) d = readNums (payload.drop j) d :=
    fun j d => slowLoop_eq (by rw [List.length_drop]; omega) d
  induction fuel generalizing i d with
  | zero =>
    rw [fastLoop, ok_bind]
    exact hslow i d
  | succ fuel ih =>
    rw [fastLoop]
    by_cases hi : i < payload.length - 9
    · have hlen : 9 ≤ ((payload.drop i).take 9).length := by
        rw [List.length_take, List.length_drop]
        omega
      obtain ⟨v, n, hread, hpos, hle, hdec⟩ := varintReadSlice_eq (ε := DeserializeError) hlen
      have hdec := hdec ((payload.drop i).drop 9)
      have htail : ((payload.drop i).take 9).drop n ++ (payload.drop i).drop 9 =
          payload.drop (i + n) := by
        rw [← List.drop_append_of_le_length (by omega), List.take_append_drop, List.drop_drop]
      rw [List.take_append_drop, htail] at hdec
      rw [if_pos hi, hread, readNums_code hdec]
      simp only [ok_bind, bind_assoc]
      exact congrArg _ (funext fun d' => ih (by omega) d')
    · rw [if_neg hi, pure_eq_ok, ok_bind]
      exact hslow i d

/-- Both loops are one. -/
theorem readCounts_eq (payload : List UInt8) (d : Decoding) :
    readCounts payload d = readNums payload d := by
  have hloops := fastLoop_slowLoop payload (Nat.le_refl (payload.length + 0)) d
  rwa [List.drop_zero] at hloops

/-- **The fast loop only saves time**: alone, the slow loop decodes every payload the same, to the
same histogram or the same failure. -/
theorem readCounts_slowLoop {payload : List UInt8} {fuel : Nat} (hfuel : payload.length ≤ fuel)
    (d : Decoding) : readCounts payload d = slowLoop fuel payload d := by
  rw [readCounts_eq, slowLoop_eq hfuel]

/-- Twelve bytes, of which the fast loop reads the first three. -/
theorem readCounts_slowLoop_sample :
    readCounts [2, 0, 4, 0, 6, 3, 130, 1, 8, 0, 2, 2]
        ⟨0, RestatState.new, fresh .exact 1 1000000 0⟩ =
      slowLoop 12 [2, 0, 4, 0, 6, 3, 130, 1, 8, 0, 2, 2]
        ⟨0, RestatState.new, fresh .exact 1 1000000 0⟩ :=
  readCounts_slowLoop
    (show ([2, 0, 4, 0, 6, 3, 130, 1, 8, 0, 2, 2] : List UInt8).length ≤ 12 by decide) _

end Chist.Serialization
