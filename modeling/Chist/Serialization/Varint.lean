import Chist.Rust
import Chist.Lib.Varint

/-!
# Varints and zigzag numbers of the V2 format

`varint_write`, `varint_read_slice` and `varint_read`, unrolled as in the source, and the zigzag
code. Signed numbers are `BitVec 64`, read as `i64`. No shift here loses bits: the source shifts 7
bits by at most 49, and a byte by 56.
-/

set_option autoImplicit false

namespace Chist.Serialization

open Res

inductive DeserializeError
  | ioError
  | invalidCookie
  | unsupportedFeature
  | unsuitableCounterType
  | invalidParameters
  | usizeTypeTooSmall
  | encodedArrayTooLong
  deriving DecidableEq, Repr

variable {ε : Type}

/-! ## Writing -/

/-- `buf[i] = b`. -/
def putByte (buf : List UInt8) (i : Nat) (b : UInt8) : Res ε (List UInt8) :=
  if i < buf.length then .ok (buf.set i b) else .panic .indexOutOfBounds

def shiftBy7s (input n : Nat) : Nat := input >>> (7 * n)

def nth7bChunkWithHighBit (input n : Nat) : UInt8 := UInt8.ofNat (shiftBy7s input n) ||| 0x80

/-- `varint_write`: the buffer and the number of bytes written. -/
def varintWrite (input : Nat) (buf : List UInt8) : Res ε (List UInt8 × Nat) := do
  if shiftBy7s input 1 = 0 then
    let buf ← putByte buf 0 (UInt8.ofNat input)
    return (buf, 1)
  let buf ← putByte buf 0 (0x80 ||| UInt8.ofNat (input &&& 0x7F))
  if shiftBy7s input 2 = 0 then
    let buf ← putByte buf 1 (UInt8.ofNat (shiftBy7s input 1))
    return (buf, 2)
  let buf ← putByte buf 1 (nth7bChunkWithHighBit input 1)
  if shiftBy7s input 3 = 0 then
    let buf ← putByte buf 2 (UInt8.ofNat (shiftBy7s input 2))
    return (buf, 3)
  let buf ← putByte buf 2 (nth7bChunkWithHighBit input 2)
  if shiftBy7s input 4 = 0 then
    let buf ← putByte buf 3 (UInt8.ofNat (shiftBy7s input 3))
    return (buf, 4)
  let buf ← putByte buf 3 (nth7bChunkWithHighBit input 3)
  if shiftBy7s input 5 = 0 then
    let buf ← putByte buf 4 (UInt8.ofNat (shiftBy7s input 4))
    return (buf, 5)
  let buf ← putByte buf 4 (nth7bChunkWithHighBit input 4)
  if shiftBy7s input 6 = 0 then
    let buf ← putByte buf 5 (UInt8.ofNat (shiftBy7s input 5))
    return (buf, 6)
  let buf ← putByte buf 5 (nth7bChunkWithHighBit input 5)
  if shiftBy7s input 7 = 0 then
    let buf ← putByte buf 6 (UInt8.ofNat (shiftBy7s input 6))
    return (buf, 7)
  let buf ← putByte buf 6 (nth7bChunkWithHighBit input 6)
  if shiftBy7s input 8 = 0 then
    let buf ← putByte buf 7 (UInt8.ofNat (shiftBy7s input 7))
    return (buf, 8)
  let buf ← putByte buf 7 (nth7bChunkWithHighBit input 7)
  -- the last byte is written whole
  let buf ← putByte buf 8 (UInt8.ofNat (input >>> 56))
  return (buf, 9)

def zigZagEncode (num : BitVec 64) : BitVec 64 := (num <<< 1) ^^^ num.sshiftRight 63

/-! ## Reading -/

def low7Bits (b : UInt8) : Nat := (b &&& 0x7F).toNat

def isHighBitSet (b : UInt8) : Bool := (b &&& 0x80) ≠ 0

/-- `varint_read_slice`: the number and how many bytes were consumed. -/
def varintReadSlice (slice : List UInt8) : Res ε (Nat × Nat) := do
  let b ← index slice 0
  let value := low7Bits b
  if ¬ isHighBitSet b then return (value, 1)
  let b ← index slice 1
  let value := value ||| (low7Bits b <<< 7)
  if ¬ isHighBitSet b then return (value, 2)
  let b ← index slice 2
  let value := value ||| (low7Bits b <<< (7 * 2))
  if ¬ isHighBitSet b then return (value, 3)
  let b ← index slice 3
  let value := value ||| (low7Bits b <<< (7 * 3))
  if ¬ isHighBitSet b then return (value, 4)
  let b ← index slice 4
  let value := value ||| (low7Bits b <<< (7 * 4))
  if ¬ isHighBitSet b then return (value, 5)
  let b ← index slice 5
  let value := value ||| (low7Bits b <<< (7 * 5))
  if ¬ isHighBitSet b then return (value, 6)
  let b ← index slice 6
  let value := value ||| (low7Bits b <<< (7 * 6))
  if ¬ isHighBitSet b then return (value, 7)
  let b ← index slice 7
  let value := value ||| (low7Bits b <<< (7 * 7))
  if ¬ isHighBitSet b then return (value, 8)
  let b ← index slice 8
  let value := value ||| (b.toNat <<< (7 * 8))
  return (value, 9)

/-- `reader.read_u8()` on a byte slice. -/
def readU8 : List UInt8 → Res DeserializeError (UInt8 × List UInt8)
  | [] => .error (.err .ioError)
  | b :: reader => .ok (b, reader)

/-- `varint_read`: the number and the rest of the reader. -/
def varintRead (reader : List UInt8) : Res DeserializeError (Nat × List UInt8) := do
  let (b, reader) ← readU8 reader
  let value := low7Bits b
  if ¬ isHighBitSet b then return (value, reader)
  let (b, reader) ← readU8 reader
  let value := value ||| (low7Bits b <<< 7)
  if ¬ isHighBitSet b then return (value, reader)
  let (b, reader) ← readU8 reader
  let value := value ||| (low7Bits b <<< (7 * 2))
  if ¬ isHighBitSet b then return (value, reader)
  let (b, reader) ← readU8 reader
  let value := value ||| (low7Bits b <<< (7 * 3))
  if ¬ isHighBitSet b then return (value, reader)
  let (b, reader) ← readU8 reader
  let value := value ||| (low7Bits b <<< (7 * 4))
  if ¬ isHighBitSet b then return (value, reader)
  let (b, reader) ← readU8 reader
  let value := value ||| (low7Bits b <<< (7 * 5))
  if ¬ isHighBitSet b then return (value, reader)
  let (b, reader) ← readU8 reader
  let value := value ||| (low7Bits b <<< (7 * 6))
  if ¬ isHighBitSet b then return (value, reader)
  let (b, reader) ← readU8 reader
  let value := value ||| (low7Bits b <<< (7 * 7))
  if ¬ isHighBitSet b then return (value, reader)
  let (b, reader) ← readU8 reader
  let value := value ||| (b.toNat <<< (7 * 8))
  return (value, reader)

def zigZagDecode (encoded : BitVec 64) : BitVec 64 := (encoded >>> 1) ^^^ -(encoded &&& 1)

/-! ## Bytes -/

theorem byte_bits (b : UInt8) : isHighBitSet b = decide (128 ≤ b.toNat) ∧
    low7Bits b = b.toNat % 128 ∧ b ||| 0x80 = UInt8.ofNat (b.toNat % 128 + 128) := by
  have hall : ∀ n : Fin 256, isHighBitSet (UInt8.ofNat n) = decide (128 ≤ n.val) ∧
      low7Bits (UInt8.ofNat n) = n.val % 128 ∧
      UInt8.ofNat n ||| 0x80 = UInt8.ofNat (n.val % 128 + 128) := by decide +kernel
  have hb := hall ⟨b.toNat, b.toNat_lt⟩
  rwa [UInt8.ofNat_toNat] at hb

theorem ofNat_or_high (x : Nat) : UInt8.ofNat x ||| 0x80 = UInt8.ofNat (x % 128 + 128) := by
  rw [(byte_bits _).2.2, UInt8.toNat_ofNat']
  congr 1
  omega

theorem high_or_ofNat_and (x : Nat) :
    (0x80 : UInt8) ||| UInt8.ofNat (x &&& 0x7F) = UInt8.ofNat (x % 128 + 128) := by
  rw [UInt8.or_comm, ofNat_or_high, Nat.and_two_pow_sub_one_eq_mod x 7]
  congr 1
  omega

theorem shiftBy7s_zero (x : Nat) : shiftBy7s x 0 = x := rfl

theorem shiftBy7s_succ (x n : Nat) : shiftBy7s x (n + 1) = shiftBy7s (x / 128) n := by
  unfold shiftBy7s
  rw [Nat.shiftRight_eq_div_pow, Nat.shiftRight_eq_div_pow, Nat.div_div_eq_div_mul, Nat.mul_add,
    Nat.pow_add, Nat.mul_comm]

/-! ## Writing as a loop -/

/-- The rest of `varint_write` from byte `i` on, with `n` digits of 7 bits to come. -/
def writeLoop : Nat → Nat → Nat → List UInt8 → Res ε (List UInt8 × Nat)
  | 0, x, i, buf => do
    let buf ← putByte buf i (UInt8.ofNat x)
    return (buf, i + 1)
  | n + 1, x, i, buf => do
    if x / 128 = 0 then
      let buf ← putByte buf i (UInt8.ofNat x)
      return (buf, i + 1)
    let buf ← putByte buf i (UInt8.ofNat (x % 128 + 128))
    writeLoop n (x / 128) (i + 1) buf

theorem varintWrite_eq_writeLoop (x : Nat) (buf : List UInt8) :
    varintWrite (ε := ε) x buf = writeLoop 8 x 0 buf := by
  have hlast : x >>> 56 = x / 128 / 128 / 128 / 128 / 128 / 128 / 128 / 128 := by
    rw [Nat.shiftRight_eq_div_pow]
    omega
  simp only [varintWrite, writeLoop, shiftBy7s_succ, shiftBy7s_zero, nth7bChunkWithHighBit,
    ofNat_or_high, high_or_ofNat_and, hlast]

theorem writeLoop_eq (n x : Nat) (done todo : List UInt8) (hlen : n < todo.length) :
    writeLoop (ε := ε) n x done.length (done ++ todo) =
      .ok (done ++ Varint.encode n x ++ todo.drop (Varint.encode n x).length,
        done.length + (Varint.encode n x).length) := by
  obtain ⟨b, todo, rfl⟩ := List.exists_cons_of_length_pos (Nat.zero_lt_of_lt hlen)
  have hput : ∀ c, putByte (ε := ε) (done ++ b :: todo) done.length c =
      .ok (done ++ c :: todo) := by
    intro c
    rw [putByte, if_pos (by simp)]
    simp
  induction n generalizing x done b todo with
  | zero =>
    rw [writeLoop, hput]
    simp [Varint.encode]
  | succ n ih =>
    rw [writeLoop, Varint.encode]
    by_cases hx : x < 128
    · rw [if_pos (Nat.div_eq_of_lt hx), if_pos hx, hput]
      simp
    · rw [if_neg (by omega), if_neg hx, hput, ok_bind]
      obtain ⟨b', todo, rfl⟩ := List.exists_cons_of_length_pos
        (l := todo) (by simp at hlen; omega)
      have hnext := ih (x / 128) (done ++ [UInt8.ofNat (x % 128 + 128)]) b' todo
        (by simpa using hlen) (by
          intro c
          rw [putByte, if_pos (by simp)]
          simp)
      rw [List.length_cons, List.drop_succ_cons]
      simpa [Nat.add_assoc, Nat.add_comm] using hnext

/-- **`varint_write`** writes the code of its input, and nothing after it. -/
theorem varintWrite_eq (x : Nat) {buf : List UInt8} (hlen : 9 ≤ buf.length) :
    varintWrite (ε := ε) x buf = .ok (Varint.encode 8 x ++ buf.drop (Varint.encode 8 x).length,
      (Varint.encode 8 x).length) := by
  have hloop := writeLoop_eq (ε := ε) 8 x [] buf hlen
  rw [varintWrite_eq_writeLoop]
  simpa using hloop

/-! ## Reading as a loop -/

section
variable {σ : Type} (next : σ → Res ε (UInt8 × σ))

/-- The rest of both readers from digit `k` on, with `n` digits of 7 bits to come. -/
def readLoop : Nat → Nat → Nat → σ → Res ε (Nat × σ)
  | 0, k, value, s => do
    let (b, s) ← next s
    return (value ||| (b.toNat <<< (7 * k)), s)
  | n + 1, k, value, s => do
    let (b, s) ← next s
    let value := value ||| (low7Bits b <<< (7 * k))
    if ¬ isHighBitSet b then return (value, s)
    readLoop n (k + 1) value s

theorem or_digit {value k : Nat} (h : value < 2 ^ (7 * k)) (d : Nat) :
    value ||| (d <<< (7 * k)) = value + d * 2 ^ (7 * k) := by
  rw [Nat.or_comm, ← Nat.shiftLeft_add_eq_or_of_lt h, Nat.shiftLeft_eq, Nat.add_comm]

/-- Where the source of bytes is `bytes s` in state `s`, the loop decodes them. -/
theorem readLoop_eq {good : σ → Prop} {bytes : σ → List UInt8}
    (hnext : ∀ s b bs, good s → bytes s = b :: bs →
      ∃ s', next s = .ok (b, s') ∧ good s' ∧ bytes s' = bs)
    {n k value : Nat} {s : σ} (hs : good s) (hvalue : value < 2 ^ (7 * k)) {v : Nat}
    {rest : List UInt8} (hdec : Varint.decode n (bytes s) = some (v, rest)) :
    ∃ s', readLoop next n k value s = .ok (value + v * 2 ^ (7 * k), s') ∧ good s' ∧
      bytes s' = rest := by
  induction n generalizing k value s v with
  | zero =>
    cases hbytes : bytes s with
    | nil => rw [hbytes] at hdec; cases hdec
    | cons b bs =>
      obtain ⟨s', h1, h2, h3⟩ := hnext s b bs hs hbytes
      simp only [hbytes, Varint.decode, Option.some.injEq, Prod.mk.injEq] at hdec
      obtain ⟨rfl, rfl⟩ := hdec
      refine ⟨s', ?_, h2, h3⟩
      rw [readLoop, h1, ok_bind]
      simp only [or_digit hvalue, pure_eq_ok]
  | succ n ih =>
    cases hbytes : bytes s with
    | nil => rw [hbytes] at hdec; cases hdec
    | cons b bs =>
      obtain ⟨s', h1, h2, h3⟩ := hnext s b bs hs hbytes
      have hb := b.toNat_lt
      rw [hbytes, Varint.decode] at hdec
      rw [readLoop, h1, ok_bind]
      simp only [(byte_bits b).1, (byte_bits b).2.1, or_digit hvalue, decide_eq_true_eq]
      by_cases hlt : b.toNat < 128
      · rw [if_pos hlt, Option.some.injEq, Prod.mk.injEq] at hdec
        obtain ⟨rfl, rfl⟩ := hdec
        exact ⟨s', by rw [if_pos (by omega), Nat.mod_eq_of_lt hlt, pure_eq_ok], h2, h3⟩
      · rw [if_neg hlt] at hdec
        obtain ⟨⟨w, r⟩, hr, he⟩ := Option.map_eq_some_iff.1 hdec
        simp only [Prod.mk.injEq] at he
        obtain ⟨rfl, rfl⟩ := he
        have hpow : 2 ^ (7 * (k + 1)) = 128 * 2 ^ (7 * k) := by
          rw [Nat.mul_add, Nat.pow_add, Nat.mul_comm]
        have hvalue' : value + b.toNat % 128 * 2 ^ (7 * k) < 2 ^ (7 * (k + 1)) := by
          have hmod : b.toNat % 128 ≤ 127 := by omega
          have hmul := Nat.mul_le_mul_right (2 ^ (7 * k)) hmod
          omega
        obtain ⟨s'', h4, h5, h6⟩ := ih h2 hvalue' (h3 ▸ hr)
        refine ⟨s'', ?_, h5, h6⟩
        have hsub : b.toNat % 128 = b.toNat - 128 := by omega
        rw [if_neg (by omega), h4, hpow, hsub]
        congr 2
        ring

end

/-! ## The two readers -/

theorem varintRead_eq_readLoop (reader : List UInt8) :
    varintRead reader = readLoop readU8 8 0 0 reader := by
  simp only [varintRead, readLoop, Nat.zero_or, Nat.mul_zero, Nat.shiftLeft_zero]

/-- The next byte of a slice, at position `i`. -/
def nextOf (slice : List UInt8) (i : Nat) : Res ε (UInt8 × Nat) := do
  let b ← index slice i
  return (b, i + 1)

theorem varintReadSlice_eq_readLoop (slice : List UInt8) :
    varintReadSlice (ε := ε) slice = readLoop (nextOf slice) 8 0 0 0 := by
  simp only [varintReadSlice, readLoop, nextOf, bind_assoc, pure_bind, Nat.zero_or, Nat.mul_zero,
    Nat.shiftLeft_zero]

theorem readLoop_eof {n : Nat} {reader : List UInt8} (h : Varint.decode n reader = none)
    (k value : Nat) : readLoop readU8 n k value reader = .error (.err .ioError) := by
  induction n generalizing reader k value with
  | zero =>
    cases reader with
    | nil => rfl
    | cons b bs => cases h
  | succ n ih =>
    cases reader with
    | nil => rfl
    | cons b bs =>
      rw [Varint.decode] at h
      split at h
      · cases h
      · rename_i hb
        have hhigh : isHighBitSet b = true := by
          rw [(byte_bits b).1]
          exact decide_eq_true (by omega)
        rw [readLoop, readU8, ok_bind]
        simp only [hhigh, not_true_eq_false, if_false]
        exact ih (Option.map_eq_none_iff.1 h) _ _

/-- **`varint_read`** decodes the reader's bytes, and fails only where they run out. -/
theorem varintRead_eq (reader : List UInt8) : varintRead reader =
    match Varint.decode 8 reader with
    | some r => .ok r
    | none => .error (.err .ioError) := by
  rw [varintRead_eq_readLoop]
  cases hdec : Varint.decode 8 reader with
  | none => exact readLoop_eof hdec 0 0
  | some r =>
    obtain ⟨v, rest⟩ := r
    have hnext : ∀ s b bs, True → id s = b :: bs →
        ∃ s', readU8 s = .ok (b, s') ∧ True ∧ id s' = bs := by
      rintro s b bs - rfl
      exact ⟨bs, rfl, trivial, rfl⟩
    obtain ⟨s', h1, -, h3⟩ :=
      readLoop_eq readU8 hnext (k := 0) (s := reader) trivial (Nat.two_pow_pos _) hdec
    obtain rfl : s' = rest := h3
    rw [h1]
    simp

/-- **`varint_read_slice`** reads what `varint_read` reads, and counts the bytes. -/
theorem varintReadSlice_eq {slice : List UInt8} (hlen : 9 ≤ slice.length) :
    ∃ v n, varintReadSlice (ε := ε) slice = .ok (v, n) ∧ 0 < n ∧ n ≤ 9 ∧
      ∀ tail, Varint.decode 8 (slice ++ tail) = some (v, slice.drop n ++ tail) := by
  obtain ⟨⟨v, rest⟩, hdec⟩ := Varint.decode_isSome (show 8 < slice.length by omega)
  obtain ⟨code, hsplit, hne, hle, hread⟩ := Varint.decode_split hdec
  have hnext : ∀ i b bs, i ≤ slice.length → slice.drop i = b :: bs →
      ∃ i', nextOf (ε := ε) slice i = .ok (b, i') ∧ i' ≤ slice.length ∧ slice.drop i' = bs := by
    intro i b bs hi hbs
    have hlt : i < slice.length := by
      by_contra hge
      rw [List.drop_of_length_le (by omega)] at hbs
      cases hbs
    rw [List.drop_eq_getElem_cons hlt, List.cons.injEq] at hbs
    refine ⟨i + 1, ?_, hlt, hbs.2⟩
    rw [nextOf, index_ok (List.getElem?_eq_getElem hlt), hbs.1, ok_bind]
    rfl
  obtain ⟨n, h1, h2, h3⟩ := readLoop_eq (nextOf slice) hnext (k := 0) (s := 0) (Nat.zero_le _)
    (Nat.two_pow_pos _) hdec
  have hn : n = code.length := by
    have hlen' := congrArg List.length h3
    have hlen'' := congrArg List.length hsplit
    rw [List.length_drop] at hlen'
    rw [List.length_append] at hlen''
    omega
  refine ⟨v, n, ?_, hn ▸ List.length_pos_of_ne_nil hne, by omega, fun tail => ?_⟩
  · rw [varintReadSlice_eq_readLoop, h1]
    simp
  · rw [h3, hsplit, List.append_assoc, hread]

/-! ## Zigzag -/

theorem sshiftRight_63 (x : BitVec 64) :
    x.sshiftRight 63 = if x.toInt < 0 then BitVec.allOnes 64 else 0#64 := by
  have h1 := BitVec.le_toInt x
  have h2 := BitVec.toInt_lt (x := x)
  apply BitVec.eq_of_toInt_eq
  rw [BitVec.toInt_sshiftRight, Int.shiftRight_eq_div_pow]
  split
  · rw [BitVec.toInt_allOnes]
    simp only [Nat.cast_pow, Nat.cast_ofNat]
    omega
  · simp only [BitVec.toInt_zero]
    omega

/-- **`zig_zag_encode`** is the zigzag code. -/
theorem toNat_zigZagEncode (x : BitVec 64) :
    (zigZagEncode x).toNat = Varint.zigzag x.toInt := by
  have hlt := x.isLt
  unfold zigZagEncode Varint.zigzag
  rw [sshiftRight_63]
  by_cases hneg : x.toInt < 0
  · rw [if_pos hneg, if_pos hneg, BitVec.xor_allOnes, BitVec.toNat_not, BitVec.toNat_shiftLeft,
      Nat.shiftLeft_eq]
    rw [BitVec.toInt_eq_toNat_cond] at hneg ⊢
    omega
  · rw [if_neg hneg, if_neg hneg, BitVec.xor_zero, BitVec.toNat_shiftLeft, Nat.shiftLeft_eq]
    rw [BitVec.toInt_eq_toNat_cond] at hneg ⊢
    omega

/-- **`zig_zag_decode`** is its inverse. -/
theorem toInt_zigZagDecode (x : BitVec 64) :
    (zigZagDecode x).toInt = Varint.unzigzag x.toNat := by
  have hlt := x.isLt
  have hand : (x &&& 1).toNat = x.toNat % 2 := by
    rw [BitVec.toNat_and]
    exact Nat.and_two_pow_sub_one_eq_mod x.toNat 1
  unfold zigZagDecode Varint.unzigzag
  by_cases heven : x.toNat % 2 = 0
  · have h0 : x &&& 1 = 0#64 := BitVec.eq_of_toNat_eq (by rw [hand, heven]; rfl)
    rw [h0, if_pos heven, BitVec.neg_zero, BitVec.xor_zero, BitVec.toInt_eq_toNat_cond,
      BitVec.toNat_ushiftRight, Nat.shiftRight_eq_div_pow]
    omega
  · have h1 : x &&& 1 = 1#64 := BitVec.eq_of_toNat_eq (by rw [hand]; simp; omega)
    rw [h1, if_neg heven, show -(1#64) = BitVec.allOnes 64 from rfl, BitVec.xor_allOnes,
      BitVec.toInt_eq_toNat_cond, BitVec.toNat_not, BitVec.toNat_ushiftRight,
      Nat.shiftRight_eq_div_pow]
    omega

theorem zigZagDecode_zigZagEncode (x : BitVec 64) : zigZagDecode (zigZagEncode x) = x := by
  apply BitVec.eq_of_toInt_eq
  rw [toInt_zigZagDecode, toNat_zigZagEncode, Varint.unzigzag_zigzag]

/-- **A signed number comes back** from its bytes, through either reader, whatever follows them; the
rest of the buffer is as it was. -/
theorem varint_roundtrip (num : BitVec 64) {buf : List UInt8} (hlen : 9 ≤ buf.length)
    (tail : List UInt8) : ∃ out n, 0 < n ∧ n ≤ 9 ∧
      varintWrite (ε := ε) (zigZagEncode num).toNat buf = .ok (out, n) ∧
      out.length = buf.length ∧ out.drop n = buf.drop n ∧
      ∃ v, varintRead (out.take n ++ tail) = .ok (v, tail) ∧
        varintReadSlice (ε := ε) out = .ok (v, n) ∧ zigZagDecode (BitVec.ofNat 64 v) = num := by
  have hx := (zigZagEncode num).isLt
  have hle := Varint.length_encode_le 8 (zigZagEncode num).toNat
  have hpos := List.length_pos_of_ne_nil (Varint.encode_ne_nil 8 (zigZagEncode num).toNat)
  have hdec := fun bs => Varint.decode_encode (n := 8) (x := (zigZagEncode num).toNat)
    (by omega) bs
  have hwrite := varintWrite_eq (ε := ε) (zigZagEncode num).toNat hlen
  generalize hcode : Varint.encode 8 (zigZagEncode num).toNat = code at hle hpos hdec hwrite
  have hout : (code ++ buf.drop code.length).length = buf.length := by
    rw [List.length_append, List.length_drop]
    omega
  refine ⟨_, _, hpos, hle, hwrite, hout, List.drop_left, (zigZagEncode num).toNat, ?_, ?_, ?_⟩
  · rw [List.take_left, varintRead_eq, hdec]
  · have hlong : 9 ≤ (code ++ buf.drop code.length).length := by omega
    obtain ⟨v, n, hread, -, hn9, hslice⟩ := varintReadSlice_eq (ε := ε) hlong
    have hslice := hslice []
    rw [List.append_nil, List.append_nil, hdec, Option.some.injEq, Prod.mk.injEq] at hslice
    obtain ⟨rfl, hrest⟩ := hslice
    have hn := congrArg List.length hrest
    rw [List.length_drop, List.length_drop, hout] at hn
    obtain rfl : code.length = n := by omega
    exact hread
  · rw [BitVec.ofNat_toNat, BitVec.setWidth_eq, zigZagDecode_zigZagEncode]

theorem varint_roundtrip_sample : ∃ out n, 0 < n ∧ n ≤ 9 ∧
      varintWrite (ε := Empty) (zigZagEncode (-300)).toNat (List.replicate 9 0) = .ok (out, n) ∧
      out.length = 9 ∧ out.drop n = (List.replicate 9 0).drop n ∧
      ∃ v, varintRead (out.take n ++ [5]) = .ok (v, [5]) ∧
        varintReadSlice (ε := Empty) out = .ok (v, n) ∧ zigZagDecode (BitVec.ofNat 64 v) = -300 :=
  varint_roundtrip (-300) (by decide) [5]

end Chist.Serialization
