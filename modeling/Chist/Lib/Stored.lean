import Chist.Lib.Varint

/-!
# Stored zlib streams

The zlib format with stored blocks: two bytes of header, blocks of at most 65535 bytes that hold
their data as they are, and a checksum. Reading a stream gives its data back (`inflate_deflate`).
-/

set_option autoImplicit false

namespace Stored

/-- A stored block: its kind, its length, the complement of its length, and its data. -/
def block (final : UInt8) (data : List UInt8) : List UInt8 :=
  final :: UInt8.ofNat data.length :: UInt8.ofNat (data.length / 256) ::
    UInt8.ofNat (65535 - data.length) :: UInt8.ofNat ((65535 - data.length) / 256) :: data

/-- The blocks of some data: `n` full ones that others follow, and the final one. -/
def blocks : Nat → List UInt8 → List UInt8
  | 0, data => block 1 data
  | n + 1, data => block 0 (data.take 65535) ++ blocks n (data.drop 65535)

/-- The data of at most `n` blocks. -/
def readBlocks : Nat → List UInt8 → List UInt8
  | n + 1, final :: l0 :: l1 :: _ :: _ :: stream =>
    let length := l0.toNat + 256 * l1.toNat
    stream.take length ++ if final = 1 then [] else readBlocks n (stream.drop length)
  | _, _ => []

/-- The Adler-32 checksum. -/
def adler32 (data : List UInt8) : Nat :=
  let sums := data.foldl (fun (sums : Nat × Nat) b =>
    let a := (sums.1 + b.toNat) % 65521
    (a, (sums.2 + a) % 65521)) (1, 0)
  sums.2 * 65536 + sums.1

/-- The stream of some data. -/
def deflate (data : List UInt8) : List UInt8 :=
  0x78 :: 0x01 :: (blocks (data.length / 65535) data ++ BigEndian.encode 4 (adler32 data))

/-- The data of a stream. The checksum comes too late to change what was read. -/
def inflate (stream : List UInt8) : List UInt8 := readBlocks stream.length (stream.drop 2)

theorem readBlocks_block {n : Nat} {final : UInt8} {data : List UInt8} (hlen : data.length < 65536)
    (tail : List UInt8) : readBlocks (n + 1) (block final data ++ tail) =
      data ++ if final = 1 then [] else readBlocks n tail := by
  have hlength : (UInt8.ofNat data.length).toNat + 256 * (UInt8.ofNat (data.length / 256)).toNat =
      data.length := by
    rw [UInt8.toNat_ofNat', UInt8.toNat_ofNat']
    omega
  simp only [block, List.cons_append, readBlocks, hlength, List.take_left, List.drop_left]

theorem readBlocks_blocks {m n : Nat} {data : List UInt8} (hlen : data.length / 65535 = n)
    (hmn : n < m) (tail : List UInt8) : readBlocks m (blocks n data ++ tail) = data := by
  induction n generalizing m data with
  | zero =>
    obtain ⟨m, rfl⟩ : ∃ k, m = k + 1 := ⟨m - 1, by omega⟩
    rw [blocks, readBlocks_block (by omega), if_pos rfl, List.append_nil]
  | succ n ih =>
    obtain ⟨m, rfl⟩ : ∃ k, m = k + 1 := ⟨m - 1, by omega⟩
    have hfull : (data.take 65535).length < 65536 := by
      rw [List.length_take]
      omega
    have hrest : (data.drop 65535).length / 65535 = n := by
      rw [List.length_drop]
      omega
    rw [blocks, List.append_assoc, readBlocks_block hfull, if_neg (by decide),
      ih hrest (by omega), List.take_append_drop]

theorem length_blocks {n : Nat} {data : List UInt8} (hlen : data.length / 65535 = n) :
    (blocks n data).length = data.length + 5 * (n + 1) := by
  induction n generalizing data with
  | zero => simp [blocks, block]
  | succ n ih =>
    have hrest : (data.drop 65535).length / 65535 = n := by
      rw [List.length_drop]
      omega
    rw [blocks, List.length_append, ih hrest]
    simp only [block, List.length_cons, List.length_take, List.length_drop]
    omega

/-- **Reading a stream** gives its data back. -/
theorem inflate_deflate (data : List UInt8) : inflate (deflate data) = data := by
  have hblocks : (blocks (data.length / 65535) data).length =
      data.length + 5 * (data.length / 65535) + 5 := length_blocks rfl
  refine readBlocks_blocks rfl ?_ _
  rw [deflate, List.length_cons, List.length_cons, List.length_append, hblocks]
  omega

theorem mem_readBlocks {n : Nat} {stream : List UInt8} {b : UInt8}
    (h : b ∈ readBlocks n stream) : b ∈ stream := by
  induction n generalizing stream with
  | zero => simp [readBlocks] at h
  | succ n ih =>
    match stream, h with
    | [], h | [_], h | [_, _], h | [_, _, _], h | [_, _, _, _], h => simp [readBlocks] at h
    | final :: l0 :: l1 :: c0 :: c1 :: stream, h =>
      have hmem : b ∈ stream := by
        rw [readBlocks, List.mem_append] at h
        rcases h with h | h
        · exact List.mem_of_mem_take h
        · split at h
          · cases h
          · exact List.mem_of_mem_drop (ih h)
      simp [hmem]

theorem mem_inflate {stream : List UInt8} {b : UInt8} (h : b ∈ inflate stream) : b ∈ stream :=
  List.mem_of_mem_drop (mem_readBlocks h)

theorem length_deflate (data : List UInt8) :
    (deflate data).length = data.length + 5 * (data.length / 65535) + 11 := by
  rw [deflate, List.length_cons, List.length_cons, List.length_append, length_blocks rfl,
    BigEndian.length_encode]
  omega

end Stored
