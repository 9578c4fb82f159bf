import Mathlib.Data.List.Induction
import Mathlib.Tactic.Ring

/-!
# Numbers as bytes

Big endian codes of a fixed length, and variable-length ones: little endian base 128 codes with at
most `n` digits of 7 bits, each but the last marked by its high bit, and a whole byte after `n`
marked digits. Decoding an encoding gives the number back and
leaves what follows (`decode_encode`), and a decoder reads the same from its own bytes whatever
follows them (`decode_split`). The zigzag code maps signed numbers to unsigned ones.
-/

set_option autoImplicit false

/-! ## Big endian -/

namespace BigEndian

/-- The last `n` bytes of `x`. -/
def encode : Nat → Nat → List UInt8
  | 0, _ => []
  | n + 1, x => encode n (x / 256) ++ [UInt8.ofNat x]

def decode (bs : List UInt8) : Nat := bs.foldl (fun x b => x * 256 + b.toNat) 0

@[simp] theorem length_encode (n x : Nat) : (encode n x).length = n := by
  induction n generalizing x with
  | zero => rfl
  | succ n ih => rw [encode, List.length_append, ih, List.length_singleton]

theorem decode_encode {n x : Nat} (h : x < 256 ^ n) : decode (encode n x) = x := by
  induction n generalizing x with
  | zero =>
    obtain rfl : x = 0 := by simpa using h
    rfl
  | succ n ih =>
    have hdiv : x / 256 < 256 ^ n := by
      rw [Nat.div_lt_iff_lt_mul (by decide)]
      exact h
    have hstep : decode (encode (n + 1) x) =
        decode (encode n (x / 256)) * 256 + (UInt8.ofNat x).toNat := by
      rw [encode, decode, List.foldl_append]
      rfl
    rw [hstep, ih hdiv, UInt8.toNat_ofNat']
    omega

theorem decode_lt (bs : List UInt8) : decode bs < 256 ^ bs.length := by
  induction bs using List.reverseRecOn with
  | nil => exact Nat.one_pos
  | append_singleton bs b ih =>
    have hb := b.toNat_lt
    have hstep : decode (bs ++ [b]) = decode bs * 256 + b.toNat := by
      rw [decode, List.foldl_append]
      rfl
    rw [hstep, List.length_append, List.length_singleton, Nat.pow_succ]
    omega

end BigEndian

/-! ## Base 128 -/

namespace Varint

def encode : Nat → Nat → List UInt8
  | 0, x => [UInt8.ofNat x]
  | n + 1, x =>
    if x < 128 then [UInt8.ofNat x] else UInt8.ofNat (x % 128 + 128) :: encode n (x / 128)

def decode : Nat → List UInt8 → Option (Nat × List UInt8)
  | _, [] => none
  | 0, b :: bs => some (b.toNat, bs)
  | n + 1, b :: bs =>
    if b.toNat < 128 then some (b.toNat, bs)
    else (decode n bs).map fun r => (b.toNat - 128 + 128 * r.1, r.2)

theorem encode_ne_nil (n x : Nat) : encode n x ≠ [] := by
  cases n with
  | zero => exact List.cons_ne_nil _ _
  | succ n =>
    rw [encode]
    split <;> exact List.cons_ne_nil _ _

theorem length_encode_le (n x : Nat) : (encode n x).length ≤ n + 1 := by
  induction n generalizing x with
  | zero => exact Nat.le_refl _
  | succ n ih =>
    rw [encode]
    split
    · exact Nat.succ_le_succ (Nat.zero_le _)
    · exact Nat.succ_le_succ (ih _)

/-- **Decoding an encoding**, whatever follows it. -/
theorem decode_encode {n x : Nat} (h : x < 128 ^ n * 256) (bs : List UInt8) :
    decode n (encode n x ++ bs) = some (x, bs) := by
  induction n generalizing x with
  | zero =>
    rw [encode, List.singleton_append, decode, UInt8.toNat_ofNat', Nat.mod_eq_of_lt (by omega)]
  | succ n ih =>
    rw [encode]
    split
    · rename_i hx
      rw [List.singleton_append, decode, UInt8.toNat_ofNat', Nat.mod_eq_of_lt (by omega), if_pos hx]
    · have hdiv : x / 128 < 128 ^ n * 256 := by
        rw [Nat.div_lt_iff_lt_mul (by decide)]
        calc x < 128 ^ (n + 1) * 256 := h
          _ = 128 ^ n * 256 * 128 := by ring
      rw [List.cons_append, decode, UInt8.toNat_ofNat', Nat.mod_eq_of_lt (by omega),
        if_neg (by omega), ih hdiv, Option.map_some]
      simp only [Option.some.injEq, Prod.mk.injEq, and_true]
      omega

theorem decode_lt {n v : Nat} {bs rest : List UInt8} (h : decode n bs = some (v, rest)) :
    v < 128 ^ n * 256 := by
  induction n generalizing bs v rest with
  | zero =>
    cases bs with
    | nil => cases h
    | cons b bs =>
      simp only [decode, Option.some.injEq, Prod.mk.injEq] at h
      have hb := b.toNat_lt
      omega
  | succ n ih =>
    have hpow : 128 ^ (n + 1) * 256 = 128 * (128 ^ n * 256) := by ring
    have hpos : 0 < 128 ^ n := Nat.pow_pos (by decide)
    cases bs with
    | nil => cases h
    | cons b bs =>
      have hb := b.toNat_lt
      rw [decode] at h
      split at h
      · simp only [Option.some.injEq, Prod.mk.injEq] at h
        omega
      · obtain ⟨⟨w, r⟩, hr, he⟩ := Option.map_eq_some_iff.1 h
        have hw := ih hr
        simp only [Prod.mk.injEq] at he
        omega

theorem decode_max {n : Nat} {bs rest : List UInt8}
    (h : decode n bs = some (128 ^ n * 256 - 1, rest)) :
    bs = List.replicate (n + 1) 255 ++ rest := by
  have htop : ∀ b : UInt8, b.toNat = 255 → b = 255 := fun _ hb => UInt8.toNat_inj.1 hb
  induction n generalizing bs rest with
  | zero =>
    cases bs with
    | nil => cases h
    | cons b bs =>
      simp only [decode, Option.some.injEq, Prod.mk.injEq] at h
      rw [htop b (by simpa using h.1), h.2]
      rfl
  | succ n ih =>
    have hpow : 128 ^ (n + 1) * 256 = 128 * (128 ^ n * 256) := by ring
    have hpos : 0 < 128 ^ n := Nat.pow_pos (by decide)
    cases bs with
    | nil => cases h
    | cons b bs =>
      have hb := b.toNat_lt
      rw [decode] at h
      split at h
      · simp only [Option.some.injEq, Prod.mk.injEq] at h
        omega
      · obtain ⟨⟨w, r⟩, hr, he⟩ := Option.map_eq_some_iff.1 h
        have hw := decode_lt hr
        simp only [Prod.mk.injEq] at he
        obtain ⟨he, rfl⟩ := he
        obtain rfl : w = 128 ^ n * 256 - 1 := by omega
        rw [ih hr, htop b (by omega)]
        rfl

/-- **A decoder reads its own bytes only**: at most `n + 1` of them, whatever follows. -/
theorem decode_split {n v : Nat} {bs rest : List UInt8} (h : decode n bs = some (v, rest)) :
    ∃ code, bs = code ++ rest ∧ code ≠ [] ∧ code.length ≤ n + 1 ∧
      ∀ tail, decode n (code ++ tail) = some (v, tail) := by
  induction n generalizing bs v rest with
  | zero =>
    cases bs with
    | nil => cases h
    | cons b bs =>
      simp only [decode, Option.some.injEq, Prod.mk.injEq] at h
      obtain ⟨rfl, rfl⟩ := h
      exact ⟨[b], rfl, by simp, by simp, fun _ => rfl⟩
  | succ n ih =>
    cases bs with
    | nil => cases h
    | cons b bs =>
      rw [decode] at h
      split at h
      · rename_i hb
        simp only [Option.some.injEq, Prod.mk.injEq] at h
        obtain ⟨rfl, rfl⟩ := h
        exact ⟨[b], rfl, by simp, by simp, fun tail => by
          rw [List.singleton_append, decode, if_pos hb]⟩
      · rename_i hb
        obtain ⟨⟨w, r⟩, hr, he⟩ := Option.map_eq_some_iff.1 h
        simp only [Prod.mk.injEq] at he
        obtain ⟨rfl, rfl⟩ := he
        obtain ⟨code, rfl, -, hlen, hread⟩ := ih hr
        refine ⟨b :: code, rfl, by simp, by simpa using hlen, fun tail => ?_⟩
        rw [List.cons_append, decode, if_neg hb, hread, Option.map_some]

theorem decode_isSome {n : Nat} {bs : List UInt8} (h : n < bs.length) :
    ∃ r, decode n bs = some r := by
  induction n generalizing bs with
  | zero =>
    cases bs with
    | nil => cases h
    | cons b bs => exact ⟨_, rfl⟩
  | succ n ih =>
    cases bs with
    | nil => cases h
    | cons b bs =>
      obtain ⟨r, hr⟩ : ∃ r, decode n bs = some r := ih (by simpa using h)
      rw [decode]
      split
      · exact ⟨_, rfl⟩
      · exact ⟨_, by rw [hr, Option.map_some]⟩

/-! ## Zigzag -/

/-- 0 to 0, -1 to 1, 1 to 2, -2 to 3, and so on. -/
def zigzag (t : Int) : Nat := if t < 0 then (-2 * t - 1).toNat else (2 * t).toNat

def unzigzag (x : Nat) : Int := if x % 2 = 0 then x / 2 else -(x / 2) - 1

theorem unzigzag_zigzag (t : Int) : unzigzag (zigzag t) = t := by
  unfold unzigzag zigzag
  split <;> split <;> omega

theorem zigzag_lt {w : Nat} {t : Int} (h1 : -2 ^ w ≤ t) (h2 : t < 2 ^ w) :
    zigzag t < 2 ^ (w + 1) := by
  unfold zigzag
  rw [Nat.pow_succ]
  have hw : ((2 ^ w : Nat) : Int) = 2 ^ w := by norm_cast
  split <;> omega

end Varint
