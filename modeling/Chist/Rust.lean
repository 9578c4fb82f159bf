import Mathlib.Data.Rat.Floor

/-!
# Rust results, panics and machine integers

A function of the source is modelled in `Res ε`: it returns a value, returns `Err` of type `ε`, or
panics. Overflow checks are on, as in the debug build whose output is committed, so an unsigned
`+`, `-`, `*` or a shift out of range panics; `saturating_add` is `satAdd64`. Machine integers are
`Nat` (`Int` for `i32`, `i64` and `isize`) and every operation states its own width.
-/

set_option autoImplicit false

namespace Chist

/-- The panics the code can reach. `unwrap`, `expect` and `assert` carry what they are about. -/
inductive Panic
  | overflow
  | shift
  | divByZero
  | indexOutOfBounds
  | unwrap (what : String)
  | expect (msg : String)
  | assert (what : String)
  deriving DecidableEq, Repr

/-- Why a function did not return a value: an `Err`, or a panic. -/
inductive Stop (ε : Type)
  | err (e : ε)
  | panic (p : Panic)
  deriving DecidableEq, Repr

/-- The result of a function whose error type is `ε`. -/
abbrev Res (ε : Type) := Except (Stop ε)

namespace Res

variable {ε ε' α β : Type}

def panic (p : Panic) : Res ε α := .error (.panic p)

def err (e : ε) : Res ε α := .error (.err e)

/-- `.expect(msg)` on a `Result`: an `Err` becomes a panic. -/
def expect (msg : String) : Res ε α → Res ε' α
  | .ok a => .ok a
  | .error (.err _) => panic (.expect msg)
  | .error (.panic p) => panic p

def unwrap (what : String) : Res ε α → Res ε' α
  | .ok a => .ok a
  | .error (.err _) => panic (.unwrap what)
  | .error (.panic p) => panic p

/-- `.map_err(f)` (and `.with_context(..)`). -/
def mapErr (f : ε → ε') : Res ε α → Res ε' α
  | .ok a => .ok a
  | .error (.err e) => err (f e)
  | .error (.panic p) => panic p

/-- `.expect(msg)` on an `Option`. -/
def expectSome (msg : String) : Option α → Res ε α
  | some a => .ok a
  | none => panic (.expect msg)

/-- `.unwrap()` on an `Option`. -/
def unwrapSome (what : String) : Option α → Res ε α
  | some a => .ok a
  | none => panic (.unwrap what)

/-- `assert!` and `debug_assert!`. -/
def assert (what : String) (b : Bool) : Res ε Unit :=
  if b then .ok () else panic (.assert what)

/-- `xs[i]`. -/
def index (xs : List α) (i : Nat) : Res ε α :=
  match xs[i]? with
  | some a => .ok a
  | none => panic .indexOutOfBounds

def IsErr (r : Res ε α) : Prop := ∃ e, r = .error (.err e)

def IsPanic (r : Res ε α) : Prop := ∃ p, r = .error (.panic p)

def NoErr (r : Res ε α) : Prop := ∀ e, r ≠ .error (.err e)

@[simp] theorem ok_bind (a : α) (f : α → Res ε β) : (Except.ok a >>= f : Res ε β) = f a := rfl
@[simp] theorem error_bind (e : Stop ε) (f : α → Res ε β) :
    (Except.error e >>= f : Res ε β) = Except.error e := rfl
@[simp] theorem pure_eq_ok (a : α) : (pure a : Res ε α) = Except.ok a := rfl
@[simp] theorem throw_eq_error (e : Stop ε) : (throw e : Res ε α) = Except.error e := rfl
@[simp] theorem expect_ok (msg : String) (a : α) :
    (expect msg (.ok a : Res ε α) : Res ε' α) = .ok a := rfl
@[simp] theorem unwrap_ok (what : String) (a : α) :
    (unwrap what (.ok a : Res ε α) : Res ε' α) = .ok a := rfl
@[simp] theorem mapErr_ok (f : ε → ε') (a : α) : mapErr f (.ok a) = .ok a := rfl
@[simp] theorem mapErr_err (f : ε → ε') (e : ε) :
    mapErr (α := α) f (.error (.err e)) = .error (.err (f e)) := rfl
@[simp] theorem expectSome_some (msg : String) (a : α) :
    expectSome (ε := ε) msg (some a) = .ok a := rfl
@[simp] theorem unwrapSome_some (what : String) (a : α) :
    unwrapSome (ε := ε) what (some a) = .ok a := rfl

theorem noErr_ok (a : α) : NoErr (.ok a : Res ε α) := fun _ h => by cases h

theorem noErr_panic (p : Panic) : NoErr (panic p : Res ε α) := fun _ h => by cases h

theorem not_isPanic_ok {r : Res ε α} {a : α} (h : r = .ok a) : ¬ IsPanic r := by
  rintro ⟨p, hp⟩
  cases h.symm.trans hp

theorem not_isPanic_err {r : Res ε α} {e : ε} (h : r = .error (.err e)) : ¬ IsPanic r := by
  rintro ⟨p, hp⟩
  cases h.symm.trans hp

theorem noErr_expect (msg : String) (r : Res ε α) : NoErr (expect msg r : Res ε' α) := by
  cases r with
  | ok a => exact noErr_ok a
  | error s => cases s <;> exact noErr_panic _

theorem NoErr.bind {r : Res ε α} {f : α → Res ε β} (hr : NoErr r) (hf : ∀ a, NoErr (f a)) :
    NoErr (r >>= f) := by
  cases r with
  | ok a => exact hf a
  | error s =>
    cases s with
    | err e => exact absurd rfl (hr e)
    | panic p => exact noErr_panic p

theorem noErr_ite {c : Prop} [Decidable c] {r r' : Res ε α} (h : NoErr r) (h' : NoErr r') :
    NoErr (if c then r else r') := by
  split
  · exact h
  · exact h'

theorem bind_eq_ok {r : Res ε α} {f : α → Res ε β} {b : β} :
    r >>= f = .ok b ↔ ∃ a, r = .ok a ∧ f a = .ok b := by
  cases r with
  | ok a => simp
  | error e => simp

theorem bind_eq_error {r : Res ε α} {f : α → Res ε β} {e : Stop ε} :
    r >>= f = .error e ↔ r = .error e ∨ ∃ a, r = .ok a ∧ f a = .error e := by
  cases r with
  | ok a => simp
  | error e => simp

theorem mapM_of_ok {f : α → Res ε β} {g : α → β} {l : List α} (h : ∀ x ∈ l, f x = .ok (g x)) :
    l.mapM f = .ok (l.map g) := by
  induction l with
  | nil => rfl
  | cons x l ih =>
    obtain ⟨hx, hl⟩ := List.forall_mem_cons.1 h
    rw [List.mapM_cons, hx, ok_bind, ih hl, ok_bind, pure_eq_ok, List.map_cons]

/-- A failure of `mapM` is that of one of the elements. -/
theorem mapM_eq_error {f : α → Res ε β} {l : List α} {e : Stop ε} (h : l.mapM f = .error e) :
    ∃ x ∈ l, f x = .error e := by
  induction l with
  | nil => cases h
  | cons x l ih =>
    rw [List.mapM_cons, bind_eq_error] at h
    rcases h with h | ⟨y, -, h⟩
    · exact ⟨x, List.mem_cons_self, h⟩
    · rcases bind_eq_error.1 h with h | ⟨ys, -, h⟩
      · obtain ⟨z, hz, he⟩ := ih h
        exact ⟨z, List.mem_cons_of_mem _ hz, he⟩
      · cases h

/-- If `mapM` returns, so does every element. -/
theorem mapM_eq_ok {f : α → Res ε β} {l : List α} {ys : List β} (h : l.mapM f = .ok ys) :
    ∀ x ∈ l, ∃ y, f x = .ok y := by
  induction l generalizing ys with
  | nil => simp
  | cons x l ih =>
    rw [List.mapM_cons] at h
    obtain ⟨y, hy, h⟩ := bind_eq_ok.1 h
    obtain ⟨ys, hys, -⟩ := bind_eq_ok.1 h
    exact List.forall_mem_cons.2 ⟨⟨y, hy⟩, ih hys⟩

/-! ### When a function returns -/

/-- `r` returns a value exactly when `p` holds, and one with `Q`. -/
structure OkWhen (r : Res ε α) (p : Prop) (Q : α → Prop) : Prop where
  ok : p → ∃ a, r = .ok a ∧ Q a
  of_ok : ∀ a, r = .ok a → p

namespace OkWhen

variable {r : Res ε α} {p q : Prop} {Q : α → Prop}

theorem of_eq {a : α} (hp : p) (h : r = .ok a) (hQ : Q a) : OkWhen r p Q :=
  ⟨fun _ => ⟨a, h, hQ⟩, fun _ _ => hp⟩

theorem of_error {e : Stop ε} (hp : ¬ p) (h : r = .error e) : OkWhen r p Q :=
  ⟨fun h => absurd h hp, fun _ ha => by cases h.symm.trans ha⟩

theorem spec (h : OkWhen r p Q) {a : α} (ha : r = .ok a) : Q a := by
  obtain ⟨a', ha', hQ⟩ := h.ok (h.of_ok a ha)
  obtain rfl : a' = a := Except.ok.inj (ha'.symm.trans ha)
  exact hQ

theorem congr (h : OkWhen r p Q) (hpq : p ↔ q) : OkWhen r q Q :=
  ⟨fun hq => h.ok (hpq.2 hq), fun a ha => hpq.1 (h.of_ok a ha)⟩

theorem bind {f : α → Res ε β} {Q' : β → Prop} (h : OkWhen r p Q)
    (hf : ∀ a, p → Q a → OkWhen (f a) q Q') : OkWhen (r >>= f) (p ∧ q) Q' where
  ok := by
    rintro ⟨hp, hq⟩
    obtain ⟨a, ha, hQ⟩ := h.ok hp
    obtain ⟨b, hb, hQ'⟩ := (hf a hp hQ).ok hq
    exact ⟨b, by rw [ha, ok_bind, hb], hQ'⟩
  of_ok b hb := by
    obtain ⟨a, ha, hb⟩ := bind_eq_ok.1 hb
    have hp := h.of_ok a ha
    exact ⟨hp, (hf a hp (h.spec ha)).of_ok b hb⟩

/-- What follows always returns. -/
theorem bind_ok {f : α → Res ε β} {Q' : β → Prop} (h : OkWhen r p Q)
    (hf : ∀ a, p → Q a → ∃ b, f a = .ok b ∧ Q' b) : OkWhen (r >>= f) p Q' := by
  refine (h.bind (q := True) fun a hp hQ => ?_).congr (and_iff_left trivial)
  obtain ⟨b, hb, hQ'⟩ := hf a hp hQ
  exact .of_eq trivial hb hQ'

theorem mapErr (h : OkWhen r p Q) (f : ε → ε') : OkWhen (Res.mapErr f r) p Q where
  ok hp := (h.ok hp).imp fun a ha => ⟨by rw [ha.1, mapErr_ok], ha.2⟩
  of_ok a ha := by
    cases r with
    | ok a' => exact h.of_ok a' rfl
    | error s => cases s <;> cases ha

theorem mapM {f : α → Res ε β} {p : α → Prop} {g : α → β} {l : List α}
    (h : ∀ x ∈ l, OkWhen (f x) (p x) (· = g x)) :
    OkWhen (l.mapM f) (∀ x ∈ l, p x) (· = l.map g) := by
  induction l with
  | nil => exact ⟨fun _ => ⟨[], rfl, rfl⟩, fun _ _ _ hx => by cases hx⟩
  | cons x l ih =>
    obtain ⟨hx, hl⟩ := List.forall_mem_cons.1 h
    rw [List.mapM_cons, List.forall_mem_cons, List.map_cons]
    refine hx.bind fun y _ hy => (ih hl).bind_ok fun ys _ hys => ⟨y :: ys, rfl, ?_⟩
    rw [hy, hys]

/-- A fold that records what it has done in a list. -/
theorem foldlM {σ : Type} (Inv : List σ → β → Prop) {f : β → α → Res ε β} {p : α → Prop}
    {g : α → List σ} {l : List α}
    (h : ∀ x ∈ l, ∀ done b, Inv done b → OkWhen (f b x) (p x) (Inv (done ++ g x)))
    {done : List σ} {b : β} (hb : Inv done b) :
    OkWhen (l.foldlM f b) (∀ x ∈ l, p x) (Inv (done ++ l.flatMap g)) := by
  induction l generalizing done b with
  | nil =>
    refine ⟨fun _ => ⟨b, rfl, ?_⟩, fun _ _ _ hx => by cases hx⟩
    rwa [List.flatMap_nil, List.append_nil]
  | cons x l ih =>
    obtain ⟨hx, hl⟩ := List.forall_mem_cons.1 h
    rw [List.foldlM_cons, List.forall_mem_cons, List.flatMap_cons, ← List.append_assoc]
    exact (hx done b hb).bind fun b' _ hb' => ih hl hb'

end OkWhen

theorem assert_ok {what : String} {b : Bool} (h : b = true) :
    assert (ε := ε) what b = .ok () := by simp [assert, h]

theorem index_ok {xs : List α} {i : Nat} {a : α} (h : xs[i]? = some a) :
    index (ε := ε) xs i = .ok a := by simp [index, h]

end Res

/-! ## Machine integers -/

section
variable {ε : Type}

def u64Max : Nat := 2 ^ 64 - 1

/-- The result of an unsigned operation of width `w`, checked for overflow. -/
def checkU (w x : Nat) : Res ε Nat := if x < 2 ^ w then .ok x else .panic .overflow

def subU (x y : Nat) : Res ε Nat := if y ≤ x then .ok (x - y) else .panic .overflow

/-- `x << s` on an unsigned type of width `w`: bits shifted out are lost. -/
def shlU (w x s : Nat) : Res ε Nat := if s < w then .ok (x <<< s % 2 ^ w) else .panic .shift

def shrU (w x s : Nat) : Res ε Nat := if s < w then .ok (x >>> s) else .panic .shift

/-- `x << s` on `i32`, for a non-negative `x`. -/
def shlI32 (x s : Nat) : Res ε Int :=
  if s < 32 then .ok (((x <<< s : Nat) : Int).bmod (2 ^ 32)) else .panic .shift

/-- An `i32` sum, checked for overflow. -/
def checkI32 (x : Int) : Res ε Int :=
  if -2 ^ 31 ≤ x ∧ x < 2 ^ 31 then .ok x else .panic .overflow

def satAdd64 (x y : Nat) : Nat := min (x + y) u64Max

/-- `checked_add` on `u64` and on the 64-bit `usize`. -/
def checkedAdd (x y : Nat) : Option Nat := if x + y < 2 ^ 64 then some (x + y) else none

def leadingZeros64 (x : Nat) : Nat := if x = 0 then 64 else 63 - x.log2

/-- `!x` on `u64`. -/
def not64 (x : Nat) : Nat := u64Max - x

theorem checkU_ok {w x : Nat} (h : x < 2 ^ w) : checkU (ε := ε) w x = .ok x := by
  simp [checkU, h]

theorem subU_ok {x y : Nat} (h : y ≤ x) : subU (ε := ε) x y = .ok (x - y) := by simp [subU, h]

theorem checkedAdd_some {x y : Nat} (h : x + y < 2 ^ 64) : checkedAdd x y = some (x + y) :=
  if_pos h

theorem shlU_ok {w x s : Nat} (hs : s < w) (h : x * 2 ^ s < 2 ^ w) :
    shlU (ε := ε) w x s = .ok (x * 2 ^ s) := by
  rw [shlU, if_pos hs, Nat.shiftLeft_eq, Nat.mod_eq_of_lt h]

theorem shrU_ok {w x s : Nat} (hs : s < w) : shrU (ε := ε) w x s = .ok (x / 2 ^ s) := by
  rw [shrU, if_pos hs, Nat.shiftRight_eq_div_pow]

theorem shlI32_ok {x s : Nat} (hs : s < 32) (h : x * 2 ^ s < 2 ^ 31) :
    shlI32 (ε := ε) x s = .ok ((x * 2 ^ s : Nat) : Int) := by
  rw [shlI32, if_pos hs, Nat.shiftLeft_eq, Int.bmod_eq_of_le_mul_two (by omega) (by omega)]

theorem checkI32_ok {x : Int} (h0 : -2 ^ 31 ≤ x) (h1 : x < 2 ^ 31) :
    checkI32 (ε := ε) x = .ok x := by rw [checkI32, if_pos ⟨h0, h1⟩]

end

/-! ## Floating point -/

/-- The floating-point results the code uses, as it uses them. `floorLog2 n` is
`(n as f64).log2().floor() as u8`, `ceilLog2 n` is `(n as f64).log2().ceil() as u8`, and
`ceilMul q n` is `(q * n as f64).ceil() as u64`. `f64::log2` has no specified precision; the code
relies on it below `2 ^ 48`, where it rounds as the exact logarithm, and above only on its
floor being the exact one or, next to a power of two, one more. -/
structure Floats where
  floorLog2 : Nat → Nat
  ceilLog2 : Nat → Nat
  ceilMul : Rat → Nat → Nat
  floorLog2_exact : ∀ n, 0 < n → n < 2 ^ 48 → floorLog2 n = n.log2
  ceilLog2_exact : ∀ n, 1 < n → n < 2 ^ 48 → ceilLog2 n = (n - 1).log2 + 1
  floorLog2_near : ∀ n, 0 < n → n < 2 ^ 63 → n.log2 ≤ floorLog2 n ∧ floorLog2 n ≤ n.log2 + 1

/-- Floating point that computes every result exactly. -/
def Floats.exact : Floats where
  floorLog2 := Nat.log2
  ceilLog2 n := if n ≤ 1 then 0 else (n - 1).log2 + 1
  ceilMul q n := ⌈q * n⌉₊
  floorLog2_exact _ _ _ := rfl
  ceilLog2_exact _ h _ := if_neg (Nat.not_le.2 h)
  floorLog2_near _ _ _ := ⟨Nat.le_refl _, Nat.le_succ _⟩

end Chist
