import Chist.Hdr.Grow
import Chist.Serialization.Deserialize
import Mathlib.Data.List.Sort

/-!
# What is deserialized

A decoded payload stands for a list of counts (`decoded`): every number read appends what it stands
for, or is refused (`onDecodedNum_eq`). So the bytes of a histogram give back its bounds and its
counts, and leave what follows them (`deserialize_serialize`).
-/

set_option autoImplicit false

namespace Chist.Serialization

open Res Hdr

variable {fl : Floats} {h h0 : Histogram} {cs : List Nat} {n : Nat}

/-! ## Decoded counts -/

/-- The first `n` of the counts `cs`, and zeros up to `n`. -/
def placed (n : Nat) (cs : List Nat) : List Nat := (cs ++ List.replicate (n - cs.length) 0).take n

/-- The decoding that has read the counts `cs` into the empty histogram `h0`. -/
def decoded (h0 : Histogram) (cs : List Nat) : Decoding where
  destIndex := cs.length
  restat := cs.zipIdx.foldl RestatState.scan RestatState.new
  h := { h0 with counts := placed h0.counts.length cs }

/-- There are only zeros past `n`. -/
def InBounds (n : Nat) (cs : List Nat) : Prop := ∀ j, n ≤ j → cs.getD j 0 = 0

@[simp] theorem length_placed (n : Nat) (cs : List Nat) : (placed n cs).length = n := by
  rw [placed, List.length_take, List.length_append, List.length_replicate]
  omega

theorem getD_placed (n : Nat) (cs : List Nat) (j : Nat) :
    (placed n cs).getD j 0 = if j < n then cs.getD j 0 else 0 := by
  split
  · rename_i hj
    rw [placed, ← getD_append_replicate cs (n - cs.length) j, List.getD_eq_getElem?_getD,
      List.getElem?_take_of_lt hj, ← List.getD_eq_getElem?_getD]
  · rename_i hj
    exact List.getD_eq_default _ _ (by rw [length_placed]; omega)

theorem ext_getD {xs ys : List Nat} (hlen : xs.length = ys.length)
    (h : ∀ j, xs.getD j 0 = ys.getD j 0) : xs = ys := by
  refine List.ext_getElem hlen fun j h1 h2 => ?_
  rw [← List.getD_eq_getElem _ 0 h1, ← List.getD_eq_getElem _ 0 h2, h]

theorem placed_append_zeros (n : Nat) (cs : List Nat) (k : Nat) :
    placed n (cs ++ List.replicate k 0) = placed n cs :=
  ext_getD (by simp) fun j => by rw [getD_placed, getD_placed, getD_append_replicate]

theorem set_placed (hlt : cs.length < n) (c : Nat) :
    (placed n cs).set cs.length c = placed n (cs ++ [c]) := by
  refine ext_getD (by simp) fun j => ?_
  rw [getD_placed, List.getD_eq_getElem?_getD, List.getElem?_set]
  by_cases hj : cs.length = j
  · subst hj
    rw [if_pos rfl, if_pos (by simpa using hlt), if_pos hlt,
      List.getD_append_right _ _ _ _ (Nat.le_refl _)]
    simp
  · rw [if_neg hj, ← List.getD_eq_getElem?_getD, getD_placed]
    split
    · by_cases hlt' : j < cs.length
      · rw [List.getD_append _ _ _ _ hlt']
      · rw [List.getD_eq_default cs _ (by omega), List.getD_eq_default _ _ (by simp; omega)]
    · rfl

theorem scan_append_zeros (cs : List Nat) (k : Nat) :
    (cs ++ List.replicate k 0).zipIdx.foldl RestatState.scan RestatState.new =
      cs.zipIdx.foldl RestatState.scan RestatState.new := by
  induction k with
  | zero => rw [List.replicate_zero, List.append_nil]
  | succ k ih =>
    rw [List.replicate_succ', ← List.append_assoc, List.zipIdx_append, List.foldl_append, ih]
    rfl

theorem scan_append (cs : List Nat) {c : Nat} (h0 : 0 < c) :
    (cs ++ [c]).zipIdx.foldl RestatState.scan RestatState.new =
      (cs.zipIdx.foldl RestatState.scan RestatState.new).onNonzeroCount cs.length c := by
  rw [List.zipIdx_append, List.foldl_append]
  simp [RestatState.scan, Nat.ne_of_gt h0]

/-! ## Number by number -/

theorem skip_eq (h0 : Histogram) (cs : List Nat) (zeros : Nat) :
    (do let destIndex ← okOr (.usizeTypeTooSmall : DeserializeError) (checkedAdd cs.length zeros)
        pure { decoded h0 cs with destIndex := destIndex }) =
      if cs.length + zeros < 2 ^ 64 then .ok (decoded h0 (cs ++ List.replicate zeros 0))
      else .error (.err .usizeTypeTooSmall) := by
  unfold checkedAdd
  split
  · simp only [okOr, ok_bind, pure_eq_ok, decoded, placed_append_zeros, scan_append_zeros,
      List.length_append, List.length_replicate]
  · rfl

theorem place_eq (hn : h0.counts.length < 2 ^ 64) (cs : List Nat) {c : Nat} (hc : 0 < c) :
    (do let h ← okOr .encodedArrayTooLong (setCountAtIndex (decoded h0 cs).h cs.length c)
        let destIndex ← okOr .usizeTypeTooSmall (checkedAdd cs.length 1)
        pure ⟨destIndex, (decoded h0 cs).restat.onNonzeroCount cs.length c, h⟩ :
      Res DeserializeError Decoding) =
      if h0.counts.length ≤ cs.length then .error (.err .encodedArrayTooLong)
      else .ok (decoded h0 (cs ++ [c])) := by
  unfold setCountAtIndex
  by_cases hlt : cs.length < h0.counts.length
  · have hlt' : cs.length < (decoded h0 cs).h.counts.length :=
      hlt.trans_eq (length_placed _ _).symm
    have hadd : checkedAdd cs.length 1 = some (cs.length + 1) := if_pos (by omega)
    rw [if_pos hlt', if_neg (by omega), hadd]
    simp only [okOr, ok_bind, pure_eq_ok, decoded, set_placed hlt, scan_append _ hc,
      List.length_append, List.length_singleton]
  · have hlt' : ¬ cs.length < (decoded h0 cs).h.counts.length := fun hc =>
      hlt (hc.trans_eq (length_placed _ _))
    rw [if_neg hlt', if_pos (by omega)]
    rfl

/-- **One number**: it appends what it stands for, unless a count would fall past the slots, the
index would not fit, or it is `i64::MIN`, which has no negation. -/
theorem onDecodedNum_eq (num : BitVec 64) (hn : h0.counts.length < 2 ^ 64) :
    onDecodedNum num (decoded h0 cs) =
      if num.toInt = -2 ^ 63 then .error (.panic .overflow)
      else if 0 < num.toInt ∧ h0.counts.length ≤ cs.length then
        .error (.err .encodedArrayTooLong)
      else if cs.length + (ZeroRuns.expand num.toInt).length < 2 ^ 64 then
        .ok (decoded h0 (cs ++ ZeroRuns.expand num.toInt))
      else .error (.err .usizeTypeTooSmall) := by
  unfold onDecodedNum
  by_cases hneg : num.toInt < 0
  · rw [if_pos hneg, if_neg (show ¬ (0 < num.toInt ∧ _) by omega)]
    by_cases hmin : num.toInt = -2 ^ 63
    · rw [if_pos hmin, negI64, if_pos hmin]
      rfl
    · have hnat : natOfI64 (-num.toInt) = some (-num.toInt).toNat := if_pos (by omega)
      rw [if_neg hmin, negI64, if_neg hmin, ok_bind, hnat, ZeroRuns.expand, if_pos hneg,
        List.length_replicate]
      exact skip_eq h0 cs _
  · have hnat : natOfI64 num.toInt = some num.toInt.toNat := if_pos (by omega)
    rw [if_neg hneg, if_neg (show ¬ num.toInt = -2 ^ 63 by omega), hnat, ZeroRuns.expand,
      if_neg hneg, List.length_singleton]
    by_cases hzero : num.toInt = 0
    · rw [hzero, if_neg (show ¬ ((0 : Int) < 0 ∧ _) by omega)]
      exact skip_eq h0 cs 1
    · have hpos : 0 < num.toInt.toNat := by omega
      have hplace := place_eq hn cs hpos
      simp only [okOr, ok_bind, if_pos hpos, pure_bind] at hplace ⊢
      refine hplace.trans ?_
      by_cases hle : h0.counts.length ≤ cs.length
      · rw [if_pos hle, if_pos (by omega)]
      · rw [if_neg hle, if_neg (by omega), if_pos (by omega)]

/-! ## The statistics -/

/-- The histogram with the counts `counts` that `deser_v2` returns for the bounds of `h0`. -/
def restored (fl : Floats) (h0 : Histogram) (counts : List Nat) : Histogram :=
  { h0 with
    counts := counts
    maxValue := ((Slots.occupied counts).getLast?.map (h0.layout fl).topValue).getD originalMax
    minNonZeroValue := minValue (h0.layout fl) (Slots.firstNonzero counts)
    totalCount := min counts.sum u64Max }

/-- The copy of `h` that its bytes give. -/
def copied (fl : Floats) (h : Histogram) : Histogram :=
  restored fl (fresh fl h.lowestDiscernibleValue h.highestTrackableValue h.significantValueDigits)
    h.counts

theorem updateHistogram_new {ε : Type} {L : LogLinear} (hh : HasLayout h L)
    (hmax : h.maxValue = originalMax) (hmin : h.minNonZeroValue = originalMin) {mx mn : Option Nat}
    {total : Nat} (hmx : ∀ i ∈ mx, L.low i < 2 ^ 64) (hmn : ∀ i ∈ mn, i ≠ 0 ∧ L.low i < 2 ^ 64) :
    (RestatState.mk mx mn total).updateHistogram (ε := ε) h = .ok { h with
      maxValue := (mx.map L.topValue).getD originalMax
      minNonZeroValue := minValue L mn
      totalCount := total } := by
  cases mx with
  | none =>
    unfold RestatState.updateHistogram
    simp only [RestatState.applyMax, ok_bind, Option.map_none, Option.getD_none, ← hmax]
    cases mn with
    | none => simp only [RestatState.applyMin, minValue, ← hmin, pure_eq_ok, ok_bind]
    | some i =>
      obtain ⟨h0, hi⟩ := hmn i rfl
      have hlt : L.low i < originalMin := low_lt_u64Max hh.base_le hi
      simp only [RestatState.applyMin]
      rw [valueFor_eq hh hi, ok_bind, pure_eq_ok, ok_bind, updateMin_low hh h0 hi]
      simp only [hmin, min_eq_right (Nat.le_of_lt hlt), minValue, pure_eq_ok]
  | some i =>
    -- as if the mask had been set before
    have hi := hmx i rfl
    have hmask : ({ h with maxValue := 2 ^ L.unit - 1 } : Histogram).maxValue = 2 ^ L.unit - 1 :=
      rfl
    have happly : (RestatState.mk (some i) mn total).applyMax (ε := ε) h =
        (RestatState.mk (some i) mn total).applyMax { h with maxValue := 2 ^ L.unit - 1 } := by
      have hh' : HasLayout { h with maxValue := 2 ^ L.unit - 1 } L := hh.stats _ _ _ _
      have htop : 2 ^ L.unit - 1 ≤ L.highest i ||| h.unitMagnitudeMask := by
        rw [hh.unitMagnitudeMask]
        exact mask_le_topValue i
      simp only [RestatState.applyMax]
      rw [valueFor_eq hh hi, valueFor_eq hh' hi, ok_bind, ok_bind, highestEquivalent_eq hh hi,
        highestEquivalent_eq hh' hi, if_neg (Nat.ne_of_lt (low_lt_u64Max hh.base_le hi)), ok_bind,
        ok_bind, L.slot_low, pure_eq_ok, pure_eq_ok, updateMax_eq, updateMax_eq, hmax,
        max_eq_right htop, max_eq_right (show originalMax ≤ _ from Nat.zero_le _)]
    unfold RestatState.updateHistogram
    rw [happly]
    exact updateHistogram_eq (h := { h with maxValue := 2 ^ L.unit - 1 }) (hh.stats _ _ _ _) hmask
      hmin hmx hmn

theorem occupied_congr {xs ys : List Nat} (hget : ∀ j, xs.getD j 0 = ys.getD j 0) :
    Slots.occupied xs = Slots.occupied ys := by
  refine List.Pairwise.eq_of_mem_iff Slots.occupied_sorted Slots.occupied_sorted fun i => ?_
  rw [Slots.mem_occupied, Slots.mem_occupied, hget]

theorem getD_placed_of_inBounds (hcs : InBounds n cs) (j : Nat) :
    (placed n cs).getD j 0 = cs.getD j 0 := by
  rw [getD_placed]
  split
  · rfl
  · rename_i hj
    exact (hcs j (Nat.le_of_not_lt hj)).symm

theorem scan_placed (hcs : InBounds n cs) :
    cs.zipIdx.foldl RestatState.scan RestatState.new =
      (placed n cs).zipIdx.foldl RestatState.scan RestatState.new := by
  have hocc := occupied_congr (getD_placed_of_inBounds hcs)
  have hsum : (placed n cs).sum = cs.sum := by
    rw [← Slots.sum_occupied (placed n cs), ← Slots.sum_occupied cs, hocc]
    exact congrArg _ (List.map_congr_left fun i _ => getD_placed_of_inBounds hcs i)
  rw [scan_eq, scan_eq, Slots.firstNonzero, Slots.firstNonzero, hocc, hsum]

/-- A new histogram, to be filled. -/
structure Blank (fl : Floats) (h : Histogram) : Prop extends Shaped fl h where
  maxValue : h.maxValue = originalMax
  minNonZeroValue : h.minNonZeroValue = originalMin

/-- **The end of `deser_v2`**: the statistics of the counts read. -/
theorem updateHistogram_decoded {ε : Type} (hb : Blank fl h0) (hcs : InBounds h0.counts.length cs) :
    (decoded h0 cs).restat.updateHistogram (ε := ε) (decoded h0 cs).h =
      .ok (restored fl h0 (placed h0.counts.length cs)) := by
  have hlt : ∀ i ∈ Slots.occupied (placed h0.counts.length cs), (h0.layout fl).low i < 2 ^ 64 :=
    fun i hi => hb.toSized.low_lt ((Slots.lt_length_of_mem hi).trans_eq (length_placed _ _))
  have hh : HasLayout (decoded h0 cs).h (h0.layout fl) := hb.toHasLayout.stats _ _ _ _
  rw [decoded, scan_placed hcs, scan_eq]
  exact updateHistogram_new hh hb.maxValue hb.minNonZeroValue
    (fun i hi => hlt i (List.mem_of_getLast? hi))
    fun i hi => ⟨by simpa using List.find?_some hi, hlt i (List.mem_of_find?_eq_some hi)⟩

theorem restored_coherent (hb : Blank fl h0) {counts : List Nat}
    (hlen : counts.length = h0.counts.length) (hlt : ∀ c ∈ counts, c < 2 ^ 64) :
    Coherent fl (restored fl h0 counts) := by
  have hs : Shaped fl (restored fl h0 counts) := hb.toShaped.stats hlen _ _ _
  have hlow : ∀ {i}, i < counts.length → (h0.layout fl).low i < 2 ^ 64 :=
    fun hi => hb.toSized.low_lt (hi.trans_eq hlen)
  have hpos : 0 < counts.length := hlen ▸ hb.length_pos
  refine hs.coherent hlt rfl ?_ ?_ rfl
  · simp only [restored]
    cases hl : (Slots.occupied counts).getLast? with
    | none => exact (by decide : originalMax < 2 ^ 64)
    | some i =>
      exact topValue_lt hb.base_le (hlow (Slots.lt_length_of_mem (List.mem_of_getLast? hl)))
  · simp only [restored]
    cases hl : (Slots.occupied counts).getLast? with
    | none =>
      have hlast : Slots.last counts = 0 := by rw [Slots.last, hl, Option.getD_none]
      rw [hlast]
      exact (LogLinear.slot_low _ 0) ▸ congrArg _ (LogLinear.low_zero _).symm
    | some i =>
      have hlast : Slots.last counts = i := by rw [Slots.last, hl, Option.getD_some]
      rw [hlast]
      exact slot_topValue hb.base_le
        (hlow (Slots.lt_length_of_mem (List.mem_of_getLast? hl)))

/-! ## Back from the bytes of a histogram -/

theorem readBe_encode {k x : Nat} (hx : x < 256 ^ k) (tail : List UInt8) :
    readBe k (BigEndian.encode k x ++ tail) = .ok (x, tail) := by
  have hlen := BigEndian.length_encode k x
  rw [readBe, readExact, if_pos (by rw [List.length_append, hlen]; omega), ok_bind]
  simp only [List.take_left' hlen, List.drop_left' hlen, BigEndian.decode_encode hx, pure_eq_ok]

theorem readExact_append (bytes tail : List UInt8) :
    readExact bytes.length (bytes ++ tail) = .ok (bytes, tail) := by
  rw [readExact, if_pos (by rw [List.length_append]; omega), List.take_left' rfl,
    List.drop_left' rfl]

theorem inBounds_of_length_le (hle : cs.length ≤ n) : InBounds n cs :=
  fun _ hj => List.getD_eq_default _ _ (hle.trans hj)

theorem decoded_nil (fl : Floats) (low high sigfig : Nat) :
    (⟨0, RestatState.new, fresh fl low high sigfig⟩ : Decoding) =
      decoded (fresh fl low high sigfig) [] := by
  have hzero : placed (fresh fl low high sigfig).counts.length [] =
      (fresh fl low high sigfig).counts := by
    simp [placed, fresh]
  rw [decoded, hzero]
  rfl

/-- Numbers within `i64` that stand for no more counts than there are slots are all taken. -/
theorem readNums_codes (hn : h0.counts.length < 2 ^ 63) (cs : List Nat) {ts : List Int}
    (hts : ∀ t ∈ ts, -2 ^ 63 < t ∧ t < 2 ^ 63)
    (hfit : (cs ++ ts.flatMap ZeroRuns.expand).length ≤ h0.counts.length) :
    readNums (ts.flatMap code) (decoded h0 cs) =
      .ok (decoded h0 (cs ++ ts.flatMap ZeroRuns.expand)) := by
  induction ts generalizing cs with
  | nil =>
    rw [List.flatMap_nil, List.flatMap_nil, List.append_nil]
    rfl
  | cons t ts ih =>
    obtain ⟨⟨ht1, ht2⟩, hts⟩ := List.forall_mem_cons.1 hts
    have hzig : Varint.zigzag t < 128 ^ 8 * 256 :=
      Varint.zigzag_lt (w := 63) (Int.le_of_lt ht1) ht2
    have hnum : (zigZagDecode (BitVec.ofNat 64 (Varint.zigzag t))).toInt = t := by
      rw [toInt_zigZagDecode, BitVec.toNat_ofNat, Nat.mod_eq_of_lt (show _ < 2 ^ 64 from hzig),
        Varint.unzigzag_zigzag]
    rw [List.flatMap_cons, ← List.append_assoc] at hfit
    have hroom : (cs ++ ZeroRuns.expand t).length ≤ h0.counts.length := by
      rw [List.length_append] at hfit
      omega
    have hpos : 0 < t → cs.length < h0.counts.length := by
      intro hpos
      rw [ZeroRuns.expand, if_neg (by omega), List.length_append, List.length_singleton] at hroom
      omega
    rw [List.length_append] at hroom
    have hdec := Varint.decode_encode hzig (ts.flatMap code)
    rw [← code] at hdec
    rw [List.flatMap_cons, readNums_code hdec,
      onDecodedNum_eq _ (by omega), hnum, if_neg (by omega), if_neg (by omega), if_pos (by omega),
      ok_bind, ih _ hts hfit, List.flatMap_cons, List.append_assoc]

theorem readNums_payload (hn : h0.counts.length < 2 ^ 63) (hs : Serializable cs)
    (hfit : cs.length ≤ h0.counts.length) :
    readNums (payload cs) (decoded h0 []) = .ok (decoded h0 cs) := by
  have hts : ∀ t ∈ ZeroRuns.tokens cs, -2 ^ 63 < t ∧ t < 2 ^ 63 := by
    intro t ht
    rcases ZeroRuns.mem_tokensFrom ht with ⟨c, hc, rfl⟩ | rfl | ⟨h1, h2⟩
    · have hlt := hs c hc
      omega
    · decide
    · omega
  have hrun := readNums_codes hn [] hts (by
    rw [ZeroRuns.flatMap_expand_tokens, List.nil_append]
    exact hfit)
  rwa [ZeroRuns.flatMap_expand_tokens, List.nil_append] at hrun

section
variable (hk : Kept fl h)
include hk

theorem blank_fresh : Blank fl (fresh fl h.lowestDiscernibleValue h.highestTrackableValue
    h.significantValueDigits) where
  toShaped := (fresh_coherent hk.boundsOk hk.highest_lt).toShaped
  maxValue := rfl
  minNonZeroValue := rfl

theorem length_fresh : (fresh fl h.lowestDiscernibleValue h.highestTrackableValue
    h.significantValueDigits).counts.length = h.counts.length := by
  rw [hk.length, hk.bucketCount]
  exact List.length_replicate

omit hk in
/-- The counts that are not written are zeros. -/
theorem placed_written (h : Histogram) : placed h.counts.length (written h) = h.counts := by
  refine ext_getD (length_placed _ _) fun j => ?_
  rw [getD_placed, written]
  by_cases hj : j < h.counts.length
  · rw [if_pos hj, List.getD_eq_getElem?_getD, List.getElem?_take]
    split
    · exact (List.getD_eq_getElem?_getD ..).symm
    · rename_i hlast
      by_contra hne
      exact hlast (Nat.lt_succ_of_le (Slots.le_last (Ne.symm hne)))
  · rw [if_neg hj, List.getD_eq_default _ _ (Nat.le_of_not_lt hj)]

/-- What `deser_v2` makes of a header, past the cookie: it reads the payload. -/
theorem deserV2_header {bytes : List UInt8} (hbytes : bytes.length < 2 ^ 32) (tail : List UInt8) :
    deserV2 fl (BigEndian.encode 4 bytes.length ++ (headerTail h ++ (bytes ++ tail))) = (do
      let d ← readNums bytes (decoded (fresh fl h.lowestDiscernibleValue h.highestTrackableValue
        h.significantValueDigits) [])
      let h ← d.restat.updateHistogram d.h
      return (h, tail)) := by
  obtain ⟨hlow1, hlow2, hlow3, hsig, -⟩ := hk.boundsOk
  have hhigh := hk.highest_lt
  have hdigits : okOr DeserializeError.invalidParameters
      (if h.significantValueDigits < 2 ^ 8 then some h.significantValueDigits else none) =
        .ok h.significantValueDigits := by
    rw [if_pos (by omega)]
    rfl
  unfold deserV2 headerTail
  simp only [List.append_assoc]
  rw [readBe_encode (by omega), ok_bind]
  simp only []
  rw [readBe_encode (by decide), ok_bind]
  simp only [ne_eq, not_true_eq_false, if_false]
  rw [readBe_encode (by omega), ok_bind]
  simp only []
  rw [hdigits, ok_bind, readBe_encode (by unfold u64Max at hlow2; omega), ok_bind]
  simp only []
  rw [readBe_encode (by omega), ok_bind]
  simp only []
  rw [readBe_encode (by decide), ok_bind]
  simp only [not_true_eq_false, if_false]
  rw [newWithBounds_ok hk.boundsOk hk.highest_lt, mapErr_ok, ok_bind, readExact_append, ok_bind]
  simp only []
  rw [readCounts_eq, decoded_nil]

/-- What `deser_v2` makes of what `serialize` wrote, past the cookie. -/
theorem deserV2_written (hs : Serializable h.counts) (tail : List UInt8) :
    deserV2 fl (BigEndian.encode 4 (payload (written h)).length ++
      (headerTail h ++ (payload (written h) ++ tail))) =
      .ok (copied fl h, tail) := by
  have hbound := length_le_bound hk
  have hlen := length_fresh hk
  have hpayload := length_payload_le (written h)
  have hwritten : (written h).length ≤ h.counts.length := List.length_take_le' _ _
  have hs' : Serializable (written h) := (serializable_written h).2 hs
  rw [deserV2_header hk (by omega), readNums_payload (by omega) hs' (by omega), ok_bind,
    updateHistogram_decoded (blank_fresh hk) (inBounds_of_length_le (by omega)), ok_bind, hlen,
    placed_written]
  rfl

/-- **The round trip**: what `serialize` writes, `deserialize` reads back as a coherent histogram of
the same bounds and counts, and it leaves what follows in the reader. -/
theorem deserialize_serialize (hs : Serializable h.counts) (uninit : Nat → UInt8) (zlib : Zlib)
    (tail : List UInt8) :
    ∃ bytes, serialize h uninit = .ok (bytes, bytes.length) ∧
      deserialize fl zlib (bytes ++ tail) = .ok (copied fl h, tail) := by
  refine ⟨header h (payload (written h)).length ++ payload (written h), ?_, ?_⟩
  · rw [serialize_eq hk, if_pos hs, List.length_append, length_header]
  · unfold deserialize header
    rw [List.append_assoc, List.append_assoc, readBe_encode (by decide), ok_bind]
    simp only [if_true, List.append_assoc]
    exact deserV2_written hk hs tail

/-- **The compressed round trip**, with any encoder and decoder that undo each other. -/
theorem deserialize_serializeDeflate (hs : Serializable h.counts) (uninit : Nat → UInt8)
    (zlib : Zlib) (tail : List UInt8) :
    ∃ bytes, serializeDeflate zlib h uninit = .ok (bytes, bytes.length) ∧
      ∃ rest, deserialize fl zlib (bytes ++ tail) = .ok (copied fl h, rest) := by
  obtain ⟨bytes, hbytes⟩ : ∃ bytes,
      bytes = header h (payload (written h)).length ++ payload (written h) := ⟨_, rfl⟩
  have hserialize : serialize h uninit = .ok (bytes, bytes.length) := by
    rw [serialize_eq hk, if_pos hs, hbytes, List.length_append, length_header]
  have hdeflate := zlib.length_deflate bytes
  have hlen : bytes.length ≤ 40 + 9 * h.counts.length := by
    have hpayload := length_payload_le (written h)
    have hwritten : (written h).length ≤ h.counts.length := List.length_take_le' _ _
    rw [hbytes, List.length_append, length_header]
    omega
  have hbound := length_le_bound hk
  have htotal : (zlib.deflate bytes).length + 8 < 2 ^ 32 := by omega
  refine ⟨BigEndian.encode 4 v2CompressedCookie ++
    (BigEndian.encode 4 (zlib.deflate bytes).length ++ zlib.deflate bytes), ?_, ?_⟩
  · unfold serializeDeflate
    rw [hserialize, mapErr_ok, ok_bind]
    simp only [decide_true, List.take_length]
    have hsize : (BigEndian.encode 4 v2CompressedCookie ++ (BigEndian.encode 4 0 ++
        zlib.deflate bytes)).length = (zlib.deflate bytes).length + 8 := by
      simp only [List.length_append, BigEndian.length_encode]
      omega
    rw [assert_ok rfl, ok_bind, List.append_assoc, hsize, Nat.mod_eq_of_lt htotal,
      subU_ok (Nat.le_add_left _ _), ok_bind, Nat.add_sub_cancel, length_patch, pure_eq_ok,
      ← hsize]
    simp only [List.length_append, BigEndian.length_encode]
  · unfold deserialize
    rw [List.append_assoc, readBe_encode (by decide), ok_bind]
    have hcookie : ¬ v2CompressedCookie = v2Cookie := by decide
    simp only [hcookie, if_true, if_false]
    unfold deserV2Compressed
    rw [List.append_assoc, readBe_encode (by omega), ok_bind]
    have hbytes' : bytes = BigEndian.encode 4 v2Cookie ++ (BigEndian.encode 4
        (payload (written h)).length ++ (headerTail h ++ (payload (written h) ++ []))) := by
      rw [hbytes, header, List.append_nil]
      simp only [List.append_assoc]
    simp only [List.take_left]
    rw [zlib.inflate_deflate, hbytes', readBe_encode (by decide), ok_bind]
    simp only [ne_eq, not_true_eq_false, if_false]
    rw [deserV2_written hk hs [], ok_bind]
    exact ⟨_, rfl⟩

omit hk in
theorem deserialize_serializeDeflate_sample : ∃ bytes,
    serializeDeflate .stored sample (fun _ => 7) = .ok (bytes, bytes.length) ∧
      ∃ rest, deserialize .exact .stored (bytes ++ [1, 2]) = .ok (copied .exact sample, rest) :=
  deserialize_serializeDeflate sample_coherent.toKept (by decide) (fun _ => 7) .stored [1, 2]

end

/-! ## The histogram and its copy -/

theorem restored_max {ε : Type} (hb : Blank fl h0) {counts : List Nat}
    (hlen : counts.length = h0.counts.length) :
    (restored fl h0 counts).max (ε := ε) =
      .ok (((Slots.occupied counts).getLast?.map (h0.layout fl).topValue).getD originalMax) := by
  have hh : HasLayout (restored fl h0 counts) (h0.layout fl) := hb.toHasLayout.stats _ _ _ _
  cases hl : (Slots.occupied counts).getLast? with
  | none =>
    have hmax : (restored fl h0 counts).maxValue = originalMax := by
      simp only [restored, hl, Option.map_none, Option.getD_none]
    unfold Histogram.max
    rw [hmax]
    rfl
  | some i =>
    have hi : i < h0.counts.length :=
      (Slots.lt_length_of_mem (List.mem_of_getLast? hl)).trans_eq hlen
    refine max_eq hh (hb.toSized.low_lt hi) ?_
    simp only [restored, hl, Option.map_some, Option.getD_some]

section
variable {ε : Type} (hc : Coherent fl h)
  (hlast : Slots.last h.counts < (h.layout fl).slot u64Max)
include hc hlast

/-- Without samples in the slot of `u64::MAX`, the minimum is reported as it is recomputed. -/
theorem minNz_of_last_lt : h.minNz (ε := ε) =
    .ok (minValue (h.layout fl) (Slots.firstNonzero h.counts)) := by
  rw [hc.minNz]
  cases hf : Slots.firstNonzero h.counts with
  | none =>
    rw [hc.minEmpty (firstNonzero_eq_none.1 hf)]
    rfl
  | some i =>
    have hslot := hc.slot_minNonZeroValue hf
    have hle : i ≤ Slots.last h.counts := Slots.le_last (isLeast_firstNonzero hf).1.1
    have hne : h.minNonZeroValue ≠ originalMin := by
      intro he
      rw [he] at hslot
      exact Nat.not_le.2 hlast (hslot.trans_le hle)
    rw [minOf, if_neg hne, hslot, minValue]

/-- So is the maximum, past slot 0 or where slot 0 holds one value. -/
theorem max_of_last_lt (h0 : Slots.last h.counts ≠ 0 ∨ h.lowestDiscernibleValue = 1) :
    h.max (ε := ε) = .ok (((Slots.occupied h.counts).getLast?.map
      (h.layout fl).topValue).getD originalMax) := by
  have hslot := hc.slot_maxValue
  have hend : (h.layout fl).low (Slots.last h.counts + 1) < 2 ^ 64 := by
    have hmono := (LogLinear.low_strictMono (h.layout fl)).monotone (Nat.succ_le_of_lt hlast)
    have hle := LogLinear.low_slot_le (h.layout fl) u64Max
    unfold u64Max at hle hmono
    simp only [Nat.succ_eq_add_one] at hmono
    omega
  have hne : h.maxValue ≠ u64Max := by
    intro he
    rw [he] at hslot
    exact Nat.lt_irrefl _ (hslot.trans_lt hlast)
  have htop : ((Slots.occupied h.counts).getLast?.map (h.layout fl).topValue).getD originalMax =
      maxOf (h.layout fl) h.maxValue := by
    unfold maxOf
    by_cases hzero : Slots.last h.counts = 0
    · have hunit : (h.layout fl).unit = 0 := by
        have hlow : h.lowestDiscernibleValue = 1 := h0.resolve_left (absurd hzero)
        change fl.floorLog2 h.lowestDiscernibleValue = 0
        rw [hlow]
        exact fl.floorLog2_exact 1 (by decide) (by decide)
      have hmax : h.maxValue = originalMax := by
        have hle := (slot_eq_zero_iff hc.base_le).1 (hslot.trans hzero)
        rw [hunit] at hle
        exact Nat.le_zero.1 hle
      have htop0 : (h.layout fl).topValue 0 = 0 := by
        rw [topValue_zero hc.base_le, hunit]
        rfl
      rw [if_pos hmax]
      unfold Slots.last at hzero
      cases hl : (Slots.occupied h.counts).getLast? with
      | none => rfl
      | some i =>
        rw [hl, Option.getD_some] at hzero
        rw [Option.map_some, Option.getD_some, hzero, htop0]
        rfl
    · have hsome : (Slots.occupied h.counts).getLast? = some (Slots.last h.counts) := by
        unfold Slots.last at hzero ⊢
        cases hl : (Slots.occupied h.counts).getLast? with
        | none => rw [hl] at hzero; exact absurd rfl hzero
        | some i => rfl
      have hmax : h.maxValue ≠ originalMax := by
        intro he
        rw [he, originalMax, ← LogLinear.low_zero (h.layout fl), LogLinear.slot_low] at hslot
        exact hzero hslot.symm
      rw [if_neg hmax, if_neg hne, hslot, hsome, Option.map_some, Option.getD_some,
        topValue_of_lt hend, highest_of_lt hend]
  rw [hc.max, htop]

/-- **The copy equals the histogram**, unless it has samples in the slot of `u64::MAX`, or none past
a slot 0 that holds several values. -/
theorem eq_copied (h0 : Slots.last h.counts ≠ 0 ∨ h.lowestDiscernibleValue = 1) :
    h.eq (copied fl h) = .ok (ε := Stop ε) true := by
  have hblank := blank_fresh hc.toKept
  have hlen := length_fresh hc.toKept
  have hlow : ∀ i ∈ Slots.firstNonzero h.counts, (h.layout fl).low i < 2 ^ 64 := fun i hi =>
    hc.toSized.low_lt (Slots.lt_length_of_mem (List.mem_of_find?_eq_some hi))
  have hh : HasLayout (copied fl h) (h.layout fl) := hblank.toHasLayout.stats _ _ _ _
  have hmax := restored_max (ε := ε) hblank hlen.symm
  rw [eq_of_max (h := h) (g := copied fl h) rfl rfl hc.totalCount rfl
    (max_of_last_lt hc hlast h0) hmax (minNz_of_last_lt hc hlast) (minNz_eq hh hlow rfl)]
  exact congrArg _ (decide_eq_true rfl)

/-- **What comes back equals what was serialized.** -/
theorem roundtrip_eq (h0 : Slots.last h.counts ≠ 0 ∨ h.lowestDiscernibleValue = 1)
    (hs : Serializable h.counts) (uninit : Nat → UInt8) (zlib : Zlib) (tail : List UInt8) :
    ∃ bytes g, serialize h uninit = .ok (bytes, bytes.length) ∧
      deserialize fl zlib (bytes ++ tail) = .ok (g, tail) ∧
      h.eq g = .ok (ε := Stop ε) true := by
  obtain ⟨bytes, hbytes, hcopy⟩ := deserialize_serialize hc.toKept hs uninit zlib tail
  exact ⟨bytes, _, hbytes, hcopy, eq_copied hc hlast h0⟩

omit hc hlast in
theorem roundtrip_eq_sample : ∃ bytes g,
    serialize sample (fun _ => 7) = .ok (bytes, bytes.length) ∧
      deserialize .exact .stored (bytes ++ [1, 2]) = .ok (g, [1, 2]) ∧
      sample.eq g = .ok (ε := Stop Empty) true :=
  roundtrip_eq sample_coherent (by decide +kernel) (.inr rfl) (by decide) (fun _ => 7) .stored
    [1, 2]

end

end Chist.Serialization
