import ClAmiga.Number.BitwiseSpec

/-!
# Byte fields

LDB, DPB, MASK-FIELD and DEPOSIT-FIELD are compositions of shifts and bitwise
operations over masks.  Each step is exact or stops at a size limit, and the
composition inherits this: an operation returns the exact integer, or signals
the limit that one of its intermediate integers runs into.
-/

namespace ClAmiga.Number

open Radix Bignum

variable {platform : Platform}

/-- The cons `(size . position)` that `bi_byte` makes. -/
structure ByteSpec where
  size : ClInt
  position : ClInt

/-- `(1 << size) - 1`. -/
def fieldMask (platform : Platform) (spec : ByteSpec) : Result ClInt := do
  let mask ← clArithAsh platform (clMakeFixnum 1) spec.size
  clArithSub platform mask (clMakeFixnum 1)

def biLdb (platform : Platform) (spec : ByteSpec) (n : ClInt) :
    Result ClInt := do
  let neg ← clArithNegate platform spec.position
  let shifted ← clArithAsh platform n neg
  let mask ← fieldMask platform spec
  clArithLogand platform shifted mask

def biDpb (platform : Platform) (newbyte : ClInt) (spec : ByteSpec)
    (n : ClInt) : Result ClInt := do
  let mask ← fieldMask platform spec
  let shiftedMask ← clArithAsh platform mask spec.position
  let notm ← clArithLognot platform shiftedMask
  let cleared ← clArithLogand platform n notm
  let newBits ← clArithLogand platform newbyte mask
  let newBits ← clArithAsh platform newBits spec.position
  clArithLogior platform cleared newBits

def biMaskField (platform : Platform) (spec : ByteSpec) (n : ClInt) :
    Result ClInt := do
  let mask ← fieldMask platform spec
  let shiftedMask ← clArithAsh platform mask spec.position
  clArithLogand platform n shiftedMask

def biDepositField (platform : Platform) (newbyte : ClInt) (spec : ByteSpec)
    (n : ClInt) : Result ClInt := do
  let mask ← fieldMask platform spec
  let shiftedMask ← clArithAsh platform mask spec.position
  let notm ← clArithLognot platform shiftedMask
  let cleared ← clArithLogand platform n notm
  let newBits ← clArithLogand platform newbyte shiftedMask
  clArithLogior platform cleared newBits

/-- The errors that report a size limit: the two storage errors and the left
shift by more than a fixnum. -/
def SizeLimit (error : ClErr) : Prop :=
  match error with
  | .makeBignum _ => True
  | .allocation _ => True
  | error => error = shiftTooLarge

/-- The exact canonical integer, or a size limit; never a limit when there is
`room`. -/
def ExactOrLimit (platform : Platform) (room : Prop) (result : Result ClInt)
    (z : Int) : Prop :=
  result = .ok (canon z) ∧ Fits platform z ∨
    ¬ room ∧ ∃ error, result = .error error ∧ SizeLimit error

namespace ExactOrLimit

variable {room : Prop}

theorem of_fits {z : Int} (fits : Fits platform z) : ExactOrLimit platform room (.ok (canon z)) z :=
  Or.inl ⟨rfl, fits⟩

theorem bind {first : Result ClInt} {next : ClInt → Result ClInt} {y z : Int}
    (exact : ExactOrLimit platform room first y)
    (continues : Fits platform y → ExactOrLimit platform room (next (canon y)) z) :
    ExactOrLimit platform room (first >>= next) z := by
  rcases exact with ⟨returned, fits⟩ | ⟨noRoom, error, failed, limit⟩
  · rw [returned]
    exact continues fits
  · rw [failed]
    exact Or.inr ⟨noRoom, error, rfl, limit⟩

theorem requestError_sizeLimit {limbs : Nat} {error : ClErr}
    (refused : requestError platform limbs = some error) : SizeLimit error := by
  unfold requestError at refused
  split at refused
  · rw [← Option.some.inj refused]
    trivial
  · dsimp only at refused
    split at refused
    · rw [← Option.some.inj refused]
      trivial
    · simp at refused

theorem of_alloc {z : Int} (enough : room → Fits platform z) :
    ExactOrLimit platform room (alloc platform z) z := by
  by_cases fits : Fits platform z
  · rw [alloc_of_fits fits]
    exact of_fits fits
  · refine Or.inr ⟨fun hasRoom => fits (enough hasRoom), ?_⟩
    have refused : requestError platform (limbCount z) ≠ none :=
      fun accepted => fits ((requestError_eq_none_iff _ _).mp accepted)
    obtain ⟨error, found⟩ := Option.ne_none_iff_exists'.mp refused
    refine ⟨error, ?_, requestError_sizeLimit found⟩
    rw [alloc, allocWith, found]

end ExactOrLimit

theorem fits_of_folded {z : Int} {bits : Nat}
    (small : folded z < 2 ^ bits) (room : bits < 16 * maxLimbs platform) :
    Fits platform z := by
  apply limbCount_le
  obtain ⟨low, high⟩ := (folded_lt_iff z bits).mp small
  have cast : (2 : Int) ^ bits = ((2 ^ bits : Nat) : Int) := by
    push_cast
    rfl
  have double : 2 ^ (bits + 1) ≤ 2 ^ (16 * maxLimbs platform) :=
    Nat.pow_le_pow_right (by omega) room
  have positive := Nat.two_pow_pos bits
  rw [pow_succ] at double
  rw [← pow_mul]
  omega

theorem maxLimbs_le (platform : Platform) : maxLimbs platform ≤ 4194296 := by
  cases platform <;> simp only [maxLimbs] <;> omega

theorem folded_lt_of_fits {z : Int} (fits : Fits platform z) {bits : Nat}
    (wide : 2 ^ 27 ≤ bits) : folded z < 2 ^ bits := by
  have magnitude := lt_of_limbCount_le fits
  have few := maxLimbs_le platform
  rw [← pow_mul] at magnitude
  have below : folded z ≤ z.natAbs := by
    by_cases negative : z < 0
    · rw [folded_of_neg negative]
      omega
    · rw [folded_of_nonneg (by omega)]
  apply lt_of_le_of_lt below
  exact magnitude.trans_le (Nat.pow_le_pow_right (by omega) (by omega))

theorem clArithAsh_right_any {n count : ClInt}
    (canonical : n.Canonical platform) (countCanonical : count.Canonical platform)
    (right : count.toInt ≤ 0) :
    clArithAsh platform n count = .ok (canon (n.toInt / 2 ^ (-count.toInt).toNat)) := by
  cases count with
  | fixnum word => exact clArithAsh_right canonical right
  | bignum sign limbs =>
      have outside : ¬ InFixnumRange (ClInt.bignum sign limbs).toInt :=
        countCanonical.2.2
      have negative : (ClInt.bignum sign limbs).toInt < 0 := by
        simp only [InFixnumRange, clFixnumMin, clFixnumMax] at outside
        omega
      have minus := clArithMinusp_eq countCanonical
      rw [decide_eq_true negative] at minus
      have wide : 2 ^ 27 ≤ (-(ClInt.bignum sign limbs).toInt).toNat := by
        simp only [InFixnumRange, clFixnumMin, clFixnumMax] at outside
        omega
      generalize (-(ClInt.bignum sign limbs).toInt).toNat = shift at wide ⊢
      obtain ⟨low, high⟩ := (folded_lt_iff _ _).mp (folded_lt_of_fits canonical.fits wide)
      simp only [clArithAsh, minus, if_true, clArithZerop_eq canonical, clArithMinusp_eq canonical]
      by_cases zero : n.toInt = 0
      · rw [if_pos (by simpa using zero), zero, Int.zero_ediv, canonical.eq_canon, zero]
      · rw [if_neg (by simpa using zero)]
        by_cases below : n.toInt < 0
        · have quotient : n.toInt / 2 ^ shift = -1 := by
            rw [← Int.sub_eq_zero, Int.sub_neg, ← Int.add_mul_ediv_right n.toInt 1 (by positivity)]
            exact Int.ediv_eq_zero_of_lt (by omega) (by omega)
          rw [if_pos (by simpa using below), quotient]
          rfl
        · have quotient : n.toInt / 2 ^ shift = 0 :=
            Int.ediv_eq_zero_of_lt (by omega) high
          rw [if_neg (by simpa using below), quotient]
          rfl

theorem clArithAsh_left_any (room : Prop) {n count : ClInt}
    (canonical : n.Canonical platform) (countCanonical : count.Canonical platform)
    (left : 0 ≤ count.toInt)
    (enough : room → count.toInt < 2 ^ 30 ∧ Fits platform (n.toInt * 2 ^ count.toInt.toNat)) :
    ExactOrLimit platform room (clArithAsh platform n count) (n.toInt * 2 ^ count.toInt.toNat) := by
  cases count with
  | fixnum word =>
      have floor : floorShift n.toInt word.toInt = n.toInt * 2 ^ (ClInt.fixnum word).toInt.toNat :=
        floorShift_of_nonneg _ left
      rw [clArithAsh_fixnum canonical, floor]
      exact ExactOrLimit.of_alloc fun hasRoom => (enough hasRoom).2
  | bignum sign limbs =>
      have outside : ¬ InFixnumRange (ClInt.bignum sign limbs).toInt :=
        countCanonical.2.2
      have large : 2 ^ 30 ≤ (ClInt.bignum sign limbs).toInt := by
        simp only [InFixnumRange, clFixnumMin, clFixnumMax] at outside
        omega
      have plus := clArithMinusp_eq countCanonical
      rw [decide_eq_false (by omega)] at plus
      simp only [clArithAsh, plus, Bool.false_eq_true, if_false, clArithZerop_eq canonical]
      by_cases zero : n.toInt = 0
      · rw [if_pos (by simpa using zero), zero, Int.zero_mul, canonical.eq_canon, zero]
        exact ExactOrLimit.of_fits (Fits.of_range (by decide))
      · rw [if_neg (by simpa using zero)]
        refine Or.inr ⟨fun hasRoom => ?_, shiftTooLarge, rfl, rfl⟩
        have := (enough hasRoom).1
        omega

theorem clArithLogand_exact (room : Prop) {a b : ClInt}
    (aCanonical : a.Canonical platform) (bCanonical : b.Canonical platform)
    (enough : room → Fits platform (Int.land a.toInt b.toInt)) :
    ExactOrLimit platform room (clArithLogand platform a b) (Int.land a.toInt b.toInt) := by
  rw [clArithLogand, clArithBitop_eq .and aCanonical bCanonical, BignumBitop.bit, Int.bitwise_and]
  exact ExactOrLimit.of_alloc enough

theorem clArithLogior_exact (room : Prop) {a b : ClInt}
    (aCanonical : a.Canonical platform) (bCanonical : b.Canonical platform)
    (enough : room → Fits platform (Int.lor a.toInt b.toInt)) :
    ExactOrLimit platform room (clArithLogior platform a b) (Int.lor a.toInt b.toInt) := by
  rw [clArithLogior, clArithBitop_eq .ior aCanonical bCanonical, BignumBitop.bit, Int.bitwise_or]
  exact ExactOrLimit.of_alloc enough

/-- The components of a byte specifier: canonical and not negative. -/
structure ByteSpec.Valid (platform : Platform) (spec : ByteSpec)
    (s p : Nat) : Prop where
  sizeCanonical : spec.size.Canonical platform
  positionCanonical : spec.position.Canonical platform
  size : spec.size.toInt = s
  position : spec.position.toInt = p

/-- A position short enough for `cl_arith_negate`, which LDB applies to it. -/
def ShortPosition (p : Nat) : Prop :=
  limbCount (p : Int) < 2 ^ 16

theorem fits_two_pow {s : Nat} (small : s < 16 * maxLimbs platform) :
    Fits platform (2 ^ s : Int) := by
  apply limbCount_le
  have magnitude : ((2 : Int) ^ s).natAbs = 2 ^ s := by
    rw [Int.natAbs_pow]
    rfl
  rw [magnitude, ← pow_mul]
  exact Nat.pow_lt_pow_right (by omega) small

theorem folded_natural {z : Int} {bits : Nat} (nonneg : 0 ≤ z)
    (small : z < 2 ^ bits) : folded z < 2 ^ bits := by
  rw [folded_lt_iff]
  have positive : (0 : Int) < 2 ^ bits := by positivity
  omega

theorem folded_mask (s p : Nat) : folded ((2 ^ s - 1) * 2 ^ p) < 2 ^ (s + p) := by
  have sPositive : (0 : Int) < 2 ^ s := by positivity
  have pPositive : (0 : Int) < 2 ^ p := by positivity
  apply folded_natural
  · exact Int.mul_nonneg (by omega) pPositive.le
  · rw [pow_add]
    nlinarith

theorem natAbs_emod_le_mask (z : Int) (s : Nat) :
    (z % 2 ^ s).natAbs ≤ (2 ^ s - 1 : Int).natAbs := by
  have positive : (0 : Int) < 2 ^ s := by positivity
  have low := Int.emod_nonneg z positive.ne'
  have high := Int.emod_lt_of_pos z positive
  omega

theorem natAbs_emod_shifted_le_mask (z : Int) (s p : Nat) :
    (z % 2 ^ s * 2 ^ p).natAbs ≤ ((2 ^ s - 1) * 2 ^ p : Int).natAbs := by
  rw [Int.natAbs_mul, Int.natAbs_mul]
  exact Nat.mul_le_mul_right _ (natAbs_emod_le_mask z s)

theorem folded_neg_one_sub {z : Int} {bits : Nat}
    (small : folded z < 2 ^ bits) : folded (-1 - z) < 2 ^ bits := by
  rw [folded_lt_iff] at small ⊢
  omega

theorem folded_land {x y : Int} {bits : Nat} (xSmall : folded x < 2 ^ bits)
    (ySmall : folded y < 2 ^ bits) : folded (Int.land x y) < 2 ^ bits := by
  rw [← Int.bitwise_and]
  exact folded_bitwise_lt _ xSmall ySmall

theorem folded_lor {x y : Int} {bits : Nat} (xSmall : folded x < 2 ^ bits)
    (ySmall : folded y < 2 ^ bits) : folded (Int.lor x y) < 2 ^ bits := by
  rw [← Int.bitwise_or]
  exact folded_bitwise_lt _ xSmall ySmall

theorem land_mask (z : Int) (s : Nat) : Int.land z (2 ^ s - 1) = z % 2 ^ s := by
  apply eq_of_testBit_eq
  intro index
  rw [Int.testBit_land, testBit_mask, testBit_emod, Bool.and_comm]

theorem land_shifted_mask (z : Int) (s p : Nat) :
    Int.land z ((2 ^ s - 1) * 2 ^ p) = z / 2 ^ p % 2 ^ s * 2 ^ p := by
  apply eq_of_testBit_eq
  intro index
  rw [Int.testBit_land, testBit_mul_two_pow, testBit_mul_two_pow, testBit_mask,
    testBit_emod, testBit_ediv]
  by_cases inside : p ≤ index
  · rw [Nat.sub_add_cancel inside, decide_eq_true inside]
    cases z.testBit index <;> simp
  · simp [inside]

def dpbValue (s p : Nat) (v n : Int) : Int :=
  Int.lor (Int.land n (-1 - (2 ^ s - 1) * 2 ^ p)) (Int.land v (2 ^ s - 1) * 2 ^ p)

theorem hasField_dpbValue (s p : Nat) (v n : Int) : HasField s p v n (dpbValue s p v n) := by
  intro index
  rw [dpbValue, Int.testBit_lor, Int.testBit_land, testBit_neg_one_sub,
    testBit_mul_two_pow, testBit_mul_two_pow, testBit_mask, Int.testBit_land,
    testBit_mask]
  by_cases above : p ≤ index
  · by_cases inside : index < p + s
    · have low : index - p < s := by omega
      simp [above, inside, low]
    · have high : ¬ index - p < s := by omega
      simp [inside, high]
  · simp [above]

theorem dpbValue_emod (s p : Nat) (v n : Int) : dpbValue s p (v % 2 ^ s) n = dpbValue s p v n := by
  have same : Int.land (v % 2 ^ s) (2 ^ s - 1) = Int.land v (2 ^ s - 1) := by
    rw [land_mask, land_mask, Int.emod_emod_of_dvd _ (dvd_refl _)]
  rw [dpbValue, dpbValue, same]

theorem depositValue_eq (s p : Nat) (v n : Int) : Int.lor (Int.land n (-1 - (2 ^ s - 1) * 2 ^ p))
        (Int.land v ((2 ^ s - 1) * 2 ^ p)) = dpbValue s p (v / 2 ^ p) n := by
  rw [dpbValue, land_shifted_mask, land_mask]

/-- Enough room for every integer that DPB and DEPOSIT-FIELD build. -/
structure FieldRoom (platform : Platform) (s p : Nat) (n : Int) : Prop where
  field : s + p < 16 * maxLimbs platform
  integer : folded n < 2 ^ (16 * maxLimbs platform - 1)

section

variable {spec : ByteSpec} {s p : Nat} {room : Prop}

/-- The mask of a field of `s` bits. -/
theorem fieldMask_exact (valid : spec.Valid platform s p)
    (enough : room → s < 16 * maxLimbs platform) :
    ExactOrLimit platform room (fieldMask platform spec) (2 ^ s - 1) := by
  have few := maxLimbs_le platform
  have one : (clMakeFixnum 1).Canonical platform := trivial
  have oneValue : (clMakeFixnum 1).toInt = 1 := toInt_clMakeFixnum (by decide)
  have power : (1 : Int) * 2 ^ (s : Int).toNat = 2 ^ s := by
    rw [Int.one_mul, Int.toNat_natCast]
  have shifted := clArithAsh_left_any room one valid.sizeCanonical
  rw [oneValue, valid.size, power] at shifted
  apply ExactOrLimit.bind (shifted (by omega) fun hasRoom =>
    ⟨by have := enough hasRoom; omega, fits_two_pow (enough hasRoom)⟩)
  intro fits
  rw [clArithSub_eq (canonical_canon fits) one, toInt_canon, oneValue]
  apply ExactOrLimit.of_alloc
  intro _
  apply fits.of_natAbs_le
  have positive : (0 : Int) < 2 ^ s := by positivity
  omega

theorem shiftedMask_exact (valid : spec.Valid platform s p)
    (enough : room → s + p < 16 * maxLimbs platform)
    (maskFits : Fits platform (2 ^ s - 1)) :
    ExactOrLimit platform room (clArithAsh platform (canon (2 ^ s - 1)) spec.position)
      ((2 ^ s - 1) * 2 ^ p) := by
  have few := maxLimbs_le platform
  have shifted := clArithAsh_left_any room (canonical_canon maskFits) valid.positionCanonical
  rw [toInt_canon, valid.position, Int.toNat_natCast] at shifted
  exact shifted (by omega) fun hasRoom =>
    ⟨by have := enough hasRoom; omega,
      fits_of_folded (folded_mask s p) (enough hasRoom)⟩

/-- LDB reads the field. -/
theorem biLdb_exact (valid : spec.Valid platform s p) (short : ShortPosition p) {n : ClInt}
    (canonical : n.Canonical platform)
    (enough : room → s < 16 * maxLimbs platform) :
    ExactOrLimit platform room (biLdb platform spec n) (n.toInt / 2 ^ p % 2 ^ s) := by
  have positionShort : limbCount spec.position.toInt < 2 ^ 16 := by
    rw [valid.position]
    exact short
  have negated := clArithNegate_eq valid.positionCanonical positionShort
  rw [valid.position] at negated
  have negFits : Fits platform (-(p : Int)) := by
    have fits := valid.positionCanonical.fits
    rw [valid.position] at fits
    exact fits.of_natAbs_le (Int.natAbs_neg _).le
  have shifted := clArithAsh_right_any canonical (canonical_canon negFits)
    (by rw [toInt_canon]; omega)
  rw [toInt_canon, Int.neg_neg, Int.toNat_natCast] at shifted
  have shiftedFits := canonical.fits.shiftRight p
  unfold biLdb
  rw [negated]
  change ExactOrLimit platform room (do
    let shifted ← clArithAsh platform n (canon (-(p : Int)))
    let mask ← fieldMask platform spec
    clArithLogand platform shifted mask) _
  rw [shifted]
  apply ExactOrLimit.bind (ExactOrLimit.of_fits shiftedFits)
  intro _
  apply ExactOrLimit.bind (fieldMask_exact valid enough)
  intro maskFits
  have combined := clArithLogand_exact room (canonical_canon shiftedFits) (canonical_canon maskFits)
  rw [toInt_canon, toInt_canon, land_mask] at combined
  exact combined fun _ => maskFits.of_natAbs_le (natAbs_emod_le_mask _ s)

/-- MASK-FIELD keeps the field in its place. -/
theorem biMaskField_exact (valid : spec.Valid platform s p) {n : ClInt}
    (canonical : n.Canonical platform)
    (enough : room → s + p < 16 * maxLimbs platform) :
    ExactOrLimit platform room (biMaskField platform spec n) (n.toInt / 2 ^ p % 2 ^ s * 2 ^ p) := by
  apply ExactOrLimit.bind (fieldMask_exact valid fun hasRoom => by
    have := enough hasRoom
    omega)
  intro maskFits
  apply ExactOrLimit.bind (shiftedMask_exact valid enough maskFits)
  intro shiftedFits
  have combined := clArithLogand_exact room canonical (canonical_canon shiftedFits)
  rw [toInt_canon, land_shifted_mask] at combined
  exact combined fun _ => shiftedFits.of_natAbs_le (natAbs_emod_shifted_le_mask _ s p)

/-- The common part of DPB and DEPOSIT-FIELD: the integer with its field
cleared. -/
theorem cleared_exact (valid : spec.Valid platform s p) {n : ClInt}
    (canonical : n.Canonical platform)
    (rest : ClInt → ClInt → ClInt → Result ClInt) {z : Int}
    (enough : room → FieldRoom platform s p n.toInt)
    (continues : Fits platform (2 ^ s - 1) → Fits platform ((2 ^ s - 1) * 2 ^ p) →
      Fits platform (Int.land n.toInt (-1 - (2 ^ s - 1) * 2 ^ p)) →
      ExactOrLimit platform room (rest (canon (2 ^ s - 1)) (canon ((2 ^ s - 1) * 2 ^ p))
        (canon (Int.land n.toInt (-1 - (2 ^ s - 1) * 2 ^ p)))) z) :
    ExactOrLimit platform room (do
      let mask ← fieldMask platform spec
      let shiftedMask ← clArithAsh platform mask spec.position
      let notm ← clArithLognot platform shiftedMask
      let cleared ← clArithLogand platform n notm
      rest mask shiftedMask cleared) z := by
  apply ExactOrLimit.bind (fieldMask_exact valid fun hasRoom => by
    have := (enough hasRoom).field
    omega)
  intro maskFits
  apply ExactOrLimit.bind
    (shiftedMask_exact valid (fun hasRoom => (enough hasRoom).field) maskFits)
  intro shiftedFits
  have complement := clArithLognot_eq (canonical_canon shiftedFits)
  rw [toInt_canon] at complement
  rw [complement]
  have complementSmall := folded_neg_one_sub (folded_mask s p)
  apply ExactOrLimit.bind (ExactOrLimit.of_alloc fun hasRoom =>
    fits_of_folded complementSmall (enough hasRoom).field)
  intro complementFits
  have combined := clArithLogand_exact room canonical (canonical_canon complementFits)
  rw [toInt_canon] at combined
  apply ExactOrLimit.bind (combined fun hasRoom => ?_)
  · exact continues maskFits shiftedFits
  · obtain ⟨field, integer⟩ := enough hasRoom
    have wide : folded (-1 - (2 ^ s - 1) * 2 ^ p : Int) < 2 ^ (16 * maxLimbs platform - 1) :=
      complementSmall.trans_le (Nat.pow_le_pow_right (by omega) (by omega))
    exact fits_of_folded (folded_land integer wide) (by omega)

theorem fits_of_le_room {z : Int} (field : s + p < 16 * maxLimbs platform)
    (small : folded z < 2 ^ (16 * maxLimbs platform - 1)) : Fits platform z :=
  fits_of_folded small (by omega)

theorem folded_newBits (s p : Nat) (v : Int) :
    folded (Int.land v (2 ^ s - 1) * 2 ^ p) < 2 ^ (s + p) := by
  have sPositive : (0 : Int) < 2 ^ s := by positivity
  have pPositive : (0 : Int) < 2 ^ p := by positivity
  have low := Int.emod_nonneg v sPositive.ne'
  have high := Int.emod_lt_of_pos v sPositive
  rw [land_mask]
  apply folded_natural
  · exact Int.mul_nonneg low pPositive.le
  · rw [pow_add]
    exact Int.mul_lt_mul_of_pos_right high pPositive

theorem folded_dpbValue {v n : Int} (field : s + p < 16 * maxLimbs platform)
    (integer : folded n < 2 ^ (16 * maxLimbs platform - 1)) :
    folded (dpbValue s p v n) < 2 ^ (16 * maxLimbs platform - 1) := by
  have widen : 2 ^ (s + p) ≤ 2 ^ (16 * maxLimbs platform - 1) :=
    Nat.pow_le_pow_right (by omega) (by omega)
  apply folded_lor
  · exact folded_land integer ((folded_neg_one_sub (folded_mask s p)).trans_le widen)
  · exact (folded_newBits s p v).trans_le widen

/-- DPB replaces the field by the low bits of the new byte. -/
theorem biDpb_exact (valid : spec.Valid platform s p) {v n : ClInt}
    (vCanonical : v.Canonical platform) (canonical : n.Canonical platform)
    (enough : room → FieldRoom platform s p n.toInt) :
    ExactOrLimit platform room (biDpb platform v spec n) (dpbValue s p v.toInt n.toInt) := by
  have few := maxLimbs_le platform
  apply cleared_exact valid canonical (fun mask _ cleared => do
    let newBits ← clArithLogand platform v mask
    let newBits ← clArithAsh platform newBits spec.position
    clArithLogior platform cleared newBits) enough
  intro maskFits _ clearedFits
  have masked := clArithLogand_exact room vCanonical (canonical_canon maskFits)
  rw [toInt_canon] at masked
  have residueFits : Fits platform (Int.land v.toInt (2 ^ s - 1)) := by
    rw [land_mask]
    exact maskFits.of_natAbs_le (natAbs_emod_le_mask _ s)
  apply ExactOrLimit.bind (masked fun _ => residueFits)
  intro _
  have shifted := clArithAsh_left_any room (canonical_canon residueFits) valid.positionCanonical
  rw [toInt_canon, valid.position, Int.toNat_natCast] at shifted
  apply ExactOrLimit.bind (shifted (by omega) fun hasRoom =>
    ⟨by have := (enough hasRoom).field; omega,
      fits_of_folded (folded_newBits s p v.toInt) (enough hasRoom).field⟩)
  intro newFits
  have joined := clArithLogior_exact room (canonical_canon clearedFits) (canonical_canon newFits)
  rw [toInt_canon, toInt_canon] at joined
  exact joined fun hasRoom => fits_of_le_room (enough hasRoom).field
    (folded_dpbValue (enough hasRoom).field (enough hasRoom).integer)

/-- DEPOSIT-FIELD replaces the field by that of the new byte. -/
theorem biDepositField_exact (valid : spec.Valid platform s p) {v n : ClInt}
    (vCanonical : v.Canonical platform) (canonical : n.Canonical platform)
    (enough : room → FieldRoom platform s p n.toInt) :
    ExactOrLimit platform room (biDepositField platform v spec n)
      (dpbValue s p (v.toInt / 2 ^ p) n.toInt) := by
  apply cleared_exact valid canonical (fun _ shiftedMask cleared => do
    let newBits ← clArithLogand platform v shiftedMask
    clArithLogior platform cleared newBits) enough
  intro _ shiftedFits clearedFits
  have masked := clArithLogand_exact room vCanonical (canonical_canon shiftedFits)
  rw [toInt_canon] at masked
  have newFits : Fits platform (Int.land v.toInt ((2 ^ s - 1) * 2 ^ p)) := by
    rw [land_shifted_mask]
    exact shiftedFits.of_natAbs_le (natAbs_emod_shifted_le_mask _ s p)
  apply ExactOrLimit.bind (masked fun _ => newFits)
  intro _
  have joined := clArithLogior_exact room (canonical_canon clearedFits) (canonical_canon newFits)
  rw [toInt_canon, toInt_canon, depositValue_eq] at joined
  exact joined fun hasRoom => fits_of_le_room (enough hasRoom).field
    (folded_dpbValue (enough hasRoom).field (enough hasRoom).integer)

/-- The laws of the four operations for one byte specifier.  Each operation and
each composition is exact up to a size limit, and no limit is reached while the
field and the integer stay a bit below the largest object. -/
structure ByteFieldLaws (platform : Platform) (spec : ByteSpec) (s p : Nat)
    (v n : ClInt) : Prop where
  ldb : ShortPosition p → ExactOrLimit platform (s < 16 * maxLimbs platform)
    (biLdb platform spec n) (n.toInt / 2 ^ p % 2 ^ s)
  dpb : ∃ z, HasField s p v.toInt n.toInt z ∧
    ExactOrLimit platform (FieldRoom platform s p n.toInt)
      (biDpb platform v spec n) z
  ldbOfDpb : ShortPosition p → ExactOrLimit platform (FieldRoom platform s p n.toInt) (do
    let deposited ← biDpb platform v spec n
    biLdb platform spec deposited) (v.toInt % 2 ^ s)
  maskField : ExactOrLimit platform (s + p < 16 * maxLimbs platform)
    (biMaskField platform spec n) (n.toInt / 2 ^ p % 2 ^ s * 2 ^ p)
  depositField : ∃ z, HasField s p (v.toInt / 2 ^ p) n.toInt z ∧
    ExactOrLimit platform (FieldRoom platform s p n.toInt)
      (biDepositField platform v spec n) z ∧
    (ShortPosition p → ExactOrLimit platform (FieldRoom platform s p n.toInt) (do
      let byte ← biLdb platform spec v
      biDpb platform byte spec n) z)

end

/-- The byte operators obey the laws for every valid specifier and all integers. -/
theorem byteField_laws (platform : Platform) (spec : ByteSpec) (s p : Nat)
    (v n : ClInt) (valid : spec.Valid platform s p)
    (vCanonical : v.Canonical platform) (canonical : n.Canonical platform) :
    ByteFieldLaws platform spec s p v n := by
  have deposited : ExactOrLimit platform (FieldRoom platform s p n.toInt)
      (biDpb platform v spec n) (dpbValue s p v.toInt n.toInt) :=
    biDpb_exact valid vCanonical canonical id
  have sizeRoom : FieldRoom platform s p n.toInt → s < 16 * maxLimbs platform := by
    intro room
    have := room.field
    omega
  refine ⟨fun short => biLdb_exact valid short canonical id,
    ⟨_, hasField_dpbValue s p v.toInt n.toInt, deposited⟩,
    fun short => ?_, biMaskField_exact valid canonical id,
    ⟨_, hasField_dpbValue s p (v.toInt / 2 ^ p) n.toInt,
      biDepositField_exact valid vCanonical canonical id, fun short => ?_⟩⟩
  · apply deposited.bind
    intro fits
    have extracted := biLdb_exact valid short (canonical_canon fits) sizeRoom
    rw [toInt_canon, (hasField_dpbValue s p v.toInt n.toInt).field] at extracted
    exact extracted
  · apply (biLdb_exact valid short vCanonical sizeRoom).bind
    intro fits
    have combined : ExactOrLimit platform (FieldRoom platform s p n.toInt)
        (biDpb platform (canon (v.toInt / 2 ^ p % 2 ^ s)) spec n)
        (dpbValue s p (canon (v.toInt / 2 ^ p % 2 ^ s)).toInt n.toInt) :=
      biDpb_exact valid (canonical_canon fits) canonical id
    rw [toInt_canon, dpbValue_emod] at combined
    exact combined

/-- Ones written across a field of forty bits of a bignum. -/
theorem byteField_laws_minus_one :
    ByteFieldLaws .m68k ⟨canon 40, canon 20⟩ 40 20 (canon (-1)) (allOnes 3) :=
  byteField_laws .m68k ⟨canon 40, canon 20⟩ 40 20 (canon (-1)) (allOnes 3)
    ⟨trivial, trivial, toInt_canon 40, toInt_canon 20⟩ trivial
    (canonical_allOnes (by omega) (by decide))

/-- A size past the fixnums stops LDB, however small the integer is. -/
theorem biLdb_size_limit : (ClInt.bignum false [0, 0x4000]).Canonical .m68k ∧
      ¬ ∃ object, biLdb .m68k ⟨.bignum false [0, 0x4000], clMakeFixnum 0⟩ (clMakeFixnum 1) =
            .ok object ∧
        object.toInt = (1 : Int) / 2 ^ 0 % 2 ^ (ClInt.bignum false [0, 0x4000]).toInt.toNat := by
  refine ⟨⟨⟨[0], 0x4000, rfl, by decide⟩, by decide, by decide⟩, ?_⟩
  rintro ⟨object, returned, -⟩
  have stopped : biLdb .m68k ⟨.bignum false [0, 0x4000], clMakeFixnum 0⟩ (clMakeFixnum 1) =
        .error shiftTooLarge := rfl
  rw [stopped] at returned
  cases returned

end ClAmiga.Number
