import ClAmiga.HashTable.Refinement
import ClAmiga.Number.Arithmetic

/-!
# Agreement of hash, key comparison and test

For EQ, EQL and EQUAL the classes of keys are described by a value: two keys are
identified by the test, and by the table, when these values are the same, and the bits
of the hash that select a bucket are a function of the value.
-/

namespace ClAmiga.HashTable

open Chain Number Bignum

variable {V : Type} {tables : Nat → Nat → Bool} {test : Test} {keys : Set Obj}

theorem Keyed.of_class {β : Type} (cls : Obj → β)
    (tested : ∀ a ∈ keys, ∀ b ∈ keys, test.holds tables a b = true ↔ cls a = cls b)
    (compared : ∀ a ∈ keys, ∀ b ∈ keys, keysEqual test a b = true ↔ cls a = cls b)
    (hashed : ∀ places, ∀ a ∈ keys, ∀ b ∈ keys, cls a = cls b →
      (hashObj places test a).setWidth 20 = (hashObj places test b).setWidth 20) :
    Keyed tables test keys where
  equiv :=
    { refl := fun a aKey => (tested a aKey a aKey).mpr rfl
      symm := fun a aKey b bKey same =>
        (tested b bKey a aKey).mpr ((tested a aKey b bKey).mp same).symm
      trans := fun a aKey b bKey c cKey left right =>
        (tested a aKey c cKey).mpr
          (((tested a aKey b bKey).mp left).trans ((tested b bKey c cKey).mp right)) }
  compared := fun a aKey b bKey => by
    rw [Bool.eq_iff_iff, tested a aKey b bKey, compared a aKey b bKey]
  hashed := fun places a aKey b bKey same => by
    have bits := congrArg BitVec.toNat
      (hashed places a aKey b bKey ((tested a aKey b bKey).mp same))
    rwa [BitVec.toNat_setWidth, BitVec.toNat_setWidth] at bits

theorem keyed_eq (keys : Set Obj) : Keyed tables .eq keys := by
  apply Keyed.of_class Obj.ident
  · intro a _ b _
    simp [Test.holds, same]
  · intro a _ b _
    simp [keysEqual, same]
  · intro places a _ b _ sameIdent
    simp only [hashObj, Obj.word, sameIdent]

/-- A number object in a heap. -/
def Real.In (heap : Nat → Obj) (r : Real) : Prop :=
  ∀ id, r.ident = .heap id → heap id = .real r

variable {heap : Nat → Obj} {a b : Obj}

theorem Real.In.inj {a b : Real} (aIn : a.In heap) (bIn : b.In heap)
    (same : a.ident = b.ident) : a = b := by
  cases kind : a.ident with
  | heap id =>
      have left := aIn id kind
      have right := bIn id (same ▸ kind)
      exact Obj.real.inj (left.symm.trans right)
  | fixnum word =>
      rw [kind] at same
      cases a <;> cases b <;> simp_all [Real.ident]
  | nil | char code => cases a <;> simp [Real.ident] at kind

/-- A number as the constructors of numbers make it, and no NaN. -/
def Real.Proper (platform : Platform) : Real → Prop
  | .fixnum _ | .bignum _ _ _ => True
  | .ratio _ num den => num.Canonical platform ∧ den.Canonical platform
  | .single _ bits => isNan .single bits.toNat = false
  | .double _ bits => isNan .double bits.toNat = false

/-- The value of a number: its bits without the identity, and with one zero. -/
def Real.value : Real → Real
  | .fixnum word => .fixnum word
  | .bignum _ sign limbs => .bignum 0 sign limbs
  | .ratio _ num den => .ratio 0 num den
  | .single _ bits => .single 0 (if Float.isZero .single bits.toNat then 0 else bits)
  | .double _ bits => .double 0 (if Float.isZero .double bits.toNat then 0 else bits)

variable {platform : Platform}

theorem clArithCompare_eq_zero_iff {a b : ClInt} (aCanonical : a.Canonical platform)
    (bCanonical : b.Canonical platform) : clArithCompare a b = 0 ↔ a = b := by
  rw [clArithCompare_eq aCanonical bCanonical, Int.sign_eq_zero_iff_zero, Int.sub_eq_zero]
  constructor
  · intro sameValue
    rw [aCanonical.eq_canon, bCanonical.eq_canon, sameValue]
  · rintro rfl
    rfl

theorem floatEq_iff {w : Nat} (precision : Float.Precision) {a b : BitVec w}
    (aNumber : isNan precision a.toNat = false) (bNumber : isNan precision b.toNat = false)
    (zero : Float.isZero precision 0 = true) :
    floatEq precision a.toNat b.toNat = true ↔
      (if Float.isZero precision a.toNat then 0 else a) =
        (if Float.isZero precision b.toNat then 0 else b) := by
  have zeroBits : ∀ x : BitVec w, Float.isZero precision x.toNat = false → x ≠ 0 := by
    rintro x nonzero rfl
    rw [BitVec.ofNat_eq_ofNat, BitVec.toNat_ofNat, Nat.zero_mod, zero] at nonzero
    cases nonzero
  simp only [floatEq, aNumber, bNumber, Bool.not_false, Bool.true_and, Bool.or_eq_true,
    Bool.and_eq_true, decide_eq_true_eq, BitVec.toNat_inj]
  cases aZero : Float.isZero precision a.toNat with
  | false =>
      cases bZero : Float.isZero precision b.toNat with
      | false => simp
      | true =>
          have apart : a ≠ b := by
            rintro rfl
            rw [aZero] at bZero
            cases bZero
          simpa [apart] using zeroBits a aZero
  | true =>
      cases bZero : Float.isZero precision b.toNat with
      | true => simp
      | false =>
          have apart : a ≠ b := by
            rintro rfl
            rw [aZero] at bZero
            cases bZero
          simpa [apart] using (zeroBits b bZero).symm

theorem valueEq_iff {a b : Real} (aProper : a.Proper platform) (bProper : b.Proper platform) :
    valueEq a b = true ↔ (∃ id, a.ident = .heap id) ∧ a.value = b.value := by
  cases a with
  | fixnum word => cases b <;> simp [valueEq, Real.ident]
  | bignum id sign limbs => cases b <;> simp [valueEq, Real.value, Real.ident]
  | ratio id num den =>
      cases b with
      | ratio id' num' den' =>
          have nums := clArithCompare_eq_zero_iff aProper.1 bProper.1
          have dens := clArithCompare_eq_zero_iff aProper.2 bProper.2
          simp [valueEq, clRatioEqual, Real.value, Real.ident, nums, dens]
      | _ => simp [valueEq, Real.value]
  | single id bits =>
      cases b with
      | single id' bits' =>
          have values := floatEq_iff .single aProper bProper (by decide)
          simp only [valueEq, values, Real.value, Real.ident, Real.single.injEq, true_and,
            Ident.heap.injEq, exists_eq']
      | _ => simp [valueEq, Real.value]
  | double id bits =>
      cases b with
      | double id' bits' =>
          have values := floatEq_iff .double aProper bProper (by decide)
          simp only [valueEq, values, Real.value, Real.ident, Real.double.injEq, true_and,
            Ident.heap.injEq, exists_eq']
      | _ => simp [valueEq, Real.value]

theorem keysEqualReal_iff {a b : Real} (aIn : a.In heap) (bIn : b.In heap)
    (aProper : a.Proper platform) (bProper : b.Proper platform) :
    keysEqualReal a b = true ↔ a.value = b.value := by
  rw [keysEqualReal, Bool.or_eq_true, decide_eq_true_eq, valueEq_iff aProper bProper]
  constructor
  · rintro (same | ⟨-, equal⟩)
    · rw [aIn.inj bIn same]
    · exact equal
  · intro equal
    by_cases onHeap : ∃ id, a.ident = .heap id
    · exact .inr ⟨onHeap, equal⟩
    · left
      cases a <;> cases b <;> simp_all [Real.ident, Real.value]

theorem eqlReal_iff {a b : Real} (aIn : a.In heap) (bIn : b.In heap)
    (aProper : a.Proper platform) (bProper : b.Proper platform) :
    eqlReal a b = true ↔ a.value = b.value := by
  have values := valueEq_iff aProper bProper
  have mixed : decide (a.ident = b.ident) = true → a.value = b.value := by
    intro same
    rw [aIn.inj bIn (of_decide_eq_true same)]
  cases a with
  | fixnum word => cases b <;> simp [eqlReal, Real.ident, Real.value]
  | bignum id sign limbs =>
      cases b with
      | bignum id' sign' limbs' => exact values.trans (and_iff_right ⟨id, rfl⟩)
      | _ => exact ⟨mixed, by simp [Real.value]⟩
  | ratio id num den =>
      cases b with
      | ratio id' num' den' => exact values.trans (and_iff_right ⟨id, rfl⟩)
      | _ => exact ⟨mixed, by simp [Real.value]⟩
  | single id bits =>
      cases b with
      | single id' bits' => exact values.trans (and_iff_right ⟨id, rfl⟩)
      | _ => exact ⟨mixed, by simp [Real.value]⟩
  | double id bits =>
      cases b with
      | double id' bits' => exact values.trans (and_iff_right ⟨id, rfl⟩)
      | _ => exact ⟨mixed, by simp [Real.value]⟩

theorem isZero_low_bits {bits : Nat} : (Float.isZero .single bits = true → bits % 2 ^ 31 = 0) ∧
      (Float.isZero .double bits = true → bits % 2 ^ 63 = 0) := by
  refine ⟨?_, ?_⟩
  · intro zero
    rw [← Nat.and_two_pow_sub_one_eq_mod]
    exact of_decide_eq_true zero
  · intro zero
    rw [← Nat.and_two_pow_sub_one_eq_mod]
    exact of_decide_eq_true zero

theorem hashReal_value (places : Places) (r : Real) :
    (hashReal places r).setWidth 20 = (hashReal places r.value).setWidth 20 := by
  cases r with
  | fixnum word => rfl
  | bignum id sign limbs => rfl
  | ratio id num den => rfl
  | single id bits =>
      simp only [hashReal, Real.value]
      by_cases zero : Float.isZero .single bits.toNat = true
      · rw [if_pos zero]
        have low : bits.setWidth 20 = 0 := by
          apply BitVec.eq_of_toNat_eq
          have high := isZero_low_bits.1 zero
          rw [BitVec.toNat_setWidth]
          simp only [BitVec.ofNat_eq_ofNat, BitVec.toNat_ofNat]
          omega
        rw [BitVec.setWidth_mul _ _ (by decide), low]
        simp
      · rw [if_neg zero]
  | double id bits =>
      simp only [hashReal, Real.value]
      by_cases zero : Float.isZero .double bits.toNat = true
      · rw [if_pos zero]
        have high := isZero_low_bits.2 zero
        have low : (bits.truncate 32 ^^^ (bits >>> 32).truncate 32).setWidth 20 = 0 := by
          have left : (bits.truncate 32 : Word) = 0 := by
            apply BitVec.eq_of_toNat_eq
            simp only [BitVec.truncate_eq_setWidth, BitVec.toNat_setWidth, BitVec.ofNat_eq_ofNat,
              BitVec.toNat_ofNat]
            omega
          have right : ((bits >>> 32).truncate 32 : Word).setWidth 20 = 0 := by
            apply BitVec.eq_of_toNat_eq
            simp only [BitVec.truncate_eq_setWidth, BitVec.toNat_setWidth, BitVec.ofNat_eq_ofNat,
              BitVec.toNat_ofNat, BitVec.toNat_ushiftRight, Nat.shiftRight_eq_div_pow]
            omega
          rw [left, BitVec.setWidth_xor, right]
          simp
        rw [BitVec.setWidth_mul _ _ (by decide), low]
        simp
      · rw [if_neg zero]

/-- An object in a heap, as far as the tests descend: an identity stands for one object. -/
def Obj.In (heap : Nat → Obj) : Obj → Prop
  | .real r => r.In heap
  | .complex id re im => heap id = .complex id re im ∧ re.In heap ∧ im.In heap
  | .cons id car cdr => heap id = .cons id car cdr ∧ car.In heap ∧ cdr.In heap
  | a => ∀ id, a.ident = .heap id → heap id = a

theorem Obj.In.at_ident {a : Obj} (isIn : a.In heap) {id : Nat}
    (kind : a.ident = .heap id) : heap id = a := by
  cases a with
  | real r => exact isIn id kind
  | complex id' re im =>
      obtain rfl := Ident.heap.inj kind
      exact isIn.1
  | cons id' car cdr =>
      obtain rfl := Ident.heap.inj kind
      exact isIn.1
  | _ => exact isIn id kind

theorem Obj.immediate_of_ident {a : Obj} :
    (a.ident = .nil → a = .nil) ∧ (∀ code, a.ident = .char code → a = .char code) ∧
      ∀ word, a.ident = .fixnum word → a = .real (.fixnum word) := by
  cases a with
  | real r => cases r <;> simp [Obj.ident, Real.ident]
  | _ => simp [Obj.ident]

theorem Obj.In.inj (aIn : a.In heap) (bIn : b.In heap) (same : a.ident = b.ident) : a = b := by
  cases kind : a.ident with
  | heap id => rw [← aIn.at_ident kind, bIn.at_ident (same ▸ kind)]
  | nil =>
      have right : b = .nil := Obj.immediate_of_ident.1 (same ▸ kind)
      exact (Obj.immediate_of_ident.1 kind).trans right.symm
  | char code =>
      have right : b = .char code := Obj.immediate_of_ident.2.1 code (same ▸ kind)
      exact (Obj.immediate_of_ident.2.1 code kind).trans right.symm
  | fixnum word =>
      have right : b = .real (.fixnum word) := Obj.immediate_of_ident.2.2 word (same ▸ kind)
      exact (Obj.immediate_of_ident.2.2 word kind).trans right.symm

/-- Under EQL numbers are compared by value. -/
inductive EqlClass where
  | number (value : Real)
  | complex (realpart imagpart : Real)
  | object (ident : Ident)

def eqlClass : Obj → EqlClass
  | .real r => .number r.value
  | .complex _ re im => .complex re.value im.value
  | a => .object a.ident

/-- No NaN, alone or as a part of a complex. -/
def Obj.ProperNumber (platform : Platform) : Obj → Prop
  | .real r => r.Proper platform
  | .complex _ re im => re.Proper platform ∧ im.Proper platform
  | _ => True

theorem same_iff (aIn : a.In heap) (bIn : b.In heap) : same a b = true ↔ a = b := by
  rw [same, decide_eq_true_eq]
  exact ⟨aIn.inj bIn, congrArg Obj.ident⟩

theorem eql_iff (aIn : a.In heap) (bIn : b.In heap)
    (aProper : a.ProperNumber platform) (bProper : b.ProperNumber platform) :
    eql a b = true ↔ eqlClass a = eqlClass b := by
  have identical := same_iff aIn bIn
  cases a with
  | real r =>
      cases b with
      | real s => simpa [eql, eqlClass] using eqlReal_iff aIn bIn aProper bProper
      | _ => exact identical.trans (by simp [eqlClass])
  | complex id re im =>
      cases b with
      | complex id' re' im' =>
          have res := eqlReal_iff aIn.2.1 bIn.2.1 aProper.1 bProper.1
          have ims := eqlReal_iff aIn.2.2 bIn.2.2 aProper.2 bProper.2
          simp [eql, eqlClass, res, ims]
      | _ => exact identical.trans (by simp [eqlClass])
  | _ =>
      cases b with
      | real s => exact identical.trans (by simp [eqlClass])
      | complex id' re' im' => exact identical.trans (by simp [eqlClass])
      | _ => simp [eql, same, eqlClass]

theorem keysEql_iff (aIn : a.In heap) (bIn : b.In heap)
    (aProper : a.ProperNumber platform) (bProper : b.ProperNumber platform) :
    keysEql a b = true ↔ eqlClass a = eqlClass b := by
  have identical := same_iff aIn bIn
  cases a with
  | real r =>
      cases b with
      | real s =>
          have compared : keysEql (.real r) (.real s) = keysEqualReal r s := rfl
          rw [compared, keysEqualReal_iff aIn bIn aProper bProper]
          simp [eqlClass]
      | _ => simp [keysEql, eqlClass, identical]
  | complex id re im =>
      cases b with
      | complex id' re' im' =>
          have res := keysEqualReal_iff aIn.2.1 bIn.2.1 aProper.1 bProper.1
          have ims := keysEqualReal_iff aIn.2.2 bIn.2.2 aProper.2 bProper.2
          simp only [keysEql, Bool.or_eq_true, identical, Bool.and_eq_true, res, ims, eqlClass,
            EqlClass.complex.injEq, Obj.complex.injEq]
          constructor
          · rintro (⟨-, rfl, rfl⟩ | values)
            · exact ⟨rfl, rfl⟩
            · exact values
          · exact .inr
      | _ => simp [keysEql, eqlClass, identical]
  | _ =>
      cases b with
      | real s => simp [keysEql, eqlClass, identical]
      | complex id' re' im' => simp [keysEql, eqlClass, identical]
      | _ => simp [keysEql, same, eqlClass]

theorem hashComplex_value (places : Places) (re im : Real) :
    (hashReal places re * 31 + hashReal places im).setWidth 20 =
      (hashReal places re.value * 31 + hashReal places im.value).setWidth 20 := by
  rw [BitVec.setWidth_add _ _ (by decide), BitVec.setWidth_mul _ _ (by decide),
    hashReal_value places re, hashReal_value places im, ← BitVec.setWidth_mul _ _ (by decide),
    ← BitVec.setWidth_add _ _ (by decide)]

theorem hashEql_class (places : Places) (sameClass : eqlClass a = eqlClass b) :
    (hashEql places a).setWidth 20 = (hashEql places b).setWidth 20 := by
  cases a with
  | real r =>
      cases b with
      | real s =>
          have values : r.value = s.value := by simpa [eqlClass] using sameClass
          rw [hashEql, hashReal_value, values, ← hashReal_value]
          rfl
      | _ => simp [eqlClass] at sameClass
  | complex id re im =>
      cases b with
      | complex id' re' im' =>
          obtain ⟨res, ims⟩ : re.value = re'.value ∧ im.value = im'.value := by
            simpa [eqlClass] using sameClass
          rw [hashEql, hashComplex_value, res, ims, ← hashComplex_value]
          rfl
      | _ => simp [eqlClass] at sameClass
  | _ =>
      cases b with
      | real s => simp [eqlClass] at sameClass
      | complex id' re' im' => simp [eqlClass] at sameClass
      | _ =>
          have idents := EqlClass.object.inj sameClass
          simp only [hashEql, Obj.word, idents]

theorem keyed_eql (inHeap : ∀ a ∈ keys, a.In heap)
    (proper : ∀ a ∈ keys, a.ProperNumber platform) : Keyed tables .eql keys := by
  apply Keyed.of_class eqlClass
  · intro a aKey b bKey
    exact eql_iff (inHeap a aKey) (inHeap b bKey) (proper a aKey) (proper b bKey)
  · intro a aKey b bKey
    exact keysEql_iff (inHeap a aKey) (inHeap b bKey) (proper a aKey) (proper b bKey)
  · intro places a _ b _ sameClass
    exact hashEql_class places sameClass

/-- A bit vector without a fill pointer and without bits behind its length. -/
structure BitVector.Proper (bits : BitVector) : Prop where
  fill : bits.fillPointer = none
  words : bits.data.length = (bits.length + 31) / 32
  clean : ∀ i, bits.length ≤ i → bits.getBit i = false

/-- Under EQUAL, strings, bit vectors and conses are compared by their contents. -/
inductive EqualClass where
  | number (value : Real)
  | complex (realpart imagpart : Real)
  | codes (codes : List Int)
  | bits (bits : List Bool)
  | cons (car cdr : EqualClass)
  | object (ident : Ident)

def equalClass : Obj → EqualClass
  | .real r => .number r.value
  | .complex _ re im => .complex re.value im.value
  | .string _ data => .codes (data.map fun byte => (byte.toNat : Int))
  | .wideString _ data => .codes (data.map fun code => (code : Int))
  | .vector _ true _ data => .codes (data.map (charCode 0))
  | .bitVector _ bits => .bits bits.active
  | .cons _ car cdr => .cons (equalClass car) (equalClass cdr)
  | a => .object a.ident

/-- Down its conses, a key has no NaN and no pathname, its character vectors hold
characters and its bit vectors are proper. -/
def Obj.Proper (platform : Platform) : Obj → Prop
  | .real r => r.Proper platform
  | .complex _ re im => re.Proper platform ∧ im.Proper platform
  | .cons _ car cdr => car.Proper platform ∧ cdr.Proper platform
  | .vector _ true _ data => ∀ x ∈ data, ∃ code, x = .char code
  | .bitVector _ bits => bits.Proper
  | .pathname _ _ _ _ _ _ _ => False
  | _ => True

theorem charCode_absent {data : List Obj} (chars : ∀ x ∈ data, ∃ code, x = .char code)
    (absent absent' : Int) : data.map (charCode absent) = data.map (charCode absent') := by
  apply List.map_congr_left
  intro x member
  obtain ⟨code, rfl⟩ := chars x member
  rfl

theorem sameWords_iff {a b : BitVector} (aProper : a.Proper) (bProper : b.Proper) :
    (a.length = b.length ∧ a.sameWords b a.length = true) ↔ a.active = b.active := by
  have aActive : a.activeLength = a.length := by rw [BitVector.activeLength, aProper.fill]; rfl
  have bActive : b.activeLength = b.length := by rw [BitVector.activeLength, bProper.fill]; rfl
  rw [BitVector.sameWords, decide_eq_true_eq]
  constructor
  · rintro ⟨lengths, words⟩
    rw [List.take_of_length_le (by rw [aProper.words]),
      List.take_of_length_le (by rw [bProper.words, lengths])] at words
    simp only [BitVector.active, aActive, bActive, lengths]
    apply List.map_congr_left
    intro i _
    simp only [BitVector.getBit, words]
  · intro bits
    have lengths : a.length = b.length := by
      have counted := congrArg List.length bits
      simpa [BitVector.active, aActive, bActive] using counted
    refine ⟨lengths, ?_⟩
    rw [List.take_of_length_le (by rw [aProper.words]),
      List.take_of_length_le (by rw [bProper.words, lengths])]
    have everyBit : ∀ i, a.getBit i = b.getBit i := by
      intro i
      by_cases inside : i < a.length
      · simp only [BitVector.active, aActive, bActive, ← lengths] at bits
        exact List.map_inj_left.mp bits i (List.mem_range.mpr inside)
      · rw [aProper.clean i (by omega), bProper.clean i (by omega)]
    apply List.ext_getElem
    · rw [aProper.words, bProper.words, lengths]
    · intro k kA kB
      apply BitVec.eq_of_getLsbD_eq
      intro j small
      have bit := everyBit (32 * k + j)
      have word : (32 * k + j) / 32 = k := by omega
      have position : (32 * k + j) % 32 = j := by omega
      simpa only [BitVector.getBit, word, position, List.getD_eq_getElem _ _ kA,
        List.getD_eq_getElem _ _ kB] using bit

theorem stringCodes_absent {a : Obj} (proper : a.Proper platform) :
    stringCodes (-1) a = stringCodes 0 a := by
  cases a with
  | vector id isString dims data =>
      cases isString with
      | true => exact congrArg some (charCode_absent proper (-1) 0)
      | false => rfl
  | _ => rfl

section Classes

attribute [local simp] equalClass

theorem equalClass_eq_codes {a : Obj} {codes : List Int} :
    equalClass a = .codes codes ↔ stringCodes 0 a = some codes := by
  cases a with
  | vector id isString dims data => cases isString <;> simp [equalClass, stringCodes]
  | _ => simp [equalClass, stringCodes]

theorem equalClass_eq_bits {a : Obj} {bits : List Bool} :
    equalClass a = .bits bits ↔ ∃ id x, a = .bitVector id x ∧ x.active = bits := by
  cases a with
  | vector id isString dims data => cases isString <;> simp [equalClass]
  | _ => simp [equalClass]

theorem equalClass_eq_object {a : Obj} {ident : Ident} (object : equalClass a = .object ident) :
    a.ident = ident := by
  cases a with
  | vector id isString dims data => cases isString <;> simp_all [equalClass]
  | _ => simp_all [equalClass]

theorem real_of_equalClass {a : Obj} {value : Real} (number : equalClass a = .number value) :
    ∃ r, a = .real r := by
  cases a with
  | vector id isString dims data => cases isString <;> simp [equalClass] at number
  | _ => simp_all [equalClass]

theorem complex_of_equalClass {a : Obj} {re im : Real} (complex : equalClass a = .complex re im) :
    ∃ id x y, a = .complex id x y := by
  cases a with
  | vector id isString dims data => cases isString <;> simp [equalClass] at complex
  | _ => simp_all [equalClass]

theorem cons_of_equalClass {a : Obj} {car cdr : EqualClass} (cons : equalClass a = .cons car cdr) :
    ∃ id x y, a = .cons id x y := by
  cases a with
  | vector id isString dims data => cases isString <;> simp [equalClass] at cons
  | _ => simp_all [equalClass]

end Classes

/-- Strings of the same codes, or bit vectors of the same bits. -/
def SameContents (a b : Obj) : Prop :=
  (∃ codes, stringCodes 0 a = some codes ∧ stringCodes 0 b = some codes) ∨
    ∃ id x id' y, a = .bitVector id x ∧ b = .bitVector id' y ∧ x.active = y.active

theorem sameContents_strings {x y : List Int} (aCodes : stringCodes 0 a = some x)
    (bCodes : stringCodes 0 b = some y) : SameContents a b ↔ x = y := by
  constructor
  · rintro (⟨codes, aSame, bSame⟩ | ⟨id, bits, -, -, rfl, -⟩)
    · rw [aCodes] at aSame
      rw [bCodes] at bSame
      exact Option.some.inj (aSame.trans bSame.symm)
    · cases aCodes
  · rintro rfl
    exact .inl ⟨x, aCodes, bCodes⟩

theorem not_sameContents
    (noCodes : ∀ x y, stringCodes 0 a = some x → stringCodes 0 b = some y → False)
    (notBits : ∀ id x id' y, a = .bitVector id x → b = .bitVector id' y → False) :
    ¬ SameContents a b := by
  rintro (⟨codes, aCodes, bCodes⟩ | ⟨id, x, id', y, aBits, bBits, -⟩)
  · exact noCodes codes codes aCodes bCodes
  · exact notBits id x id' y aBits bBits

theorem equalFlat_iff (aProper : a.Proper platform) (bProper : b.Proper platform) :
    equalFlat a b = true ↔ SameContents a b := by
  unfold equalFlat
  rw [stringCodes_absent aProper, stringCodes_absent bProper]
  split
  case h_1 x y aCodes bCodes => rw [decide_eq_true_eq, sameContents_strings aCodes bCodes]
  case h_2 noCodes =>
    split
    case h_1 id x id' y =>
      rw [Bool.and_eq_true, decide_eq_true_eq, sameWords_iff aProper bProper]
      simp [SameContents, stringCodes]
    case h_2 notBits =>
      have noPath : pathnameEqual a b = false := by
        cases a with
        | pathname => cases aProper
        | _ => rfl
      rw [noPath]
      exact iff_of_false Bool.false_ne_true (not_sameContents noCodes notBits)

theorem keysFlat_iff (a b : Obj) : keysFlat false a b = true ↔ SameContents a b := by
  unfold keysFlat
  split
  case h_1 x y aCodes bCodes =>
    rw [if_neg Bool.false_ne_true, decide_eq_true_eq, sameContents_strings aCodes bCodes]
  case h_2 noCodes =>
    split
    case h_1 id x id' y => simp [SameContents, stringCodes]
    case h_2 notBits =>
      refine iff_of_false ?_ (not_sameContents noCodes notBits)
      split <;> simp

/-- Two objects that are not both numbers, both complexes or both conses. -/
def Mixed : Obj → Obj → Prop
  | .real _, .real _ | .complex _ _ _, .complex _ _ _ | .cons _ _ _, .cons _ _ _ => False
  | _, _ => True

theorem equalClass_mixed (aIn : a.In heap) (bIn : b.In heap)
    (mixed : Mixed a b) : equalClass a = equalClass b ↔ a = b ∨ SameContents a b := by
  constructor
  · intro classes
    cases kind : equalClass a with
    | codes codes =>
        have bKind := classes.symm.trans kind
        exact .inr (.inl ⟨codes, equalClass_eq_codes.mp kind, equalClass_eq_codes.mp bKind⟩)
    | bits bits =>
        obtain ⟨id, x, rfl, aBits⟩ := equalClass_eq_bits.mp kind
        obtain ⟨id', y, rfl, bBits⟩ := equalClass_eq_bits.mp (classes.symm.trans kind)
        exact .inr (.inr ⟨id, x, id', y, rfl, rfl, aBits.trans bBits.symm⟩)
    | object ident =>
        have aIdent := equalClass_eq_object kind
        have bIdent := equalClass_eq_object (classes.symm.trans kind)
        exact .inl (aIn.inj bIn (aIdent.trans bIdent.symm))
    | number value =>
        obtain ⟨r, rfl⟩ := real_of_equalClass kind
        obtain ⟨s, rfl⟩ := real_of_equalClass (classes.symm.trans kind)
        exact mixed.elim
    | complex re im =>
        obtain ⟨id, x, y, rfl⟩ := complex_of_equalClass kind
        obtain ⟨id', x', y', rfl⟩ := complex_of_equalClass (classes.symm.trans kind)
        exact mixed.elim
    | cons car cdr =>
        obtain ⟨id, x, y, rfl⟩ := cons_of_equalClass kind
        obtain ⟨id', x', y', rfl⟩ := cons_of_equalClass (classes.symm.trans kind)
        exact mixed.elim
  · rintro (rfl | ⟨codes, aCodes, bCodes⟩ | ⟨id, x, id', y, rfl, rfl, sameBits⟩)
    · rfl
    · rw [equalClass_eq_codes.mpr aCodes, equalClass_eq_codes.mpr bCodes]
    · simp [equalClass, sameBits]

theorem equal_mixed (aIn : a.In heap) (bIn : b.In heap)
    (aProper : a.Proper platform) (bProper : b.Proper platform) (mixed : Mixed a b) :
    equal a b = true ↔ equalClass a = equalClass b := by
  have flat : equal a b = (same a b || equalFlat a b) := by
    unfold equal
    split
    case h_4 => rfl
    all_goals exact mixed.elim
  rw [flat, Bool.or_eq_true, same_iff aIn bIn, equalFlat_iff aProper bProper,
    equalClass_mixed aIn bIn mixed]

theorem keysDeep_mixed (aIn : a.In heap) (bIn : b.In heap)
    (mixed : Mixed a b) : keysDeep false a b = true ↔ equalClass a = equalClass b := by
  have flat : keysDeep false a b = true ↔ same a b = true ∨ SameContents a b := by
    unfold keysDeep
    rw [Bool.or_eq_true]
    split
    case h_1 c d => simp [SameContents, stringCodes]
    case h_5 id isString dims x id' isString' dims' y =>
      cases isString with
      | true =>
          cases isString' with
          | true => simp only [Bool.and_self, if_true, keysFlat_iff]
          | false => simp [SameContents, stringCodes]
      | false => simp [SameContents, stringCodes]
    case h_6 => rw [keysFlat_iff]
    all_goals exact mixed.elim
  rw [flat, same_iff aIn bIn, equalClass_mixed aIn bIn mixed]

/-- A comparison that takes conses apart as EQUAL does identifies the objects of one class,
provided that it does so where it does not descend. -/
theorem equalClass_of_descent (compare : Obj → Obj → Bool) (part : Real → Real → Bool)
    (conses : ∀ id car cdr id' car' cdr', compare (.cons id car cdr) (.cons id' car' cdr') =
      (same (.cons id car cdr) (.cons id' car' cdr') || (compare car car' && compare cdr cdr')))
    (reals : ∀ r s, compare (.real r) (.real s) = (same (.real r) (.real s) || valueEq r s))
    (complexes : ∀ id re im id' re' im', compare (.complex id re im) (.complex id' re' im') =
      (same (.complex id re im) (.complex id' re' im') || (part re re' && part im im')))
    (parts : ∀ r s : Real, r.In heap → s.In heap → r.Proper platform → s.Proper platform →
      (part r s = true ↔ r.value = s.value))
    (flat : ∀ a b : Obj, a.In heap → b.In heap → a.Proper platform → b.Proper platform →
      Mixed a b → (compare a b = true ↔ equalClass a = equalClass b)) :
    ∀ a b : Obj, a.In heap → b.In heap → a.Proper platform → b.Proper platform →
      (compare a b = true ↔ equalClass a = equalClass b)
  | .cons id car cdr, b, aIn, bIn, aProper, bProper => by
      cases b with
      | cons id' car' cdr' =>
          have cars := equalClass_of_descent compare part conses reals complexes parts flat
            car car' aIn.2.1 bIn.2.1 aProper.1 bProper.1
          have cdrs := equalClass_of_descent compare part conses reals complexes parts flat
            cdr cdr' aIn.2.2 bIn.2.2 aProper.2 bProper.2
          rw [conses, Bool.or_eq_true, same_iff aIn bIn, Bool.and_eq_true, cars, cdrs]
          simp only [equalClass, EqualClass.cons.injEq, Obj.cons.injEq]
          constructor
          · rintro (⟨-, rfl, rfl⟩ | same)
            · exact ⟨rfl, rfl⟩
            · exact same
          · exact .inr
      | _ => exact flat _ _ aIn bIn aProper bProper trivial
  | .real r, b, aIn, bIn, aProper, bProper => by
      cases b with
      | real s =>
          have values := keysEqualReal_iff aIn bIn aProper bProper
          rw [reals]
          simp only [equalClass, EqualClass.number.injEq]
          exact values
      | _ => exact flat _ _ aIn bIn aProper bProper trivial
  | .complex id re im, b, aIn, bIn, aProper, bProper => by
      cases b with
      | complex id' re' im' =>
          rw [complexes, Bool.or_eq_true, same_iff aIn bIn, Bool.and_eq_true,
            parts re re' aIn.2.1 bIn.2.1 aProper.1 bProper.1,
            parts im im' aIn.2.2 bIn.2.2 aProper.2 bProper.2]
          simp only [equalClass, EqualClass.complex.injEq, Obj.complex.injEq]
          constructor
          · rintro (⟨-, rfl, rfl⟩ | same)
            · exact ⟨rfl, rfl⟩
            · exact same
          · exact .inr
      | _ => exact flat _ _ aIn bIn aProper bProper trivial
  | .nil, _, aIn, bIn, aProper, bProper | .char _, _, aIn, bIn, aProper, bProper
  | .string _ _, _, aIn, bIn, aProper, bProper | .wideString _ _, _, aIn, bIn, aProper, bProper
  | .vector _ _ _ _, _, aIn, bIn, aProper, bProper | .bitVector _ _, _, aIn, bIn, aProper, bProper
  | .byteVector _ _, _, aIn, bIn, aProper, bProper
  | .pathname _ _ _ _ _ _ _, _, aIn, bIn, aProper, bProper
  | .struct _ _ _, _, aIn, bIn, aProper, bProper | .hashTable _, _, aIn, bIn, aProper, bProper
  | .other _, _, aIn, bIn, aProper, bProper =>
      flat _ _ aIn bIn aProper bProper trivial

theorem equal_iff (aIn : a.In heap) (bIn : b.In heap)
    (aProper : a.Proper platform) (bProper : b.Proper platform) :
    equal a b = true ↔ equalClass a = equalClass b := by
  apply equalClass_of_descent equal eqlReal ?_ ?_ ?_ ?_ ?_ a b aIn bIn aProper bProper
  · intro id car cdr id' car' cdr'
    rw [equal]
  · intro r s
    rw [equal]
  · intro id re im id' re' im'
    rw [equal]
  · intro r s rIn sIn rProper sProper
    exact eqlReal_iff rIn sIn rProper sProper
  · intro a b aIn bIn aProper bProper mixed
    exact equal_mixed aIn bIn aProper bProper mixed

theorem keysDeep_iff (aIn : a.In heap) (bIn : b.In heap)
    (aProper : a.Proper platform) (bProper : b.Proper platform) :
    keysDeep false a b = true ↔ equalClass a = equalClass b := by
  apply equalClass_of_descent (keysDeep false) keysEqualReal ?_ ?_ ?_ ?_ ?_ a b aIn bIn aProper
    bProper
  · intro id car cdr id' car' cdr'
    rw [keysDeep]
  · intro r s
    rw [keysDeep]
  · intro id re im id' re' im'
    rw [keysDeep]
  · intro r s rIn sIn rProper sProper
    exact keysEqualReal_iff rIn sIn rProper sProper
  · intro a b aIn bIn _ _ mixed
    exact keysDeep_mixed aIn bIn mixed

/-- The hash of an object that is hashed by identity under EQUAL. -/
def hashIdent (places : Places) : Ident → Word
  | .nil => 0
  | .char code => (Obj.char code).word places
  | .fixnum word => hashReal places (.fixnum word)
  | .heap id => hashMix (places id)

def hashClass (places : Places) : EqualClass → Word
  | .number value => hashReal places value
  | .complex re im => hashReal places re * 31 + hashReal places im
  | .codes codes => hashCodes false codes
  | .bits bits =>
      (bits.map fun bit => if bit then 1 else 0).foldl hashStep
        (BitVec.ofNat 32 bits.length * 2654435761)
  | .cons car _ => hashClass places car * 31 + 1
  | .object ident => hashIdent places ident

theorem hashDeep_class (places : Places) : ∀ a : Obj,
    (hashDeep places false a).setWidth 20 = (hashClass places (equalClass a)).setWidth 20
  | .real r => by
      rw [hashDeep, hashReal_value]
      rfl
  | .complex _ re im => by
      rw [hashDeep, hashComplex_value]
      rfl
  | .cons _ car _ => by
      rw [hashDeep, BitVec.setWidth_add _ _ (by decide), BitVec.setWidth_mul _ _ (by decide),
        hashDeep_class places car, ← BitVec.setWidth_mul _ _ (by decide),
        ← BitVec.setWidth_add _ _ (by decide)]
      rfl
  | .bitVector _ bits => by
      have counted : bits.active.length = bits.activeLength := by simp [BitVector.active]
      simp only [hashDeep, hashFlat, stringCodes, hashBitVector, equalClass, hashClass, counted]
  | .vector _ true _ _ | .vector _ false _ [] | .vector _ false _ (_ :: _) | .nil | .char _
  | .string _ _ | .wideString _ _ | .byteVector _ _ | .pathname _ _ _ _ _ _ _ | .struct _ _ _
  | .hashTable _ | .other _ => rfl

theorem keyed_equal (inHeap : ∀ a ∈ keys, a.In heap)
    (proper : ∀ a ∈ keys, a.Proper platform) : Keyed tables .equal keys := by
  apply Keyed.of_class equalClass
  · intro a aKey b bKey
    exact equal_iff (inHeap a aKey) (inHeap b bKey) (proper a aKey) (proper b bKey)
  · intro a aKey b bKey
    exact keysDeep_iff (inHeap a aKey) (inHeap b bKey) (proper a aKey) (proper b bKey)
  · intro places a _ b _ sameClass
    rw [hashObj, hashObj, hashDeep_class, sameClass, ← hashDeep_class]

/-- The runs on which a table behaves as a map: under EQ all, under EQL those without NaNs,
and under EQUAL and EQUALP those on whose keys comparison, test and hash agree.  Under EQUAL
they do on proper keys. -/
def Admissible (tables : Nat → Nat → Bool) (platform : Platform) (test : Test) (keys : Set Obj) :
    Prop :=
  match test with
  | .eq => True
  | .eql => ∃ heap, ∀ a ∈ keys, a.In heap ∧ a.ProperNumber platform
  | .equal => (∃ heap, ∀ a ∈ keys, a.In heap ∧ a.Proper platform) ∨ Keyed tables .equal keys
  | .equalp => Keyed tables .equalp keys

theorem Admissible.keyed (admissible : Admissible tables platform test keys) :
    Keyed tables test keys := by
  cases test with
  | eq => exact keyed_eq keys
  | eql =>
      obtain ⟨heap, proper⟩ := admissible
      exact keyed_eql (fun a key => (proper a key).1) (fun a key => (proper a key).2)
  | equal =>
      rcases admissible with ⟨heap, proper⟩ | keyed
      · exact keyed_equal (fun a key => (proper a key).1) (fun a key => (proper a key).2)
      · exact keyed
  | equalp => exact admissible

/-- In every run of operations, growths and compactions on admissible keys, a hash table
answers as the finite map modulo its test does; its entries are those of the map, none of
them twice, and the count is their number. -/
theorem table_refines_map (tables : Nat → Nat → Bool) (platform : Platform) (test : Test)
    (size : Option Nat) (places : Places) (commands : List (Command V))
    (admissible : Admissible tables platform test (keysOf commands)) :
    let final := run ⟨places, biMakeHashTable test size⟩ commands
    let map := mapRun (test.holds tables) [] commands
    final.2 = map.2 ∧ final.1.table.buckets.flatten.Perm map.1 ∧
      final.1.table.count = map.1.length ∧ Distinct (test.holds tables) map.1 := by
  intro final map
  have fresh : Represents tables test (keysOf commands)
      ⟨places, (biMakeHashTable test size : Table V)⟩ [] := biMakeHashTable_represents places size
  obtain ⟨represents, replies⟩ := fresh.run admissible.keyed commands (Set.Subset.refl _)
  exact ⟨replies, represents.contents, represents.counted, represents.distinct⟩

def quiet : Allocations :=
  ⟨none, none, none, false⟩

/-- An EQUAL table of strings, with two strings that are EQUAL and not EQ. -/
theorem table_refines_map_strings :
    let commands : List (Command Nat) :=
      [.setfGethash (.string 1 [97]) 7 quiet, .collect fun id => BitVec.ofNat 32 (64 * id),
        .gethash (.string 2 [97]) 0, .count]
    (run ⟨fun id => BitVec.ofNat 32 (8 * id), biMakeHashTable .equal none⟩ commands).2 =
      [.done, .done, .value 7 true, .count 1] := by
  intro commands
  have refined := table_refines_map (fun _ _ => false) .m68k .equal none
    (fun id => BitVec.ofNat 32 (8 * id)) commands (.inl ⟨fun id => .string id [97], ?_⟩)
  · rw [refined.1]
    decide +kernel
  · rintro a ⟨command, member, isKey⟩
    simp only [commands, List.mem_cons, List.not_mem_nil, or_false] at member
    rcases member with rfl | rfl | rfl | rfl
    · obtain rfl := Option.some.inj isKey
      exact ⟨fun id kind => by cases kind; rfl, trivial⟩
    · cases isKey
    · obtain rfl := Option.some.inj isKey
      exact ⟨fun id kind => by cases kind; rfl, trivial⟩
    · cases isKey

/-- Two EQUAL pathnames in an EQUAL table, and the integer one and the float one in an
EQUALP table. -/
theorem table_leaves_map :
    let pathname (id : Nat) : Obj := .pathname id .nil .nil (.string (id + 1) [97]) .nil .nil .nil
    let start (test : Test) : Store Nat :=
      ⟨fun id => BitVec.ofNat 32 (8 * id), biMakeHashTable test none⟩
    let paths : List (Command Nat) := [.setfGethash (pathname 1) 7 quiet, .gethash (pathname 3) 0]
    let numbers : List (Command Nat) :=
      [.setfGethash (.real (.fixnum 1)) 7 quiet, .gethash (.real (.single 1 0x3F800000)) 0]
    ((run (start .equal) paths).2 = [.done, .value 0 false] ∧
      (mapRun (Test.equal.holds fun _ _ => false) [] paths).2 = [.done, .value 7 true]) ∧
    (run (start .equalp) numbers).2 = [.done, .value 0 false] ∧
      (mapRun (Test.equalp.holds fun _ _ => false) [] numbers).2 = [.done, .value 7 true] := by
  decide +kernel

end ClAmiga.HashTable
