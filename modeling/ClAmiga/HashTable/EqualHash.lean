import ClAmiga.HashTable.Agreement

/-!
# Equal keys and their hashes

`hash_obj` looks at one part of a key: it goes down the cars of conses and, under EQUALP,
the first elements of vectors.  Keys that `keys_equal` identifies have the same hash when
these parts agree in two respects: both are strings or neither is, and their minus zeros
are the same in number modulo two.
-/

namespace ClAmiga.HashTable

open Number Bignum

variable {platform : Platform} {heap : Nat → Obj}

/-- `-0.0` -/
def Real.isMinusZero : Real → Bool
  | .single _ bits => decide (bits = 0x80000000)
  | .double _ bits => decide (bits = 0x8000000000000000)
  | _ => false

/-- The highest bit of a word for a minus zero. -/
def Real.zeroSign (r : Real) : Word :=
  if r.isMinusZero then 0x80000000 else 0

/-- The parts of a ratio are in canonical form. -/
def Real.Canonical (platform : Platform) : Real → Prop
  | .ratio _ num den => num.Canonical platform ∧ den.Canonical platform
  | _ => True

theorem hashReal_zero (places : Places) (id : Nat) :
    (∀ bits : BitVec 32, Float.isZero .single bits.toNat = true →
      hashReal places (.single id bits) + (Real.single id bits).zeroSign = 0) ∧
    ∀ bits : BitVec 64, Float.isZero .double bits.toNat = true →
      hashReal places (.double id bits) + (Real.double id bits).zeroSign = 0 := by
  constructor
  · intro bits zero
    have low := isZero_low_bits.1 zero
    have signs : bits = 0 ∨ bits = 0x80000000 := by bv_omega
    rcases signs with rfl | rfl <;> simp [hashReal, Real.zeroSign, Real.isMinusZero]
  · intro bits zero
    have low := isZero_low_bits.2 zero
    have signs : bits = 0 ∨ bits = 0x8000000000000000 := by bv_omega
    rcases signs with rfl | rfl <;> simp [hashReal, Real.zeroSign, Real.isMinusZero]

theorem hashReal_of_valueEq (places : Places) {a b : Real} (aCanonical : a.Canonical platform)
    (bCanonical : b.Canonical platform) (equal : valueEq a b = true) :
    hashReal places a + a.zeroSign = hashReal places b + b.zeroSign := by
  cases a with
  | fixnum word => simp [valueEq] at equal
  | bignum id sign limbs =>
      cases b with
      | bignum id' sign' limbs' =>
          obtain ⟨rfl, rfl⟩ := of_decide_eq_true equal
          rfl
      | _ => simp [valueEq] at equal
  | ratio id num den =>
      cases b with
      | ratio id' num' den' =>
          simp only [valueEq, clRatioEqual, Bool.and_eq_true, beq_iff_eq] at equal
          obtain rfl := (clArithCompare_eq_zero_iff aCanonical.1 bCanonical.1).mp equal.1
          obtain rfl := (clArithCompare_eq_zero_iff aCanonical.2 bCanonical.2).mp equal.2
          rfl
      | _ => simp [valueEq] at equal
  | single id bits =>
      cases b with
      | single id' bits' =>
          simp only [valueEq, floatEq, Bool.and_eq_true, Bool.or_eq_true, decide_eq_true_eq]
            at equal
          rcases equal.2 with same | ⟨zero, zero'⟩
          · obtain rfl := BitVec.eq_of_toNat_eq same
            rfl
          · rw [(hashReal_zero places id).1 bits zero, (hashReal_zero places id').1 bits' zero']
      | _ => simp [valueEq] at equal
  | double id bits =>
      cases b with
      | double id' bits' =>
          simp only [valueEq, floatEq, Bool.and_eq_true, Bool.or_eq_true, decide_eq_true_eq]
            at equal
          rcases equal.2 with same | ⟨zero, zero'⟩
          · obtain rfl := BitVec.eq_of_toNat_eq same
            rfl
          · rw [(hashReal_zero places id).2 bits zero, (hashReal_zero places id').2 bits' zero']
      | _ => simp [valueEq] at equal

theorem hashReal_of_keysEqual (places : Places) {a b : Real} (aIn : a.In heap) (bIn : b.In heap)
    (aCanonical : a.Canonical platform) (bCanonical : b.Canonical platform)
    (equal : keysEqualReal a b = true) :
    hashReal places a + a.zeroSign = hashReal places b + b.zeroSign := by
  rw [keysEqualReal, Bool.or_eq_true, decide_eq_true_eq] at equal
  rcases equal with same | equal
  · rw [aIn.inj bIn same]
  · exact hashReal_of_valueEq places aCanonical bCanonical equal

theorem eq_iff_of_signs {h h' : Word} {z z' : Bool}
    (agree : h + (if z then 0x80000000 else 0) = h' + (if z' then 0x80000000 else 0)) :
    h = h' ↔ z = z' := by
  constructor
  · rintro rfl
    have same := add_left_cancel agree
    cases z <;> cases z' <;> first | rfl | exact absurd same (by decide)
  · rintro rfl
    exact add_right_cancel agree

theorem complex_signs {re im re' im' : Word} {z w z' w' : Bool}
    (first : re + (if z then 0x80000000 else 0) = re' + (if z' then 0x80000000 else 0))
    (second : im + (if w then 0x80000000 else 0) = im' + (if w' then 0x80000000 else 0)) :
    re * 31 + im + (if z ^^ w then 0x80000000 else 0) =
      re' * 31 + im' + (if z' ^^ w' then 0x80000000 else 0) := by
  have spread : ∀ (h g : Word) (p q : Bool),
      h * 31 + g + (if p ^^ q then 0x80000000 else 0) =
        (h + (if p then 0x80000000 else 0)) * 31 + (g + (if q then 0x80000000 else 0)) := by
    intro h g p q
    have sign : (if p ^^ q then 0x80000000 else 0 : Word) =
        (if p then 0x80000000 else 0) * 31 + (if q then 0x80000000 else 0) := by
      cases p <;> cases q <;> rfl
    rw [sign]
    ring
  rw [spread, spread, first, second]

/-- A key in a heap, down the parts that are hashed: an identity stands for one object, and
ratios are in canonical form. -/
def Obj.Stored (heap : Nat → Obj) (platform : Platform) : Obj → Prop
  | .real r => r.In heap ∧ r.Canonical platform
  | .complex id re im =>
      heap id = .complex id re im ∧ (re.In heap ∧ re.Canonical platform) ∧
        im.In heap ∧ im.Canonical platform
  | .cons id car cdr => heap id = .cons id car cdr ∧ car.Stored heap platform
  | .vector id isString dims (first :: rest) =>
      heap id = .vector id isString dims (first :: rest) ∧ first.Stored heap platform
  | a => ∀ id, a.ident = .heap id → heap id = a

theorem Obj.Stored.at_ident {a : Obj} (stored : a.Stored heap platform) {id : Nat}
    (kind : a.ident = .heap id) : heap id = a := by
  cases a with
  | real r => exact stored.1 id kind
  | complex id' re im =>
      obtain rfl := Ident.heap.inj kind
      exact stored.1
  | cons id' car cdr =>
      obtain rfl := Ident.heap.inj kind
      exact stored.1
  | vector id' isString dims data =>
      cases data with
      | nil => exact stored id kind
      | cons first rest =>
          obtain rfl := Ident.heap.inj kind
          exact stored.1
  | _ => exact stored id kind

theorem Obj.Stored.inj {a b : Obj} (aStored : a.Stored heap platform)
    (bStored : b.Stored heap platform) (identical : same a b = true) : a = b := by
  have idents := of_decide_eq_true identical
  cases kind : a.ident with
  | heap id => rw [← aStored.at_ident kind, bStored.at_ident (idents ▸ kind)]
  | nil =>
      have right : b = .nil := Obj.immediate_of_ident.1 (idents ▸ kind)
      exact (Obj.immediate_of_ident.1 kind).trans right.symm
  | char code =>
      have right : b = .char code := Obj.immediate_of_ident.2.1 code (idents ▸ kind)
      exact (Obj.immediate_of_ident.2.1 code kind).trans right.symm
  | fixnum word =>
      have right : b = .real (.fixnum word) := Obj.immediate_of_ident.2.2 word (idents ▸ kind)
      exact (Obj.immediate_of_ident.2.2 word kind).trans right.symm

/-- The parts of two keys that `hash_obj` comes to under EQUAL and, with `p`, under
EQUALP. -/
def hashedPair (p : Bool) : Obj → Obj → Obj × Obj
  | .cons _ car _, .cons _ car' _ => hashedPair p car car'
  | .vector id false dims (first :: rest), .vector id' false dims' (first' :: rest') =>
      if p then hashedPair p first first'
      else (.vector id false dims (first :: rest), .vector id' false dims' (first' :: rest'))
  | a, b => (a, b)

def hashedParts : Test → Obj → Obj → Obj × Obj
  | .eq, a, b | .eql, a, b => (a, b)
  | .equal, a, b => hashedPair false a b
  | .equalp, a, b => hashedPair true a b

def Obj.isString (a : Obj) : Bool :=
  (stringCodes 0 a).isSome

/-- The number of minus zeros modulo two. -/
def Obj.zeroParity : Obj → Bool
  | .real r => r.isMinusZero
  | .complex _ re im => re.isMinusZero ^^ im.isMinusZero
  | _ => false

def Obj.hasElements (a : Obj) : Bool :=
  match equalpXarr a with
  | some (_ :: _) => true
  | _ => false

def PartsAgree (parts : Obj × Obj) : Prop :=
  parts.1.isString = parts.2.isString ∧ parts.1.zeroParity = parts.2.zeroParity

def PartsMixed (parts : Obj × Obj) : Prop :=
  parts.1.isString ≠ parts.2.isString ∧ parts.1.hasElements = true

/-- Two hashes agree when the parts do, and otherwise do not, except by a collision of the
hash of a string with the hash of an array. -/
def Follows (parts : Obj × Obj) (h h' : Word) : Prop :=
  (PartsAgree parts → h = h') ∧ (h = h' → PartsAgree parts ∨ PartsMixed parts)

theorem Follows.of_iff {parts parts' : Obj × Obj} {h h' g g' : Word} (follows : Follows parts h h')
    (same : parts = parts') (hashes : h = h' ↔ g = g') : Follows parts' g g' := by
  subst same
  exact ⟨fun agree => hashes.mp (follows.1 agree), fun equal => follows.2 (hashes.mpr equal)⟩

theorem Follows.agree {parts : Obj × Obj} {h h' : Word} (agree : PartsAgree parts)
    (hashes : h = h') : Follows parts h h' :=
  ⟨fun _ => hashes, fun _ => .inl agree⟩

theorem partsAgree_self (p : Bool) : ∀ a : Obj, PartsAgree (hashedPair p a a)
  | .cons _ car _ => partsAgree_self p car
  | .vector id false dims (first :: rest) => by
      rw [hashedPair]
      cases p with
      | true => exact partsAgree_self true first
      | false => exact ⟨rfl, rfl⟩
  | .vector _ true _ _ | .vector _ false _ [] => ⟨rfl, rfl⟩
  | .nil | .char _ | .real _ | .complex _ _ _ | .string _ _ | .wideString _ _ | .bitVector _ _
  | .byteVector _ _ | .pathname _ _ _ _ _ _ _ | .struct _ _ _ | .hashTable _ | .other _ =>
      ⟨rfl, rfl⟩

theorem follows_real (places : Places) {x y : Real} (xStored : (Obj.real x).Stored heap platform)
    (yStored : (Obj.real y).Stored heap platform) (equal : keysEqualReal x y = true) :
    Follows (.real x, .real y) (hashReal places x) (hashReal places y) := by
  have signs := hashReal_of_keysEqual places xStored.1 yStored.1 xStored.2 yStored.2 equal
  have hashes := eq_iff_of_signs signs
  exact ⟨fun agree => hashes.mpr agree.2, fun same => .inl ⟨rfl, hashes.mp same⟩⟩

theorem follows_complex (places : Places) {id id' : Nat} {re im re' im' : Real}
    (xStored : (Obj.complex id re im).Stored heap platform)
    (yStored : (Obj.complex id' re' im').Stored heap platform)
    (equal : keysEqualReal re re' = true ∧ keysEqualReal im im' = true) :
    Follows (.complex id re im, .complex id' re' im') (hashReal places re * 31 + hashReal places im)
      (hashReal places re' * 31 + hashReal places im') := by
  obtain ⟨-, ⟨reIn, reCanonical⟩, imIn, imCanonical⟩ := xStored
  obtain ⟨-, ⟨reIn', reCanonical'⟩, imIn', imCanonical'⟩ := yStored
  have first := hashReal_of_keysEqual places reIn reIn' reCanonical reCanonical' equal.1
  have second := hashReal_of_keysEqual places imIn imIn' imCanonical imCanonical' equal.2
  have hashes := eq_iff_of_signs (complex_signs first second)
  exact ⟨fun agree => hashes.mpr agree.2, fun same => .inl ⟨rfl, hashes.mp same⟩⟩

theorem hashDeep_codes (places : Places) (p : Bool) {a : Obj} {codes : List Int}
    (string : stringCodes 0 a = some codes) : hashDeep places p a = hashCodes p codes := by
  cases a with
  | string id data | wideString id data => simp [hashDeep, hashFlat, string]
  | vector id isString dims data =>
      cases isString with
      | true => simp [hashDeep, hashFlat, string]
      | false => simp [stringCodes] at string
  | _ => simp [stringCodes] at string

theorem hashDeep_xarr (places : Places) {a : Obj} {elements : List Obj}
    (noString : stringCodes 0 a = none) (array : equalpXarr a = some elements) :
    hashDeep places true a =
      hashXarr elements.length (elements.head?.map (hashDeep places true)) := by
  cases a with
  | vector id isString dims data =>
      cases isString with
      | true => simp [stringCodes] at noString
      | false =>
          obtain rfl := Option.some.inj array
          cases data <;> simp [hashDeep]
  | bitVector id bits =>
      obtain rfl := Option.some.inj array
      have active : bits.active.length = bits.activeLength := by simp [BitVector.active]
      cases listed : bits.active <;>
        simp [hashDeep, hashFlat, stringCodes, listed, ← active, hashEql, bitObj]
  | byteVector id data =>
      obtain rfl := Option.some.inj array
      cases data <;> simp [hashDeep, hashFlat, stringCodes]
  | _ => simp [equalpXarr, packedElements] at array

theorem hashXarr_inj {length : Nat} {h h' : Word} :
    hashXarr length (some h) = hashXarr length (some h') ↔ h = h' := by
  simp [hashXarr]

theorem hash_of_empty (p : Bool) : hashCodes p [] ≠ hashXarr 0 none := by
  cases p <;> decide

theorem allPairs_length {α β : Type} {holds : α → β → Bool} : ∀ {x : List α} {y : List β},
    allPairs holds x y = true → x.length = y.length
  | [], [], _ => rfl
  | _ :: xs, _ :: ys, all => by
      rw [allPairs, Bool.and_eq_true] at all
      rw [List.length_cons, List.length_cons, allPairs_length all.2]

theorem keysDeepAll_length {p : Bool} : ∀ {x y : List Obj},
    keysDeepAll p x y = true → x.length = y.length
  | [], [], _ => rfl
  | _ :: xs, _ :: ys, all => by
      rw [keysDeepAll, Bool.and_eq_true] at all
      rw [List.length_cons, List.length_cons, keysDeepAll_length all.2]

theorem zeroParity_of_array {a : Obj} {elements : List Obj} (array : equalpXarr a = some elements) :
    a.zeroParity = false := by
  cases a with
  | real r | complex id re im => simp [equalpXarr, packedElements] at array
  | _ => rfl

theorem zeroParity_of_string {a : Obj} {codes : List Int} (string : stringCodes 0 a = some codes) :
    a.zeroParity = false := by
  cases a with
  | real r | complex id re im => simp [stringCodes] at string
  | _ => rfl

theorem codes_of_empty {a : Obj} {codes : List Int} (array : equalpXarr a = some [])
    (string : stringCodes 0 a = some codes) : codes = [] := by
  cases a with
  | vector id isString dims data =>
      obtain rfl := Option.some.inj array
      cases isString with
      | true => exact (Option.some.inj string).symm
      | false => simp [stringCodes] at string
  | _ => simp [stringCodes, equalpXarr, packedElements] at string array

theorem follows_mixed (places : Places) {a b : Obj} {x y : List Obj}
    (aArray : equalpXarr a = some x) (bArray : equalpXarr b = some y)
    (lengths : x.length = y.length) (differ : a.isString ≠ b.isString) :
    Follows (a, b) (hashDeep places true a) (hashDeep places true b) := by
  refine ⟨fun agree => absurd agree.1 differ, fun hashes => .inr ⟨differ, ?_⟩⟩
  cases x with
  | cons first rest => simp [Obj.hasElements, aArray]
  | nil =>
      obtain rfl := List.eq_nil_of_length_eq_zero lengths.symm
      exfalso
      cases aCodes : stringCodes 0 a with
      | some codes =>
          obtain rfl := codes_of_empty aArray aCodes
          cases bCodes : stringCodes 0 b with
          | some codes' => simp [Obj.isString, aCodes, bCodes] at differ
          | none =>
              rw [hashDeep_codes places true aCodes, hashDeep_xarr places bCodes bArray] at hashes
              exact hash_of_empty true hashes
      | none =>
          cases bCodes : stringCodes 0 b with
          | some codes' =>
              obtain rfl := codes_of_empty bArray bCodes
              rw [hashDeep_codes places true bCodes, hashDeep_xarr places aCodes aArray] at hashes
              exact hash_of_empty true hashes.symm
          | none => simp [Obj.isString, aCodes, bCodes] at differ

theorem same_of_packed {a : Obj} {elements : List Obj} (packed : packedElements a = some elements)
    {x y : Obj} (member : x ∈ elements) (identical : same x y = true ∨ same y x = true) :
    y = x := by
  obtain ⟨word, rfl⟩ : ∃ word, x = .real (.fixnum word) := by
    cases a with
    | bitVector id bits =>
        obtain rfl := Option.some.inj packed
        obtain ⟨bit, -, rfl⟩ := List.mem_map.mp member
        exact ⟨_, rfl⟩
    | byteVector id data =>
        obtain rfl := Option.some.inj packed
        obtain ⟨word, -, rfl⟩ := List.mem_map.mp member
        exact ⟨word, rfl⟩
    | _ => simp [packedElements] at packed
  apply Obj.immediate_of_ident.2.2 word
  rcases identical with left | right
  · exact (of_decide_eq_true left).symm
  · exact of_decide_eq_true right

theorem follows_arrays (places : Places) {a b : Obj} {x y : List Obj}
    (aArray : equalpXarr a = some x) (bArray : equalpXarr b = some y)
    (aString : stringCodes 0 a = none) (bString : stringCodes 0 b = none)
    (lengths : x.length = y.length)
    (heads : ∀ first rest first' rest', x = first :: rest → y = first' :: rest' →
      first = first') :
    Follows (a, b) (hashDeep places true a) (hashDeep places true b) := by
  refine Follows.agree ⟨?_, ?_⟩ ?_
  · simp [Obj.isString, aString, bString]
  · rw [zeroParity_of_array aArray, zeroParity_of_array bArray]
  · rw [hashDeep_xarr places aString aArray, hashDeep_xarr places bString bArray, lengths]
    cases x with
    | nil =>
        obtain rfl := List.eq_nil_of_length_eq_zero lengths.symm
        rfl
    | cons first rest =>
        have positive : 0 < y.length := by
          rw [← lengths]
          exact Nat.succ_pos _
        obtain ⟨first', rest', rfl⟩ := List.exists_cons_of_length_pos positive
        rw [heads first rest first' rest' rfl rfl]
        rfl

theorem hashCodes_downcase {x y : List Int} (equal : x.map downcase = y.map downcase) :
    hashCodes true x = hashCodes true y := by
  have folded (codes : List Int) : hashCodes true codes =
      ((codes.map downcase).map fun code => (BitVec.ofInt 8 code).zeroExtend 32).foldl
        hashStep 0 := by
    rw [hashCodes, List.map_map]
    rfl
  rw [folded, folded, equal]

theorem packed_or_vector {a : Obj} {elements : List Obj} (array : equalpXarr a = some elements) :
    packedElements a = some elements ∨
      ∃ id isString dims, a = .vector id isString dims elements := by
  cases a with
  | vector id isString dims data =>
      obtain rfl := Option.some.inj array
      exact .inr ⟨id, isString, dims, rfl⟩
  | _ => exact .inl array

theorem follows_flat (places : Places) (p : Bool) {a b : Obj} (equal : keysFlat p a b = true)
    (strings : ∀ {id isString dims x id' isString' dims' y},
      a = .vector id isString dims x → b = .vector id' isString' dims' y → isString = true) :
    Follows (a, b) (hashDeep places p a) (hashDeep places p b) := by
  unfold keysFlat at equal
  split at equal
  case h_1 x y aCodes bCodes =>
    refine Follows.agree ⟨?_, ?_⟩ ?_
    · simp [Obj.isString, aCodes, bCodes]
    · rw [zeroParity_of_string aCodes, zeroParity_of_string bCodes]
    · rw [hashDeep_codes places p aCodes, hashDeep_codes places p bCodes]
      cases p with
      | true => exact hashCodes_downcase (of_decide_eq_true equal)
      | false => rw [show x = y from of_decide_eq_true equal]
  case h_2 notStrings =>
    split at equal
    case h_1 id x id' y =>
      have actives : x.active = y.active := of_decide_eq_true equal
      have lengths : x.activeLength = y.activeLength := by
        have := congrArg List.length actives
        simpa [BitVector.active] using this
      refine Follows.agree ⟨rfl, rfl⟩ ?_
      cases p <;> simp [hashDeep, hashFlat, stringCodes, hashBitVector, actives, lengths]
    case h_2 =>
      split at equal
      case h_2 => cases equal
      case h_1 x y aArray bArray =>
        rw [Bool.and_eq_true] at equal
        obtain ⟨rfl, all⟩ := equal
        have lengths := allPairs_length all
        cases aCodes : stringCodes 0 a with
        | some codes =>
            apply follows_mixed places aArray bArray lengths
            cases bCodes : stringCodes 0 b with
            | some codes' => exact absurd bCodes (notStrings codes codes' aCodes)
            | none => simp [Obj.isString, aCodes, bCodes]
        | none =>
            cases bCodes : stringCodes 0 b with
            | some codes' =>
                apply follows_mixed places aArray bArray lengths
                simp [Obj.isString, aCodes, bCodes]
            | none =>
                apply follows_arrays places aArray bArray aCodes bCodes lengths
                rintro first rest first' rest' rfl rfl
                rw [allPairs, Bool.and_eq_true] at all
                rcases packed_or_vector aArray with aPacked | ⟨id, isString, dims, rfl⟩
                · exact (same_of_packed aPacked List.mem_cons_self (.inl all.1)).symm
                · rcases packed_or_vector bArray with bPacked | ⟨id', isString', dims', rfl⟩
                  · exact same_of_packed bPacked List.mem_cons_self (.inr all.1)
                  · obtain rfl := strings rfl rfl
                    simp [stringCodes] at aCodes

theorem hashCharCi_downcase {c d : Nat} (folded : downcase c = downcase d) :
    hashCharCi c = hashCharCi d := by
  have cases_ : c = d ∨ (c ≤ 90 ∧ 65 ≤ c ∧ d = c + 32) ∨ (d ≤ 90 ∧ 65 ≤ d ∧ c = d + 32) := by
    unfold downcase at folded
    split at folded <;> split at folded <;> omega
  have lower : ∀ code, code ≤ 90 → 65 ≤ code → hashCharCi code = hashCharCi (code + 32) := by
    intro code high low
    interval_cases code <;> rfl
  rcases cases_ with rfl | ⟨high, low, rfl⟩ | ⟨high, low, rfl⟩
  · rfl
  · exact lower c high low
  · exact (lower d high low).symm

theorem cons_hash_inj {h h' : Word} : h = h' ↔ h * 31 + 1 = h' * 31 + 1 := by
  constructor
  · rintro rfl
    rfl
  · intro same
    have cancelled : ∀ word : Word, word * 31 * 0xbdef7bdf = word := fun word => by
      rw [mul_assoc, show (31 : Word) * 0xbdef7bdf = 1 by decide, mul_one]
    rw [← cancelled h, add_right_cancel same, cancelled]

theorem follows_deep (places : Places) (p : Bool) {a b : Obj} (aStored : a.Stored heap platform)
    (bStored : b.Stored heap platform) (equal : keysDeep p a b = true) :
    Follows (hashedPair p a b) (hashDeep places p a) (hashDeep places p b) := by
  induction bound : sizeOf a using Nat.strong_induction_on generalizing a b with
  | _ size induction =>
    subst bound
    rw [keysDeep.eq_def, Bool.or_eq_true] at equal
    rcases equal with identical | equal
    · obtain rfl := aStored.inj bStored identical
      exact Follows.agree (partsAgree_self p a) rfl
    · split at equal
      case h_1 c d =>
        rw [Bool.and_eq_true, decide_eq_true_eq] at equal
        obtain ⟨rfl, folded⟩ := equal
        exact Follows.agree ⟨rfl, rfl⟩ (hashCharCi_downcase folded)
      case h_2 x y =>
        have equal' : keysEqualReal x y = true := by simp [keysEqualReal, equal]
        exact follows_real places aStored bStored equal'
      case h_3 id re im id' re' im' =>
        rw [Bool.and_eq_true] at equal
        exact follows_complex places aStored bStored equal
      case h_4 id car cdr id' car' cdr' =>
        rw [Bool.and_eq_true] at equal
        have cars := induction (sizeOf car) (by simp; omega) aStored.2 bStored.2 equal.1 rfl
        exact cars.of_iff rfl cons_hash_inj
      case h_5 id isString dims x id' isString' dims' y =>
        cases isString with
        | true =>
            have plain : hashedPair p (.vector id true dims x) (.vector id' isString' dims' y) =
                (.vector id true dims x, .vector id' isString' dims' y) := by
              simp [hashedPair]
            rw [plain]
            cases isString' with
            | true => exact follows_flat places p equal fun left _ => by cases left; rfl
            | false =>
                simp only [Bool.and_false, Bool.false_eq_true, if_false, Bool.and_eq_true] at equal
                obtain ⟨rfl, all⟩ := equal
                exact follows_mixed places rfl rfl (keysDeepAll_length all) (by
                  simp [Obj.isString, stringCodes])
        | false =>
            simp only [Bool.false_and, Bool.false_eq_true, if_false, Bool.and_eq_true] at equal
            obtain ⟨rfl, all⟩ := equal
            have lengths := keysDeepAll_length all
            cases isString' with
            | true =>
                have plain : hashedPair true (.vector id false dims x) (.vector id' true dims' y) =
                    (.vector id false dims x, .vector id' true dims' y) := by
                  simp [hashedPair]
                rw [plain]
                exact follows_mixed places rfl rfl lengths (by simp [Obj.isString, stringCodes])
            | false =>
                cases x with
                | nil =>
                    obtain rfl := List.eq_nil_of_length_eq_zero lengths.symm
                    exact follows_arrays places rfl rfl rfl rfl rfl (by simp)
                | cons first rest =>
                    cases y with
                    | nil => simp at lengths
                    | cons first' rest' =>
                        rw [keysDeepAll, Bool.and_eq_true] at all
                        have firsts := induction (sizeOf first) (by simp; omega) aStored.2
                          bStored.2 all.1 rfl
                        refine firsts.of_iff (by simp [hashedPair]) ?_
                        rw [List.length_cons, List.length_cons, Nat.add_right_cancel_iff]
                          at lengths
                        simp only [hashDeep, if_true, lengths, hashXarr_inj]
      case h_6 notChars notReals notComplexes notConses notVectors =>
        have plain : hashedPair p a b = (a, b) := by
          unfold hashedPair
          split
          · exact absurd rfl (notConses _ _ _ _ _ _ rfl)
          · exact absurd rfl (notVectors _ _ _ _ _ _ _ _ rfl)
          · rfl
        rw [plain]
        exact follows_flat places p equal fun left right =>
          (notVectors _ _ _ _ _ _ _ _ left right).elim

theorem follows_eql (places : Places) {a b : Obj} (aStored : a.Stored heap platform)
    (bStored : b.Stored heap platform) (equal : keysEql a b = true) :
    Follows (a, b) (hashEql places a) (hashEql places b) := by
  unfold keysEql at equal
  rw [Bool.or_eq_true] at equal
  rcases equal with identical | equal
  · obtain rfl := aStored.inj bStored identical
    exact Follows.agree ⟨rfl, rfl⟩ rfl
  · split at equal
    case h_1 x y =>
      have equal' : keysEqualReal x y = true := by simp [keysEqualReal, equal]
      exact follows_real places aStored bStored equal'
    case h_2 id re im id' re' im' =>
      rw [Bool.and_eq_true] at equal
      exact follows_complex places aStored bStored equal
    case h_3 => cases equal

/-- Keys that the table identifies have the same hash exactly when the parts that are
hashed agree.  Where one part is a string and the other an array that is no string, both
with elements, the hashes can only agree by a collision. -/
theorem hash_of_equal_keys (heap : Nat → Obj) (platform : Platform) (places : Places)
    (test : Test) (a b : Obj) (aStored : a.Stored heap platform)
    (bStored : b.Stored heap platform) (equal : keysEqual test a b = true) :
    (PartsAgree (hashedParts test a b) → hashObj places test a = hashObj places test b) ∧
      (hashObj places test a = hashObj places test b →
        PartsAgree (hashedParts test a b) ∨ PartsMixed (hashedParts test a b)) := by
  cases test with
  | eq =>
      obtain rfl := aStored.inj bStored equal
      exact Follows.agree ⟨rfl, rfl⟩ rfl
  | eql => exact follows_eql places aStored bStored equal
  | equal => exact follows_deep places false aStored bStored equal
  | equalp => exact follows_deep places true aStored bStored equal

/-- The keys `("a" . 1)` with a base string and with a wide one. -/
theorem hash_of_equal_keys_strings :
    hashObj (fun id => BitVec.ofNat 32 (8 * id)) .equal
        (.cons 1 (.string 2 [97]) (.real (.fixnum 1))) =
      hashObj (fun id => BitVec.ofNat 32 (8 * id)) .equal
        (.cons 3 (.wideString 4 [97]) (.real (.fixnum 1))) := by
  let heap : Nat → Obj := fun id => match id with
    | 1 => .cons 1 (.string 2 [97]) (.real (.fixnum 1))
    | 2 => .string 2 [97]
    | 3 => .cons 3 (.wideString 4 [97]) (.real (.fixnum 1))
    | _ => .wideString 4 [97]
  have base : (Obj.cons 1 (.string 2 [97]) (.real (.fixnum 1))).Stored heap .m68k := by
    refine ⟨rfl, ?_⟩
    rintro id ⟨⟩
    rfl
  have wide : (Obj.cons 3 (.wideString 4 [97]) (.real (.fixnum 1))).Stored heap .m68k := by
    refine ⟨rfl, ?_⟩
    rintro id ⟨⟩
    rfl
  exact (hash_of_equal_keys heap .m68k _ .equal _ _ base wide (by decide)).1 ⟨rfl, rfl⟩

/-- The two zeros under EQL, and under EQUALP a character vector with a fill pointer and a
general vector that holds the same character. -/
theorem equal_keys_hash_apart :
    let places : Places := fun id => BitVec.ofNat 32 (8 * id)
    let zero : Obj := .real (.single 1 0)
    let minusZero : Obj := .real (.single 2 0x80000000)
    let string : Obj := .vector 3 true [] [.char 97]
    let vector : Obj := .vector 4 false [] [.char 97]
    (keysEqual .eql zero minusZero = true ∧
      hashObj places .eql zero ≠ hashObj places .eql minusZero) ∧
    keysEqual .equalp string vector = true ∧
      hashObj places .equalp string ≠ hashObj places .equalp vector := by
  decide +kernel

end ClAmiga.HashTable
