import ClAmiga.BindTab.Values

/-!
# The layout of a table

`Stands` relates a record of the packer to the row it is read back as.  A blob laid
out from sorted records that stand for rows passes the validation, and its entries
are these rows.
-/

namespace ClAmiga.BindTab

open Wire Number Bignum Radix

theorem testBit_packRegs (regs : List Nat) (small : ∀ reg ∈ regs, reg < 16) (j : Nat) :
    (packRegs regs).testBit j = (regs.getD (j / 4) 0).testBit (j % 4) := by
  have fold : ∀ (regs : List Nat) (start acc : Nat), (∀ reg ∈ regs, reg < 16) →
      ((regs.zipIdx start).foldl (fun nibbles reg => nibbles ||| (reg.1 <<< (4 * reg.2)))
        acc).testBit j =
        (acc.testBit j ||
          (decide (start ≤ j / 4) && (regs.getD (j / 4 - start) 0).testBit (j % 4))) := by
    intro regs
    induction regs with
    | nil =>
        intro start acc small
        simp
    | cons reg regs induction =>
        intro start acc small
        have regSmall : reg < 2 ^ 4 := small reg (by simp)
        have restSmall : ∀ reg ∈ regs, reg < 16 := by
          intro reg member
          exact small reg (by simp [member])
        rw [List.zipIdx_cons, List.foldl_cons, induction (start + 1) _ restSmall,
          Nat.testBit_or, Nat.testBit_shiftLeft, Bool.or_assoc]
        congr 1
        rcases lt_trichotomy (j / 4) start with before | here | after
        · have notYet : ¬ 4 * start ≤ j := by omega
          have notHere : ¬ start ≤ j / 4 := by omega
          have notAfter : ¬ start + 1 ≤ j / 4 := by omega
          simp [notYet, notHere, notAfter]
        · have reached : 4 * start ≤ j := by omega
          have offset : j - 4 * start = j % 4 := by omega
          simp [reached, offset, here]
        · have beyond : reg.testBit (j - 4 * start) = false :=
            Nat.testBit_lt_two_pow (regSmall.trans_le (Nat.pow_le_pow_right (by omega) (by omega)))
          have reached : start + 1 ≤ j / 4 := after
          have passed : start ≤ j / 4 := by omega
          obtain ⟨gap, distance⟩ : ∃ gap, j / 4 - start = gap + 1 := ⟨j / 4 - start - 1, by omega⟩
          have nearer : j / 4 - (start + 1) = gap := by omega
          simp [beyond, reached, passed, distance, nearer]
  simpa [packRegs] using fold regs 0 0 small

theorem testBit_and_15 (n k : Nat) : (n &&& 0xF).testBit k = (decide (k < 4) && n.testBit k) := by
  rw [Nat.testBit_and, show (0xF : Nat) = 2 ^ 4 - 1 by rfl, Nat.testBit_two_pow_sub_one,
    Bool.and_comm]

variable {regs : List Nat} {wide : List UInt8} {r : Rec} {v : View}

theorem regNibble_packRegs (small : ∀ reg ∈ regs, reg < 16) (res : Nat) {i : Nat} (inside : i < 7) :
    regNibble (packRegs regs ||| (res <<< 28)) i = regs.getD i 0 := by
  have getSmall : regs.getD i 0 < 2 ^ 4 := by
    by_cases within : i < regs.length
    · rw [List.getD_eq_getElem _ _ within]
      exact small _ (List.getElem_mem within)
    · rw [List.getD_eq_default _ _ (by omega)]
      decide
  apply Nat.eq_of_testBit_eq
  intro k
  rw [regNibble, testBit_and_15, Nat.testBit_shiftRight, Nat.testBit_or, Nat.testBit_shiftLeft,
    testBit_packRegs regs small]
  by_cases low : k < 4
  · have place : (4 * i + k) / 4 = i := by omega
    have bit : (4 * i + k) % 4 = k := by omega
    have below : ¬ 28 ≤ 4 * i + k := by omega
    simp [low, place, bit, below]
  · have high : (regs.getD i 0).testBit k = false :=
      Nat.testBit_lt_two_pow (getSmall.trans_le (Nat.pow_le_pow_right (by omega) (by omega)))
    simp only [low, decide_false, Bool.false_and, high]

theorem resKind_packRegs (small : ∀ reg ∈ regs, reg < 16)
    (few : regs.length ≤ 7) {res : Nat} (bound : res < 16) :
    resKind (packRegs regs ||| (res <<< 28)) = res := by
  apply Nat.eq_of_testBit_eq
  intro k
  rw [resKind, testBit_and_15, Nat.testBit_shiftRight, Nat.testBit_or, Nat.testBit_shiftLeft,
    testBit_packRegs regs small, List.getD_eq_default _ _ (by omega)]
  by_cases low : k < 4
  · simp [low]
  · have high : res.testBit k = false :=
      Nat.testBit_lt_two_pow
        (lt_of_lt_of_le (show res < 2 ^ 4 by omega) (Nat.pow_le_pow_right (by omega) (by omega)))
    simp [low, high]

theorem packRegs_or_lt (small : ∀ reg ∈ regs, reg < 16)
    (few : regs.length ≤ 7) {res : Nat} (bound : res < 16) :
    packRegs regs ||| (res <<< 28) < 2 ^ 32 := by
  apply Nat.lt_pow_two_of_testBit
  intro j large
  have high : res.testBit (j - 28) = false :=
    Nat.testBit_lt_two_pow
      (lt_of_lt_of_le (show res < 2 ^ 4 by omega) (Nat.pow_le_pow_right (by omega) (by omega)))
  rw [Nat.testBit_or, Nat.testBit_shiftLeft, testBit_packRegs regs small,
    List.getD_eq_default _ _ (by omega), high]
  simp

structure ValidName (name : List UInt8) : Prop where
  nonempty : name ≠ []
  short : name.length ≤ 255
  ascii : Ascii name

def nameString (name : List UInt8) : Obj :=
  .string (name.map UInt8.toNat)

def Stored (wide : List UInt8) (enc : Encoded) (wideOff : Option Nat) : Prop :=
  match enc.payload with
  | none => wideOff = none
  | some payload =>
      ∃ before after, wide = before ++ (payload ++ after) ∧ wideOff = some before.length

theorem Stored.append {enc : Encoded} {wideOff : Option Nat}
    (stored : Stored wide enc wideOff) (more : List UInt8) : Stored (wide ++ more) enc wideOff := by
  unfold Stored at stored ⊢
  split at stored
  · exact stored
  · obtain ⟨before, after, rfl, place⟩ := stored
    exact ⟨before, after ++ more, by simp, place⟩

/-- A record of the packer and the row it is read back as. -/
inductive Stands (wide : List UInt8) : Rec → Obj → Prop
  | value {name : List UInt8} {enc : Encoded} {obj : Obj} {wideOff : Option Nat} (isConst : Bool)
      (named : ValidName name) (encodes : Encodes enc obj) (stored : Stored wide enc wideOff) :
      Stands wide
        ⟨name, if isConst then .const else .var, enc.flags, 0, 0, enc.a, 0, wideOff⟩
        (.ofList [keyword (if isConst then "CONST" else "VAR"), nameString name, obj])
  | libcall {name : List UInt8} {regs : List Nat} {res flags minver : Nat} {lvo : Int}
      (named : ValidName name) (few : regs.length ≤ 7) (regsKnown : ∀ reg ∈ regs, reg < 13)
      (resKnown : res < 9) (guarded : flags < 3) (byteVersion : minver < 256)
      (negative : lvo < 0) (near : -32768 ≤ lvo) :
      Stands wide
        ⟨name, .libcall, flags, regs.length, minver, packRegs regs ||| (res <<< 28), lvo, none⟩
        (.ofList (keyword "FN" :: nameString name :: .integer (clMakeFixnum lvo) ::
          .ofList (regs.map (keywordAt regNames)) :: keywordAt resNames res ::
          optionsRow flags minver))
  | peek {name : List UInt8} {ctype offset : Nat} (named : ValidName name)
      (ctypeKnown : ctype < 10) (bound : offset < 2 ^ 32) :
      Stands wide ⟨name, .field, 0, ctype, stubPeek, offset, 0, none⟩
        (.ofList [keyword "FIELD", nameString name, keywordAt ctNames ctype,
          .integer (clMakeFixnum offset)])
  | array {name : List UInt8} {ctype offset count : Nat} (named : ValidName name)
      (ctypeKnown : ctype < 10) (bound : offset < 2 ^ 16) (countBound : count < 2 ^ 16) :
      Stands wide
        ⟨name, .field, 0, ctype, stubPeekIdx, offset ||| (count <<< 16), ctSize ctype, none⟩
        (.ofList [keyword "FIELD", nameString name,
          .ofList [keyword "ARRAY", keywordAt ctNames ctype, .integer (clMakeFixnum count)],
          .integer (clMakeFixnum offset)])
  | struct {name : List UInt8} {offset : Nat} (named : ValidName name) (bound : offset < 2 ^ 32) :
      Stands wide ⟨name, .field, 0, 0, stubFieldPtr, offset, 0, none⟩
        (.ofList [keyword "FIELD", nameString name, keyword "STRUCT",
          .integer (clMakeFixnum offset)])
  | name {name : List UInt8} (named : ValidName name) :
      Stands wide ⟨name, .name, 0, 0, 0, 0, 0, none⟩
        (.ofList [keyword "NAME", nameString name])

theorem Stands.append {row : Obj} (stands : Stands wide r row)
    (more : List UInt8) : Stands (wide ++ more) r row := by
  cases stands with
  | value isConst named encodes stored => exact .value isConst named encodes (stored.append more)
  | libcall named few regsKnown resKnown guarded byteVersion negative near =>
      exact .libcall named few regsKnown resKnown guarded byteVersion negative near
  | peek named ctypeKnown bound => exact .peek named ctypeKnown bound
  | array named ctypeKnown bound countBound => exact .array named ctypeKnown bound countBound
  | struct named bound => exact .struct named bound
  | name named => exact .name named

theorem Stands.validName {row : Obj} (stands : Stands wide r row) : ValidName r.name := by
  cases stands <;> assumption

def entryWord (namesLen a : Nat) : Option Nat → Nat
  | some wideOff => namesLen + wideOff
  | none => a

/-- The entry of a record whose name is laid out at `off`. -/
def recEntry (namesLen off : Nat) (r : Rec) : Entry :=
  { nameOff := off
    nameLen := r.name.length
    kind := r.kind.code
    flags := r.flags
    a := entryWord namesLen r.a r.wideOff
    b := r.b
    c := r.c
    d := r.d }

/-- The row of an entry, as `%binding-table-entries` makes it. -/
def rowOf (v : View) (e : Entry) : Obj :=
  entryRow e (entryName v e) (decodeValue v e)

theorem found_of_stored {e : Entry} {names wide : List UInt8} {enc : Encoded}
    {wideOff : Option Nat} (arena : v.names = names ++ wide) (stored : Stored wide enc wideOff)
    (place : e.a = entryWord names.length enc.a wideOff) : Found v e enc := by
  unfold Stored at stored
  unfold Found
  cases payload : enc.payload with
  | none =>
      rw [payload] at stored
      rw [place, show wideOff = none from stored]
      rfl
  | some payload =>
      simp only [payload] at stored
      obtain ⟨before, after, rfl, rfl⟩ := stored
      refine ⟨names ++ before, after, ?_, ?_⟩
      · rw [arena, List.append_assoc]
      · rw [place, List.length_append]
        rfl

theorem or_shift16_low {offset count : Nat} (bound : offset < 2 ^ 16) :
    (offset ||| (count <<< 16)) = count * 2 ^ 16 + offset := by
  rw [Nat.shiftLeft_eq, Nat.or_comm, Nat.mul_comm, ← Nat.two_pow_add_eq_or_of_lt bound]

theorem checkEntry_eq {namesLen off : Nat} (named : ValidName r.name)
    (inside : off + r.name.length ≤ v.namesLen) (there : slice v.names off r.name.length = r.name)
    (knownFlags : r.flags < 32) :
    checkEntry v (recEntry namesLen off r) = checkKind v (recEntry namesLen off r) := by
  have read : entryName v (recEntry namesLen off r) = r.name := there
  have notEmpty : ¬ r.name.length = 0 := by
    rw [List.length_eq_zero_iff]
    exact named.nonempty
  have kindKnown : ¬ 4 < r.kind.code := by
    cases r.kind <;> decide
  have noOther : hasFlag r.flags (0xFF - 0x1F) = false := by
    generalize r.flags = flags at knownFlags
    interval_cases flags <;> rfl
  unfold checkEntry
  rw [read, named.ascii.anyHigh]
  generalize checkKind v (recEntry namesLen off r) = rest
  simp only [recEntry, notEmpty, Nat.not_lt.mpr inside, kindKnown, noOther, if_false,
    Bool.false_eq_true]

theorem Encodes.flags_lt {enc : Encoded} {obj : Obj} (encodes : Encodes enc obj) :
    enc.flags < 32 := by
  cases encodes <;> simp [flagSigned, flagWide, flagString]

theorem Stands.flags_lt {row : Obj} (stands : Stands wide r row) : r.flags < 32 := by
  cases stands with
  | value isConst named encodes stored => exact encodes.flags_lt
  | libcall named few regsKnown resKnown guarded byteVersion negative near =>
      exact guarded.trans (by decide)
  | peek | array | struct | name => simp

theorem checkLibcall_none {e : Entry} {res : Nat}
    (few : regs.length ≤ 7) (regsKnown : ∀ reg ∈ regs, reg < 13) (resKnown : res < 9)
    (count : e.c = regs.length) (word : e.a = packRegs regs ||| (res <<< 28))
    (negative : e.b < 0) : checkLibcall e = none := by
  have small : ∀ reg ∈ regs, reg < 16 := by
    intro reg member
    have known := regsKnown reg member
    omega
  have registers : ((List.range e.c).any fun i => decide (12 < regNibble e.a i)) = false := by
    simp only [List.any_eq_false, List.mem_range, decide_eq_true_eq]
    intro i inside
    rw [count] at inside
    rw [word, regNibble_packRegs small res (by omega), List.getD_eq_getElem _ _ inside]
    have known := regsKnown _ (List.getElem_mem inside)
    omega
  have kind : resKind e.a = res := by
    rw [word, resKind_packRegs small few (by omega)]
  rw [checkLibcall, registers, kind, if_neg (by omega), if_neg (by omega), if_neg (by simp),
    if_neg (by omega)]

theorem map_regNibble (few : regs.length ≤ 7) (regsKnown : ∀ reg ∈ regs, reg < 13) (res : Nat) :
    ((List.range regs.length).map fun i =>
      keywordAt regNames (regNibble (packRegs regs ||| (res <<< 28)) i)) =
      regs.map (keywordAt regNames) := by
  have small : ∀ reg ∈ regs, reg < 16 := by
    intro reg member
    have known := regsKnown reg member
    omega
  apply List.ext_getElem
  · simp
  · intro i inside insideMap
    rw [List.length_map, List.length_range] at inside
    rw [List.getElem_map, List.getElem_range, List.getElem_map,
      regNibble_packRegs small res (by omega), List.getD_eq_getElem _ _ inside]

theorem ctSize_mem (ctype : Nat) :
    ctSize ctype = 1 ∨ ctSize ctype = 2 ∨ ctSize ctype = 4 ∨ ctSize ctype = 8 := by
  unfold ctSize
  split <;> simp

theorem Stands.read {names wide : List UInt8} {row : Obj} {off : Nat}
    (stands : Stands wide r row) (arena : v.names = names ++ wide)
    (measured : v.namesLen = v.names.length) (inside : off + r.name.length ≤ v.namesLen)
    (there : slice v.names off r.name.length = r.name) :
    checkEntry v (recEntry names.length off r) = none ∧
      rowOf v (recEntry names.length off r) = row := by
  have read : entryName v (recEntry names.length off r) = r.name := there
  rw [checkEntry_eq stands.validName inside there stands.flags_lt, rowOf, read]
  cases stands with
  | @value name enc obj wideOff isConst named encodes stored =>
      have found : Found v (recEntry names.length off
          ⟨name, if isConst then .const else .var, enc.flags, 0, 0, enc.a, 0, wideOff⟩) enc :=
        found_of_stored arena stored rfl
      obtain ⟨passes, back⟩ := encodes.read rfl found measured
      cases isConst with
      | true => exact ⟨passes, by rw [entryRow, back]; rfl⟩
      | false => exact ⟨passes, by rw [entryRow, back]; rfl⟩
  | @libcall name regs res flags minver lvo named few regsKnown resKnown guarded byteVersion
      negative near =>
      have small : ∀ reg ∈ regs, reg < 16 := by
        intro reg member
        have known := regsKnown reg member
        omega
      refine ⟨checkLibcall_none few regsKnown resKnown rfl rfl negative, ?_⟩
      have registers := map_regNibble few regsKnown res
      have result := resKind_packRegs small few (show res < 16 by omega)
      simp only [entryRow, recEntry, entryWord, Kind.code, registers, result, nameString]
      simp
  | @peek name ctype offset named ctypeKnown bound =>
      constructor
      · simp only [checkKind, checkField, recEntry, Kind.code, stubPeek, stubFieldPtr, stubPeekIdx]
        simp
        omega
      · rfl
  | @array name ctype offset count named ctypeKnown bound countBound =>
      have word : offset ||| (count <<< 16) = count * 2 ^ 16 + offset := or_shift16_low bound
      have high : (offset ||| (count <<< 16)) >>> 16 = count := by
        rw [word, Nat.shiftRight_eq_div_pow]
        omega
      have low : (offset ||| (count <<< 16)) &&& 0xFFFF = offset := by
        rw [word, show (0xFFFF : Nat) = 2 ^ 16 - 1 by rfl, Nat.and_two_pow_sub_one_eq_mod]
        omega
      constructor
      · simp only [checkKind, checkField, recEntry, Kind.code, stubPeek, stubFieldPtr, stubPeekIdx]
        rcases ctSize_mem ctype with size | size | size | size <;> simp [size] <;> omega
      · simp only [entryRow, fieldTypeRow, recEntry, entryWord, Kind.code, nameString, high, low]
        rfl
  | struct named bound =>
      constructor
      · rfl
      · rfl
  | name named =>
      constructor
      · rfl
      · rfl

/-- The fields of an entry fit their bytes. -/
structure EntryFits (e : Entry) : Prop where
  nameOff : e.nameOff < 2 ^ 32
  nameLen : e.nameLen < 2 ^ 16
  kind : e.kind < 2 ^ 8
  flags : e.flags < 2 ^ 8
  a : e.a < 2 ^ 32
  bLow : -2 ^ 15 ≤ e.b
  bHigh : e.b < 2 ^ 15
  c : e.c < 2 ^ 8
  d : e.d < 2 ^ 8

def encodeEntry (e : Entry) : List UInt8 :=
  wr32 e.nameOff ++ (wr16 e.nameLen ++
    ([UInt8.ofNat e.kind, UInt8.ofNat e.flags] ++
      (wr32 e.a ++ (wr16 (e.b % 2 ^ 16).toNat ++ [UInt8.ofNat e.c, UInt8.ofNat e.d]))))

theorem length_encodeEntry (e : Entry) : (encodeEntry e).length = entrySize := rfl

theorem toInt16_mod {b : Int} (low : -2 ^ 15 ≤ b) (high : b < 2 ^ 15) :
    toInt16 (b % 2 ^ 16).toNat = b := by
  unfold toInt16
  split <;> omega

theorem decodeEntry_encodeEntry {e : Entry} (fits : EntryFits e)
    (bytes : v.entries = encodeEntry e) : decodeEntry v 0 = e := by
  obtain ⟨nameOff, nameLen, kind, flags, a, bLow, bHigh, c, d⟩ := fits
  have word : (e.b % 2 ^ 16).toNat < 2 ^ 16 := by omega
  have back := toInt16_mod bLow bHigh
  have first : rd32 (encodeEntry e) 0 = e.nameOff := rd32_wr32 nameOff [] _
  have second : rd16 (encodeEntry e) 4 = e.nameLen := rd16_wr16 nameLen (wr32 e.nameOff) _
  have fifth : rd32 (encodeEntry e) 8 = e.a :=
    rd32_wr32 a (wr32 e.nameOff ++ (wr16 e.nameLen ++ [UInt8.ofNat e.kind, UInt8.ofNat e.flags])) _
  have sixth : rd16 (encodeEntry e) 12 = (e.b % 2 ^ 16).toNat :=
    rd16_wr16 word (wr32 e.nameOff ++ (wr16 e.nameLen ++
        ([UInt8.ofNat e.kind, UInt8.ofNat e.flags] ++ wr32 e.a))) _
  have third : byteAt (encodeEntry e) 6 = e.kind :=
    UInt8.toNat_ofNat'.trans (Nat.mod_eq_of_lt kind)
  have fourth : byteAt (encodeEntry e) 7 = e.flags :=
    UInt8.toNat_ofNat'.trans (Nat.mod_eq_of_lt flags)
  have seventh : byteAt (encodeEntry e) 14 = e.c :=
    UInt8.toNat_ofNat'.trans (Nat.mod_eq_of_lt c)
  have eighth : byteAt (encodeEntry e) 15 = e.d :=
    UInt8.toNat_ofNat'.trans (Nat.mod_eq_of_lt d)
  simp only [decodeEntry, bytes, Nat.mul_zero, Nat.zero_add, first, second, third, fourth, fifth,
    sixth, seventh, eighth, back]

theorem decodeEntry_slice (v : View) (i : Nat) : decodeEntry v i =
      decodeEntry { v with entries := slice v.entries (entrySize * i) entrySize } 0 := by
  simp only [decodeEntry, Nat.mul_zero, Nat.zero_add]
  rw [rd32_slice _ (show 0 + 3 < entrySize by decide),
    rd16_slice _ (show 4 + 1 < entrySize by decide), byteAt_slice _ (show 6 < entrySize by decide),
    byteAt_slice _ (show 7 < entrySize by decide), rd32_slice _ (show 8 + 3 < entrySize by decide),
    rd16_slice _ (show 12 + 1 < entrySize by decide),
    byteAt_slice _ (show 14 < entrySize by decide), byteAt_slice _ (show 15 < entrySize by decide)]
  rfl

theorem decodeEntries_eq {es : List Entry} {rest : List UInt8}
    (count : v.n = es.length) (bytes : v.entries = es.flatMap encodeEntry ++ rest)
    (fits : ∀ e ∈ es, EntryFits e) : decodeEntries v = es := by
  apply List.ext_getElem
  · rw [decodeEntries, List.length_map, List.length_range, count]
  · intro i inside insideEntries
    simp only [decodeEntries, List.getElem_map, List.getElem_range]
    rw [decodeEntry_slice]
    apply decodeEntry_encodeEntry (fits _ (List.getElem_mem insideEntries))
    rw [bytes]
    exact slice_flatMap encodeEntry entrySize es length_encodeEntry rest i insideEntries

/-- The entries of records whose names are laid out from `off` on. -/
def recEntries (namesLen : Nat) : Nat → List Rec → List Entry
  | _, [] => []
  | off, r :: rest => recEntry namesLen off r :: recEntries namesLen (off + r.name.length) rest

theorem layEntries_eq (namesLen off : Nat) (recs : List Rec) :
    layEntries namesLen off recs = (recEntries namesLen off recs).map encodeEntry := by
  induction recs generalizing off with
  | nil => rfl
  | cons r recs induction =>
      rw [layEntries, recEntries, List.map_cons, induction]
      rfl

theorem length_recEntries (namesLen off : Nat) (recs : List Rec) :
    (recEntries namesLen off recs).length = recs.length := by
  induction recs generalizing off with
  | nil => rfl
  | cons r recs induction => rw [recEntries, List.length_cons, List.length_cons, induction]

theorem Encodes.entryWord_lt {enc : Encoded} {obj : Obj}
    {wideOff : Option Nat} {namesLen : Nat} (encodes : Encodes enc obj)
    (stored : Stored wide enc wideOff) (bound : namesLen + wide.length < 2 ^ 32) :
    entryWord namesLen enc.a wideOff < 2 ^ 32 := by
  cases encodes with
  | unsigned small =>
      rw [show wideOff = none from stored]
      exact small
  | negative small =>
      rw [show wideOff = none from stored]
      exact Nat.mod_lt _ (by decide)
  | wide neg nonempty short =>
      obtain ⟨before, after, rfl, rfl⟩ := stored
      rw [List.length_append] at bound
      exact lt_of_le_of_lt (by simp only [entryWord]; omega) bound
  | string short ascii =>
      obtain ⟨before, after, rfl, rfl⟩ := stored
      rw [List.length_append] at bound
      exact lt_of_le_of_lt (by simp only [entryWord]; omega) bound

theorem Stands.fits {row : Obj} {namesLen off : Nat}
    (stands : Stands wide r row) (bound : namesLen + wide.length < 2 ^ 32)
    (inside : off + r.name.length ≤ namesLen) : EntryFits (recEntry namesLen off r) := by
  have named := stands.validName
  have short := named.short
  have flags := stands.flags_lt
  have kind : r.kind.code < 2 ^ 8 := by cases r.kind <;> decide
  have rest : entryWord namesLen r.a r.wideOff < 2 ^ 32 ∧ -2 ^ 15 ≤ r.b ∧ r.b < 2 ^ 15 ∧
      r.c < 2 ^ 8 ∧ r.d < 2 ^ 8 := by
    cases stands with
    | value isConst named encodes stored =>
        exact ⟨encodes.entryWord_lt stored bound, by simp, by simp, by simp, by simp⟩
    | libcall named few regsKnown resKnown guarded byteVersion negative near =>
        have word := packRegs_or_lt (fun reg member => (regsKnown reg member).trans (by decide)) few
          (resKnown.trans (by decide))
        exact ⟨word, near, negative.trans (by decide), lt_of_le_of_lt few (by decide), byteVersion⟩
    | peek named ctypeKnown offsetBound =>
        exact ⟨offsetBound, by simp, by simp, ctypeKnown.trans (by decide), by simp [stubPeek]⟩
    | @array name ctype offset count named ctypeKnown offsetBound countBound =>
        have word : entryWord namesLen (offset ||| (count <<< 16)) none < 2 ^ 32 := by
          rw [entryWord, or_shift16_low offsetBound]
          omega
        have size := ctSize_mem ctype
        refine ⟨word, ?_, ?_, ctypeKnown.trans (by decide), by simp [stubPeekIdx]⟩
        · dsimp only
          omega
        · dsimp only
          omega
    | struct named offsetBound =>
        exact ⟨offsetBound, by simp, by simp, by simp, by simp [stubFieldPtr]⟩
    | name named =>
        exact ⟨by simp [entryWord], by simp, by simp, by simp, by simp⟩
  obtain ⟨word, bLow, bHigh, c, d⟩ := rest
  exact ⟨by simp only [recEntry]; omega, by simp only [recEntry]; omega, kind,
    flags.trans (by decide), word, bLow, bHigh, c, d⟩

/-- The entry of a record, with its name in the arena. -/
def Laid (v : View) (namesLen : Nat) (r : Rec) (e : Entry) : Prop :=
  ∃ off, e = recEntry namesLen off r ∧ off + r.name.length ≤ namesLen ∧
    slice v.names off r.name.length = r.name

theorem Laid.entryName {namesLen : Nat} {e : Entry}
    (laid : Laid v namesLen r e) : entryName v e = r.name := by
  obtain ⟨off, rfl, -, there⟩ := laid
  exact there

theorem Laid.kind {namesLen : Nat} {e : Entry}
    (laid : Laid v namesLen r e) : e.kind = r.kind.code := by
  obtain ⟨off, rfl, -, -⟩ := laid
  rfl

theorem recEntries_laid {names wide : List UInt8} (arena : v.names = names ++ wide)
    (recs : List Rec) (before : List UInt8) (rest : names = before ++ recs.flatMap Rec.name) :
    List.Forall₂ (Laid v names.length) recs (recEntries names.length before.length recs) := by
  induction recs generalizing before with
  | nil => exact .nil
  | cons r recs induction =>
      rw [List.flatMap_cons] at rest
      rw [recEntries]
      apply List.Forall₂.cons
      · refine ⟨before.length, rfl, ?_, ?_⟩
        · rw [rest]
          simp only [List.length_append]
          omega
        · rw [arena, rest, List.append_assoc, List.append_assoc]
          exact (slice_append_right before _ 0 _).trans (slice_front r.name _)
      · have later := induction (before ++ r.name) (by rw [rest, List.append_assoc])
        rwa [List.length_append] at later

section Table

variable {v : View} {names wide : List UInt8} {recs : List Rec} {rows : List Obj}
  {es : List Entry}

theorem Stands.laid {row : Obj} {e : Entry} (stands : Stands wide r row)
    (laid : Laid v names.length r e) (arena : v.names = names ++ wide)
    (measured : v.namesLen = v.names.length) : checkEntry v e = none ∧ rowOf v e = row := by
  obtain ⟨off, rfl, inside, there⟩ := laid
  refine stands.read arena measured ?_ there
  rw [measured, arena, List.length_append]
  omega

theorem rows_of_laid (stands : List.Forall₂ (Stands wide) recs rows)
    (laid : List.Forall₂ (Laid v names.length) recs es) (arena : v.names = names ++ wide)
    (measured : v.namesLen = v.names.length) : es.map (rowOf v) = rows := by
  induction stands generalizing es with
  | nil =>
      cases laid
      rfl
  | cons here _ induction =>
      cases laid with
      | cons laidHere laidRest =>
          rw [List.map_cons, (here.laid laidHere arena measured).2, induction laidRest]

theorem fits_of_laid (stands : List.Forall₂ (Stands wide) recs rows)
    (laid : List.Forall₂ (Laid v names.length) recs es)
    (bound : names.length + wide.length < 2 ^ 32) : ∀ e ∈ es, EntryFits e := by
  induction stands generalizing es with
  | nil =>
      cases laid
      simp
  | cons here _ induction =>
      cases laid with
      | cons laidHere laidRest =>
          intro e member
          rcases List.mem_cons.mp member with rfl | later
          · obtain ⟨off, rfl, inside, -⟩ := laidHere
            exact here.fits bound inside
          · exact induction laidRest e later

def Follows (p q : Rec) : Prop :=
  nameLe p.name q.name = true ∧ mayNeighbour p.name q.name p.kind q.kind = true

theorem checkOrder_none {p r : Rec} {prev e : Entry} (follows : Follows p r)
    (prevLaid : Laid v names.length p prev) (laid : Laid v names.length r e) :
    checkOrder v (some prev) e = none := by
  obtain ⟨sorted, neighbours⟩ := follows
  simp only [checkOrder, prevLaid.entryName, laid.entryName, prevLaid.kind, laid.kind, sorted,
    Bool.true_eq_false, if_false, ite_eq_right_iff, reduceCtorEq, imp_false, not_and]
  intro same differ
  simp only [mayNeighbour, same, ne_eq, not_true, decide_false, Bool.false_or,
    Bool.and_eq_true, decide_eq_true_eq] at neighbours
  rw [neighbours.1, neighbours.2] at differ
  exact differ rfl rfl

theorem checkEntries_none (stands : List.Forall₂ (Stands wide) recs rows)
    (laid : List.Forall₂ (Laid v names.length) recs es) (arena : v.names = names ++ wide)
    (measured : v.namesLen = v.names.length) (chain : recs.IsChain Follows)
    (prev : Option Entry)
    (ordered : ∀ entry ∈ prev, ∃ p, Laid v names.length p entry ∧ ∀ r ∈ recs.head?, Follows p r) :
    checkEntries v prev es = none := by
  induction stands generalizing es prev with
  | nil =>
      cases laid
      rfl
  | @cons r row recs rows here _ induction =>
      cases laid with
      | @cons _ e _ es laidHere laidRest =>
          have order : checkOrder v prev e = none := by
            cases prev with
            | none => rfl
            | some entry =>
                obtain ⟨p, prevLaid, follows⟩ := ordered entry rfl
                exact checkOrder_none (follows r rfl) prevLaid laidHere
          simp only [checkEntries, (here.laid laidHere arena measured).1, order]
          apply induction laidRest (List.isChain_cons.mp chain).2
          intro entry isHere
          obtain rfl := Option.some.inj isHere
          exact ⟨r, laidHere, (List.isChain_cons.mp chain).1⟩

def blobOf (recs : List Rec) (wide : List UInt8) (hasLibcall : Bool) : List UInt8 :=
  let names := recs.flatMap Rec.name
  headerBytes recs.length (names.length + wide.length) hasLibcall ++
    ((layEntries names.length 0 recs).flatten ++ (names ++ wide))

theorem length_headerBytes (n arenaLen : Nat) (hasLibcall : Bool) :
    (headerBytes n arenaLen hasLibcall).length = headerSize := rfl

theorem length_flatMap_encodeEntry (es : List Entry) :
    (es.flatMap encodeEntry).length = es.length * entrySize := by
  induction es with
  | nil => rfl
  | cons e es induction =>
      rw [List.flatMap_cons, List.length_append, induction, length_encodeEntry, List.length_cons]
      ring

theorem viewBlob_append {blob arena : List UInt8} {hasLibcall : Bool}
    (made : blob = headerBytes es.length arena.length hasLibcall ++
      (es.flatMap encodeEntry ++ arena))
    (fewEntries : es.length < 2 ^ 32) (shortArena : arena.length < 2 ^ 32) :
    viewBlob blob = ⟨es.length, arena.length, es.flatMap encodeEntry ++ arena, arena⟩ := by
  have n_eq : rd32 blob 8 = es.length := by
    rw [made]
    exact rd32_wr32 fewEntries
      (wr32 btMagic ++ ([UInt8.ofNat btVersion, UInt8.ofNat (if hasLibcall then hfLibcalls else 0)]
        ++ wr16 0)) _
  have arena_eq : rd32 blob 12 = arena.length := by
    rw [made]
    exact rd32_wr32 shortArena
      (wr32 btMagic ++ ([UInt8.ofNat btVersion, UInt8.ofNat (if hasLibcall then hfLibcalls else 0)]
        ++ (wr16 0 ++ wr32 es.length))) _
  have header := length_headerBytes es.length arena.length hasLibcall
  rw [viewBlob, n_eq, arena_eq]
  congr 1
  · rw [made, ← header, List.drop_left]
  · rw [made, ← header, ← List.append_assoc, ← length_flatMap_encodeEntry, ← List.length_append,
      List.drop_left]

/-- A table of sorted records that stand for rows is well formed and holds these rows. -/
theorem blobOf_read (stands : List.Forall₂ (Stands wide) recs rows)
    (chain : recs.IsChain Follows) (hasLibcall : Bool)
    (bound : headerSize + recs.length * entrySize + (recs.flatMap Rec.name).length + wide.length ≤
      maxBytevecBytes) :
    validateBlob (blobOf recs wide hasLibcall) = none ∧
      bindingTableEntries (blobOf recs wide hasLibcall) = .ok rows := by
  have small : headerSize + recs.length * 16 + (recs.flatMap Rec.name).length + wide.length ≤
      0x007FFFFF := bound.trans (by decide)
  generalize names_eq : recs.flatMap Rec.name = names at small
  generalize entries_eq : recEntries names.length 0 recs = es
  have count : es.length = recs.length := by rw [← entries_eq, length_recEntries]
  have made : blobOf recs wide hasLibcall =
      headerBytes es.length (names ++ wide).length hasLibcall ++
        (es.flatMap encodeEntry ++ (names ++ wide)) := by
    rw [blobOf, names_eq, layEntries_eq, entries_eq, List.flatMap_def, count, List.length_append]
  generalize blobOf recs wide hasLibcall = blob at made
  have arenaLength : (names ++ wide).length = names.length + wide.length := List.length_append
  have view_eq := viewBlob_append made (by omega) (by omega)
  have magic : rd32 blob 0 = btMagic := by
    rw [made]
    exact rd32_wr32 (by decide) [] _
  have version : byteAt blob 4 = btVersion := by
    rw [made]
    rfl
  have length_eq : headerSize + es.length * entrySize + (names ++ wide).length = blob.length := by
    simp only [made, List.length_append, length_headerBytes, length_flatMap_encodeEntry,
      Nat.add_assoc]
  generalize seen : viewBlob blob = v at view_eq
  have arena : v.names = names ++ wide := by rw [view_eq]
  have measured : v.namesLen = v.names.length := by rw [view_eq]
  have laid : List.Forall₂ (Laid v names.length) recs es := by
    have placed := recEntries_laid arena recs [] names_eq.symm
    rwa [List.length_nil, entries_eq] at placed
  have decoded : decodeEntries v = es := by
    have n_eq : v.n = es.length := by rw [view_eq]
    have bytes : v.entries = es.flatMap encodeEntry ++ (names ++ wide) := by rw [view_eq]
    exact decodeEntries_eq n_eq bytes (fits_of_laid stands laid (by omega))
  have valid : validateBlob blob = none := by
    have checked := checkEntries_none stands laid arena measured chain none (by simp)
    have long : ¬ blob.length < headerSize := by omega
    have fewEntries : ¬ 0x00FFFFFF < v.n := by
      rw [view_eq]
      dsimp only
      omega
    have matching : headerSize + v.n * entrySize + v.namesLen = blob.length := by
      rw [view_eq]
      exact length_eq
    simp only [validateBlob, long, magic, version, seen, fewEntries, matching, decoded, checked,
      ne_eq, not_true, if_false]
  refine ⟨valid, ?_⟩
  have back := rows_of_laid stands laid arena measured
  rw [bindingTableEntries, valid, seen]
  dsimp only
  rw [decoded]
  exact congrArg Except.ok back

end Table

end ClAmiga.BindTab
