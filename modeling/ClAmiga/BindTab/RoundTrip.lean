import ClAmiga.BindTab.Layout

/-!
# Round trip of the rows

What each row is read back as, said on the rows alone: names become strings, a
structure becomes its size variable and its fields, integers become canonical.
Every table the packer makes is well formed, and one made of rows in the documented
syntax holds these rows, sorted by name and stable.
-/

namespace ClAmiga.BindTab

open Wire Number Bignum Radix

/-- A keyword as `strcmp` sees it. -/
def bareKeyword : Obj → Obj
  | .symbol true name => .symbol true (name.takeWhile (· ≠ 0))
  | obj => obj

def nameChars : Obj → List Nat
  | .symbol _ name => name
  | .string chars => chars
  | _ => []

def readBackType : Obj → Obj
  | .cons head rest =>
      if kwIs head "STRUCT" then keyword "STRUCT"
      else .ofList [keyword "ARRAY", bareKeyword rest.car, rest.cdr.car]
  | type => bareKeyword type

def readBackField (chars : List Nat) (type offset : Obj) : Obj :=
  .ofList [keyword "FIELD", .string chars, readBackType type, offset]

def isGuard (option : Obj) : Bool :=
  kwIs option "NOT-MORPHOS" || kwIs option "MORPHOS"

/-- `[:not-morphos|:morphos] [min-version]` -/
def optionsInSyntax : List Obj → Bool
  | [] | [_] => true
  | [guard, version] => isGuard guard && !isGuard version
  | _ => false

/-- A type list ends with the size, or with the element type and the count. -/
def typeInSyntax : Obj → Bool
  | .cons head rest =>
      if kwIs head "STRUCT" then decide (rest.cdr = .nil) else decide (rest.cdr.cdr = .nil)
  | _ => true

def structFieldInSyntax (field : Obj) : Bool :=
  match field.elements with
  | some [_, type, _] => typeInSyntax type
  | _ => true

/-- The row syntax of `bindtab.h`, as far as `parse_row` does not check it. -/
def rowInSyntax (row : Obj) : Bool :=
  match row.elements with
  | some (kind :: _ :: rest) =>
      if kwIs kind "FN" then optionsInSyntax (rest.drop 3)
      else if kwIs kind "FIELD" then typeInSyntax (rest.headD .nil)
      else if kwIs kind "STRUCT" then rest.tail.all structFieldInSyntax
      else true
  | _ => true

def readBackStructField (chars : List Nat) (field : Obj) : List Obj :=
  match field.elements with
  | some [name, type, offset] =>
      [readBackField (chars ++ codes "-" ++ nameChars name) type offset]
  | _ => []

/-- The rows that an accepted row in the documented syntax is read back as. -/
def readBack (row : Obj) : List Obj :=
  match row.elements with
  | some (kind :: name :: rest) =>
      let chars := nameChars name
      if kwIs kind "FN" then
        match rest with
        | lvo :: regs :: result :: options =>
            [.ofList (keyword "FN" :: .string chars :: lvo ::
              .ofList ((regs.elements.getD []).map bareKeyword) :: bareKeyword result ::
              options.map bareKeyword)]
        | _ => []
      else if kwIs kind "FIELD" then
        match rest with
        | [type, offset] => [readBackField chars type offset]
        | _ => []
      else if kwIs kind "STRUCT" then
        match rest with
        | size :: fields =>
            .ofList [keyword "VAR", .string (codes "*" ++ chars ++ codes "-SIZE*"), size] ::
              fields.flatMap (readBackStructField chars)
        | _ => []
      else [.ofList (bareKeyword kind :: .string chars :: rest.map canonicalValue)]
  | _ => []

def rowName (row : Obj) : List UInt8 :=
  (nameChars row.cdr.car).map UInt8.ofNat

/-- The rows of a table, sorted by name; `mergeSort` is stable. -/
def tableRows (rows : List Obj) : List Obj :=
  (rows.flatMap readBack).mergeSort fun p q => nameLe (rowName p) (rowName q)

theorem kwIs_bareKeyword {obj : Obj} {text : String} (is : kwIs obj text = true) :
    bareKeyword obj = keyword text := by
  unfold kwIs at is
  split at is
  · next name =>
      rw [decide_eq_true_eq] at is
      rw [bareKeyword, is, keyword]
  · cases is

theorem keywordIndex_some {obj : Obj} {table : List String} {i : Nat}
    (found : keywordIndex obj table = some i) :
    i < table.length ∧ bareKeyword obj = keywordAt table i := by
  unfold keywordIndex at found
  obtain ⟨inside, is, -⟩ := List.findIdx?_eq_some_iff_getElem.mp found
  refine ⟨inside, ?_⟩
  rw [kwIs_bareKeyword is, keywordAt, List.getD_eq_getElem _ _ inside]

theorem kwIs_unique {obj : Obj} {text other : String} (is : kwIs obj text = true)
    (differ : codes text ≠ codes other) : kwIs obj other = false := by
  unfold kwIs at is ⊢
  split at is
  · next name =>
      rw [decide_eq_true_eq] at is
      simp only [decide_eq_false_iff_not, is]
      exact differ
  · cases is

theorem Packing.bind_ok {α β : Type} {first : Packing α} {next : α → Packing β} {b : β}
    (succeeds : (first >>= next) = .ok b) : ∃ a, first = .ok a ∧ next a = .ok b := by
  cases first with
  | error failure => cases succeeds
  | ok a => exact ⟨a, rfl, succeeds⟩

variable {row : Nat} {name : List UInt8} {b b' : Build}

theorem parseName_ok {obj : Obj} (accepted : parseName row obj = .ok name) :
    ValidName name ∧ name.map UInt8.toNat = nameChars obj := by
  have named : ∀ chars : List Nat, chars = nameChars obj →
      parseName row (.string chars) = .ok name →
      ValidName name ∧ name.map UInt8.toNat = nameChars obj := by
    intro chars isName accepted
    rw [parseName] at accepted
    split at accepted
    · cases accepted
    · next sized =>
        rw [not_or] at sized
        split at accepted
        · cases accepted
        · next bytes ascii =>
            obtain rfl := Except.ok.inj accepted
            obtain ⟨made, isAscii, back, -⟩ := asciiBytes_ok ascii
            have count : bytes.length = chars.length := by rw [made, List.length_map]
            refine ⟨⟨?_, by omega, isAscii⟩, back.trans isName⟩
            rw [← List.length_pos_iff]
            omega
  cases obj with
  | symbol keyword name => exact named name rfl accepted
  | string chars => exact named chars rfl accepted
  | nil => cases accepted
  | cons car cdr => cases accepted
  | integer v => cases accepted
  | other => cases accepted

structure Adds (b b' : Build) (rows : List Obj) : Prop where
  added : ∃ new more, b'.recs = b.recs ++ new ∧ b'.wide = b.wide ++ more ∧
    List.Forall₂ (Stands b'.wide) new rows

theorem Adds.nothing (b : Build) : Adds b b [] :=
  ⟨[], [], by simp, by simp, .nil⟩

theorem Adds.trans {b b' b'' : Build} {rows rows' : List Obj} (first : Adds b b' rows)
    (second : Adds b' b'' rows') : Adds b b'' (rows ++ rows') := by
  obtain ⟨new, more, recs, wide, stands⟩ := first.added
  obtain ⟨new', more', recs', wide', stands'⟩ := second.added
  refine ⟨new ++ new', more ++ more', ?_, ?_, ?_⟩
  · rw [recs', recs, List.append_assoc]
  · rw [wide', wide, List.append_assoc]
  · apply List.rel_append _ stands'
    rw [wide']
    exact stands.imp fun r row stand => stand.append more'

theorem Adds.record {r : Rec} {row : Obj} (recs : b'.recs = b.recs ++ [r])
    (wide : b'.wide = b.wide) (stands : Stands b'.wide r row) : Adds b b' [row] :=
  ⟨[r], [], recs, by rw [wide, List.append_nil], .cons stands .nil⟩

theorem addValue_adds {isConst : Bool} {value : Obj} (named : ValidName name)
    (accepted : addValue row b (if isConst then .const else .var) name value = .ok b') :
    Adds b b' [.ofList [keyword (if isConst then "CONST" else "VAR"), nameString name,
      canonicalValue value]] := by
  obtain ⟨enc, encoded, made⟩ := Packing.bind_ok accepted
  obtain rfl := Except.ok.inj made
  have encodes := encodeValue_encodes encoded
  refine ⟨_, enc.payload.getD [], rfl, rfl, .cons (.value isConst named encodes ?_) .nil⟩
  unfold Stored
  cases payload : enc.payload with
  | none => rfl
  | some payload => exact ⟨b.wide, [], by simp, rfl⟩

theorem fixnum_offset {word : BitVec 31} (nonnegative : ¬ word.toInt < 0) :
    clMakeFixnum (word.toInt.toNat : Int) = .fixnum word := by
  rw [Int.toNat_of_nonneg (by omega), clMakeFixnum_toInt]

theorem parseFieldType_ok {type : Obj} {kind ctype eltSize count : Nat}
    (parsed : parseFieldType row name type = .ok (kind, ctype, eltSize, count)) :
    (kind = stubFieldPtr ∧ ctype = 0 ∧ eltSize = 0 ∧ readBackType type = keyword "STRUCT") ∨
    (kind = stubPeekIdx ∧ ctype < 10 ∧ eltSize = ctSize ctype ∧ count < 2 ^ 16 ∧ readBackType type =
        .ofList [keyword "ARRAY", keywordAt ctNames ctype, .integer (clMakeFixnum count)]) ∨
    (kind = stubPeek ∧ ctype < 10 ∧ eltSize = 0 ∧ readBackType type = keywordAt ctNames ctype) := by
  unfold parseFieldType at parsed
  split at parsed
  · next head rest =>
      split at parsed
      · next isStruct =>
          split at parsed
          · split at parsed
            · cases parsed
            · simp only [Except.ok.injEq, Prod.mk.injEq] at parsed
              obtain ⟨rfl, rfl, rfl, rfl⟩ := parsed
              exact .inl ⟨rfl, rfl, rfl, if_pos isStruct⟩
          · cases parsed
      · next notStruct =>
          split at parsed
          · split at parsed
            · cases parsed
            · next ctype' index =>
                obtain ⟨known, element⟩ := keywordIndex_some index
                split at parsed
                · next countWord counted =>
                    split at parsed
                    · cases parsed
                    · next countRange =>
                        simp only [Except.ok.injEq, Prod.mk.injEq] at parsed
                        obtain ⟨rfl, rfl, rfl, rfl⟩ := parsed
                        have countBack := fixnum_offset (show ¬ countWord.toInt < 0 by omega)
                        refine .inr (.inl ⟨rfl, known, rfl, by omega, ?_⟩)
                        rw [readBackType, if_neg notStruct, element, counted, countBack]
                · cases parsed
          · cases parsed
  · next notCons =>
      split at parsed
      · cases parsed
      · next ctype' index =>
          obtain ⟨known, element⟩ := keywordIndex_some index
          simp only [Except.ok.injEq, Prod.mk.injEq] at parsed
          obtain ⟨rfl, rfl, rfl, rfl⟩ := parsed
          refine .inr (.inr ⟨rfl, known, rfl, ?_⟩)
          rw [← element]
          cases type with
          | cons head rest => exact absurd rfl (notCons head rest)
          | nil | symbol | string | integer | other => rfl

theorem addField_adds {type offset : Obj}
    (named : ValidName name) (accepted : addField row b name type offset = .ok b') :
    Adds b b' [readBackField (name.map UInt8.toNat) type offset] := by
  unfold addField at accepted
  split at accepted
  · next word =>
      split at accepted
      · cases accepted
      · next nonnegative =>
          have range := word_range word
          simp only [InFixnumRange, clFixnumMin, clFixnumMax] at range
          have offsetBound : word.toInt.toNat < 2 ^ 32 := by omega
          have offsetBack := fixnum_offset nonnegative
          obtain ⟨⟨kind, ctype, eltSize, count⟩, parsed, made⟩ := Packing.bind_ok accepted
          dsimp only at made
          split at made
          · cases made
          · next arrayOffset =>
              obtain rfl := Except.ok.inj made
              refine Adds.record (b := b) rfl rfl ?_
              rw [readBackField, ← offsetBack]
              rcases parseFieldType_ok parsed with
                ⟨rfl, rfl, rfl, type⟩ | ⟨rfl, known, rfl, few, type⟩ | ⟨rfl, known, rfl, type⟩
              · rw [type]
                exact .struct named offsetBound
              · simp only [true_and, not_lt] at arrayOffset
                rw [type, if_pos rfl]
                exact .array named known (by omega) few
              · rw [type]
                exact .peek named known offsetBound
  · cases accepted

theorem parseRegs_ok {regs : List Obj} {indices : List Nat}
    (parsed : parseRegs row name regs = .ok indices) :
    indices.length = regs.length ∧ (∀ reg ∈ indices, reg < 13) ∧
      regs.map bareKeyword = indices.map (keywordAt regNames) := by
  induction regs generalizing indices with
  | nil =>
      obtain rfl := Except.ok.inj parsed
      simp
  | cons reg regs induction =>
      rw [parseRegs, List.mapM_cons] at parsed
      obtain ⟨index, here, parsed⟩ := Packing.bind_ok parsed
      obtain ⟨rest, later, made⟩ := Packing.bind_ok parsed
      obtain rfl := Except.ok.inj made
      obtain ⟨count, known, same⟩ := induction later
      have found : keywordIndex reg regNames = some index := by
        split at here
        · cases here
        · next i found => rw [found, Except.ok.inj here]
      obtain ⟨inside, isKeyword⟩ := keywordIndex_some found
      refine ⟨by simp [count], ?_, by simp [same, isKeyword]⟩
      intro reg member
      rcases List.mem_cons.mp member with rfl | rest
      · exact inside
      · exact known reg rest

theorem parseOptions_cons {option : Obj} {rest : List Obj} {flags minver : Nat} {result : Nat × Nat}
    (parsed : parseOptions row name (option :: rest) (flags, minver) = .ok result) :
    (isGuard option = true ∧ bareKeyword option = keyword "NOT-MORPHOS" ∧
      parseOptions row name rest (flags ||| flagNotMorphos, minver) = .ok result) ∨
    (isGuard option = true ∧ bareKeyword option = keyword "MORPHOS" ∧
      parseOptions row name rest (flags ||| flagMorphos, minver) = .ok result) ∨
    (isGuard option = false ∧ ∃ version : Nat, 0 < version ∧ version < 256 ∧
      option = .integer (clMakeFixnum version) ∧
      parseOptions row name rest (flags, version) = .ok result) := by
  unfold parseOptions at parsed
  split at parsed
  · next isNot => exact .inl ⟨by simp [isGuard, isNot], kwIs_bareKeyword isNot, parsed⟩
  · next notNot =>
      split at parsed
      · next is => exact .inr (.inl ⟨by simp [isGuard, is], kwIs_bareKeyword is, parsed⟩)
      · next notIs =>
          split at parsed
          · next word =>
              split at parsed
              · next range =>
                  refine .inr (.inr ⟨rfl, word.toInt.toNat, by omega, by omega, ?_, parsed⟩)
                  rw [fixnum_offset (by omega)]
              · cases parsed
          · cases parsed

theorem parseOptions_bounds {options : List Obj} {flags minver flags' minver' : Nat}
    (parsed : parseOptions row name options (flags, minver) = .ok (flags', minver'))
    (known : flags < 4) (byteVersion : minver < 256) : flags' < 4 ∧ minver' < 256 := by
  induction options generalizing flags minver with
  | nil =>
      simp only [parseOptions, Except.ok.injEq, Prod.mk.injEq] at parsed
      obtain ⟨rfl, rfl⟩ := parsed
      exact ⟨known, byteVersion⟩
  | cons option rest induction =>
      rcases parseOptions_cons parsed with ⟨-, -, later⟩ | ⟨-, -, later⟩ |
        ⟨-, version, -, bound, -, later⟩
      · exact induction later (Nat.or_lt_two_pow (n := 2) known (by decide)) byteVersion
      · exact induction later (Nat.or_lt_two_pow (n := 2) known (by decide)) byteVersion
      · exact induction later known bound

theorem parseOptions_version {option : Obj} {flags flags' minver : Nat}
    (parsed : parseOptions row name [option] (flags, 0) = .ok (flags', minver))
    (plain : isGuard option = false) :
    optionsRow flags' minver = optionsRow flags 0 ++ [bareKeyword option] := by
  rcases parseOptions_cons parsed with ⟨guard, -, -⟩ | ⟨guard, -, -⟩ |
    ⟨-, version, positive, -, rfl, done⟩
  · exact absurd guard (by simp [plain])
  · exact absurd guard (by simp [plain])
  · obtain ⟨rfl, rfl⟩ := Prod.mk.inj (Except.ok.inj done)
    simp [optionsRow, bareKeyword, Nat.pos_iff_ne_zero.mp positive]

/-- Options in the documented syntax are kept as they are. -/
theorem parseOptions_inSyntax {options : List Obj}
    {flags minver : Nat} (parsed : parseOptions row name options (0, 0) = .ok (flags, minver))
    (inSyntax : optionsInSyntax options = true) :
    optionsRow flags minver = options.map bareKeyword := by
  match options with
  | [] =>
      obtain ⟨rfl, rfl⟩ := Prod.mk.inj (Except.ok.inj parsed)
      rfl
  | [option] =>
      rcases parseOptions_cons parsed with ⟨-, is, done⟩ | ⟨-, is, done⟩ | ⟨plain, -⟩
      · obtain ⟨rfl, rfl⟩ := Prod.mk.inj (Except.ok.inj done)
        rw [List.map_singleton, is]
        rfl
      · obtain ⟨rfl, rfl⟩ := Prod.mk.inj (Except.ok.inj done)
        rw [List.map_singleton, is]
        rfl
      · exact parseOptions_version parsed plain
  | [guard, version] =>
      rw [optionsInSyntax, Bool.and_eq_true, Bool.not_eq_true'] at inSyntax
      obtain ⟨guarded, plain⟩ := inSyntax
      rcases parseOptions_cons parsed with ⟨-, is, later⟩ | ⟨-, is, later⟩ | ⟨unguarded, -⟩
      · rw [parseOptions_version later plain, List.map_cons, is]
        rfl
      · rw [parseOptions_version later plain, List.map_cons, is]
        rfl
      · exact absurd guarded (by simp [unguarded])
  | _ :: _ :: _ :: _ => cases inSyntax

theorem parseFn_adds {rest : List Obj}
    (named : ValidName name) (accepted : parseFn row b name rest = .ok b') :
    ∃ lvo regs result options back, rest = lvo :: regs :: result :: options ∧
      Adds b b' [.ofList (keyword "FN" :: nameString name :: lvo ::
        .ofList ((regs.elements.getD []).map bareKeyword) :: bareKeyword result :: back)] ∧
      (optionsInSyntax options = true → back = options.map bareKeyword) := by
  unfold parseFn at accepted
  split at accepted
  · next lvo regsObj result options =>
      split at accepted
      · next word =>
          split at accepted
          · cases accepted
          · next lvoRange =>
              rw [not_or] at lvoRange
              split at accepted
              · cases accepted
              · next regs isList =>
                  split at accepted
                  · cases accepted
                  · next few =>
                      obtain ⟨indices, registers, accepted⟩ := Packing.bind_ok accepted
                      obtain ⟨count, known, same⟩ := parseRegs_ok registers
                      split at accepted
                      · cases accepted
                      · next res index =>
                          obtain ⟨resKnown, resIs⟩ := keywordIndex_some index
                          obtain ⟨⟨flags, minver⟩, parsed, made⟩ := Packing.bind_ok accepted
                          dsimp only at made
                          split at made
                          · cases made
                          · next notBoth =>
                              obtain rfl := Except.ok.inj made
                              obtain ⟨guarded, byteVersion⟩ :=
                                parseOptions_bounds parsed (by decide) (by decide)
                              have single : flags < 3 :=
                                Nat.lt_of_le_of_ne (Nat.le_of_lt_succ guarded) notBoth
                              refine ⟨_, regsObj, result, options, optionsRow flags minver, rfl,
                                .record (b := b) rfl rfl ?_, parseOptions_inSyntax parsed⟩
                              rw [isList, Option.getD_some, same, resIs, ← clMakeFixnum_toInt]
                              exact .libcall named (by omega) known resKnown single byteVersion
                                (by omega) (by omega)
      · cases accepted
  · cases accepted

theorem ValidName.join {before name after : List UInt8} (named : ValidName name)
    (short : before.length + name.length + after.length ≤ 255) (ascii : Ascii before)
    (asciiAfter : Ascii after) : ValidName (before ++ name ++ after) := by
  refine ⟨?_, ?_, ?_⟩
  · simp [named.nonempty]
  · simpa [Nat.add_assoc] using short
  · intro byte member
    rw [List.mem_append, List.mem_append] at member
    rcases member with (front | middle) | back
    · exact ascii byte front
    · exact named.ascii byte middle
    · exact asciiAfter byte back

theorem ascii_bytesOf (text : String) (small : ∀ c ∈ codes text, c < 0x80) :
    Ascii (bytesOf text) ∧ (bytesOf text).map UInt8.toNat = codes text := by
  have all : asciiBytes? 0 (codes text) = some (bytesOf text) := by
    rw [asciiBytes?, if_pos]
    · rfl
    · simpa using small
  obtain ⟨-, ascii, back, -⟩ := asciiBytes_ok all
  exact ⟨ascii, back⟩

theorem parseStructFields_adds {fields : List Obj}
    (named : ValidName name) (accepted : parseStructFields row name fields b = .ok b') :
    Adds b b' (fields.flatMap (readBackStructField (name.map UInt8.toNat))) := by
  induction fields generalizing b with
  | nil =>
      obtain rfl := Except.ok.inj accepted
      exact .nothing b
  | cons field rest induction =>
      rw [parseStructFields] at accepted
      split at accepted
      · next fieldName type offset isList =>
          obtain ⟨short, parsed, accepted⟩ := Packing.bind_ok accepted
          obtain ⟨fieldNamed, fieldBack⟩ := parseName_ok parsed
          split at accepted
          · cases accepted
          · next fitting =>
              obtain ⟨b₁, added, accepted⟩ := Packing.bind_ok accepted
              obtain ⟨dashAscii, dashBack⟩ := ascii_bytesOf "-" (by decide)
              have dashLength : (bytesOf "-").length = 1 := by decide
              have whole : ValidName (name ++ bytesOf "-" ++ short) := by
                rw [List.append_assoc, ← List.nil_append (name ++ _), ← List.append_assoc]
                refine named.join ?_ (by simp [Ascii]) ?_
                · simp only [List.length_nil, List.length_append, dashLength]
                  omega
                · intro byte member
                  rcases List.mem_append.mp member with dash | field
                  · exact dashAscii byte dash
                  · exact fieldNamed.ascii byte field
              have here := addField_adds whole added
              have row_eq : readBackStructField (name.map UInt8.toNat) field =
                  [readBackField ((name ++ bytesOf "-" ++ short).map UInt8.toNat) type offset] := by
                rw [readBackStructField, isList]
                simp only [List.map_append, dashBack, fieldBack]
              rw [List.flatMap_cons, row_eq]
              exact here.trans (induction accepted)
      · cases accepted

theorem parseStruct_adds {rest : List Obj}
    (named : ValidName name) (accepted : parseStruct row b name rest = .ok b') :
    ∃ size fields, rest = size :: fields ∧ Adds b b' (.ofList [keyword "VAR",
        .string (codes "*" ++ name.map UInt8.toNat ++ codes "-SIZE*"), size] ::
        fields.flatMap (readBackStructField (name.map UInt8.toNat))) := by
  unfold parseStruct at accepted
  split at accepted
  · next word fields =>
      refine ⟨_, fields, rfl, ?_⟩
      split at accepted
      · cases accepted
      · split at accepted
        · cases accepted
        · next fitting =>
            obtain ⟨b₁, added, accepted⟩ := Packing.bind_ok accepted
            obtain ⟨starAscii, starBack⟩ := ascii_bytesOf "*" (by decide)
            obtain ⟨sizeAscii, sizeBack⟩ := ascii_bytesOf "-SIZE*" (by decide)
            have starLength : (bytesOf "*").length = 1 := by decide
            have sizeLength : (bytesOf "-SIZE*").length = 6 := by decide
            have whole : ValidName (bytesOf "*" ++ name ++ bytesOf "-SIZE*") :=
              named.join (by omega) starAscii sizeAscii
            have first := addValue_adds whole
              (show addValue row b (if false = true then .const else .var) _ _ = _ from added)
            have canonical : canonicalValue (.integer (.fixnum word)) =
                .integer (.fixnum word) := by
              rw [canonicalValue, ClInt.toInt, canon_of_range (word_range word), clMakeFixnum_toInt]
            rw [canonical] at first
            simp only [nameString, List.map_append, starBack, sizeBack] at first
            exact first.trans (parseStructFields_adds named accepted)
  · cases accepted

theorem parseRow_adds {obj : Obj} (accepted : parseRow row b obj = .ok b') :
    ∃ back, Adds b b' back ∧ (rowInSyntax obj = true → back = readBack obj) := by
  unfold parseRow at accepted
  split at accepted
  · next kind nameObj rest isList =>
      obtain ⟨name, parsed, accepted⟩ := Packing.bind_ok accepted
      obtain ⟨named, back⟩ := parseName_ok parsed
      rw [rowInSyntax, readBack, isList]
      simp only [← back]
      split at accepted
      · next isValue =>
          have notOther : kwIs kind "FN" = false ∧ kwIs kind "FIELD" = false ∧
              kwIs kind "STRUCT" = false := by
            rcases isValue with is | is
            · exact ⟨kwIs_unique is (by decide), kwIs_unique is (by decide),
                kwIs_unique is (by decide)⟩
            · exact ⟨kwIs_unique is (by decide), kwIs_unique is (by decide),
                kwIs_unique is (by decide)⟩
          have kindIs : bareKeyword kind =
              keyword (if kwIs kind "CONST" then "CONST" else "VAR") := by
            split
            · next is => exact kwIs_bareKeyword is
            · next isNot => exact kwIs_bareKeyword (isValue.resolve_left isNot)
          split at accepted
          · next value =>
              refine ⟨_, addValue_adds named accepted, fun _ => ?_⟩
              simp only [nameString, notOther, Bool.false_eq_true, if_false, kindIs,
                List.map_cons, List.map_nil]
          · cases accepted
      · next notValue =>
          split at accepted
          · next isFn =>
              obtain ⟨lvo, regs, result, options, kept, rfl, added, same⟩ :=
                parseFn_adds named accepted
              refine ⟨_, added, fun inSyntax => ?_⟩
              simp only [isFn, if_true, List.drop_succ_cons, List.drop_zero] at inSyntax
              simp only [nameString, isFn, if_true, same inSyntax]
          · next notFn =>
              split at accepted
              · next isField =>
                  split at accepted
                  · next type offset =>
                      refine ⟨_, addField_adds named accepted, fun _ => ?_⟩
                      simp only [notFn, if_false, isField, if_true, Bool.false_eq_true]
                  · cases accepted
              · next notField =>
                  split at accepted
                  · next isStruct =>
                      obtain ⟨size, fields, rfl, added⟩ := parseStruct_adds named accepted
                      refine ⟨_, added, fun _ => ?_⟩
                      simp only [notFn, notField, if_false, isStruct, if_true, Bool.false_eq_true]
                  · next notStruct =>
                      split at accepted
                      · next isName =>
                          split at accepted
                          · obtain rfl := Except.ok.inj accepted
                            refine ⟨_, .record (b := b) rfl rfl (.name named), fun _ => ?_⟩
                            simp only [notFn, notField, notStruct, if_false, Bool.false_eq_true,
                              kwIs_bareKeyword isName, List.map_nil, nameString]
                          · cases accepted
                      · cases accepted
  · cases accepted

theorem parseRows_adds {rows : List Obj} (accepted : parseRows row rows b = .ok b') :
    ∃ back, Adds b b' back ∧
      ((∀ row ∈ rows, rowInSyntax row = true) → back = rows.flatMap readBack) := by
  induction rows generalizing row b with
  | nil =>
      obtain rfl := Except.ok.inj accepted
      exact ⟨[], .nothing b, fun _ => rfl⟩
  | cons obj rest induction =>
      obtain ⟨b₁, here, later⟩ := Packing.bind_ok accepted
      obtain ⟨first, added, same⟩ := parseRow_adds here
      obtain ⟨others, addedRest, sameRest⟩ := induction later
      refine ⟨first ++ others, added.trans addedRest, fun inSyntax => ?_⟩
      obtain ⟨inSyntaxHere, inSyntaxRest⟩ := List.forall_mem_cons.mp inSyntax
      rw [same inSyntaxHere, sameRest inSyntaxRest, List.flatMap_cons]

theorem nameLe_total (p q : List UInt8) : (nameLe p q || nameLe q p) = true := by
  induction p generalizing q with
  | nil => rfl
  | cons x xs induction =>
      cases q with
      | nil => rfl
      | cons y ys =>
          by_cases same : x = y
          · subst same
            simpa [nameLe] using induction ys
          · have flip : y ≠ x := fun equal => same equal.symm
            simp only [nameLe, same, flip, if_false, Bool.or_eq_true, decide_eq_true_eq,
              UInt8.lt_iff_toNat_lt]
            rw [← UInt8.toNat_inj] at same
            omega

theorem nameLe_trans {p q r : List UInt8} (first : nameLe p q = true)
    (second : nameLe q r = true) : nameLe p r = true := by
  induction p generalizing q r with
  | nil => rfl
  | cons x xs induction =>
      cases q with
      | nil => cases first
      | cons y ys =>
          cases r with
          | nil => cases second
          | cons z zs =>
              by_cases xy : x = y
              · by_cases yz : y = z
                · subst xy yz
                  simp only [nameLe, if_true] at first second ⊢
                  exact induction first second
                · subst xy
                  simpa [nameLe, yz] using second
              · simp only [nameLe, xy, if_false, decide_eq_true_eq] at first
                by_cases yz : y = z
                · subst yz
                  simpa [nameLe, xy] using first
                · simp only [nameLe, yz, if_false, decide_eq_true_eq] at second
                  have less : x < z := UInt8.lt_trans first second
                  have apart : x ≠ z := UInt8.ne_of_lt less
                  simpa [nameLe, apart] using less

theorem isChain_of_firstDuplicate {recs : List Rec} (none : firstDuplicate recs = none)
    (sorted : recs.Pairwise fun p q => nameLe p.name q.name = true) : recs.IsChain Follows := by
  induction recs with
  | nil => exact .nil
  | cons p recs induction =>
      cases recs with
      | nil => exact .singleton p
      | cons q rest =>
          rw [firstDuplicate] at none
          split at none
          · next may =>
              have ordered := List.rel_of_pairwise_cons sorted List.mem_cons_self
              exact .cons_cons ⟨ordered, may⟩ (induction none sorted.of_cons)
          · cases none

theorem rowName_of_stands {wide : List UInt8} {r : Rec} {row : Obj} (stands : Stands wide r row) :
    rowName row = r.name := by
  have back : ∀ name : List UInt8, (name.map UInt8.toNat).map UInt8.ofNat = name := by
    intro name
    rw [List.map_map]
    conv_rhs => rw [← List.map_id name]
    apply List.map_congr_left
    intro byte _
    exact UInt8.ofNat_toNat
  cases stands <;> exact back _

theorem forall₂_mergeSort {wide : List UInt8} {recs : List Rec} {rows : List Obj}
    (stands : List.Forall₂ (Stands wide) recs rows) :
    List.Forall₂ (Stands wide) (recs.mergeSort fun p q => nameLe p.name q.name)
      (rows.mergeSort fun p q => nameLe (rowName p) (rowName q)) := by
  -- sort the pairs of a record and its row: either side of the sorted pairs is sorted alone
  let pairs := recs.zip rows
  have sameLength := stands.length_eq
  have related : ∀ pair ∈ pairs, Stands wide pair.1 pair.2 := by
    intro pair member
    exact List.forall₂_iff_zip.mp stands |>.2 member
  have recs_eq : pairs.map Prod.fst = recs := List.map_fst_zip (le_of_eq sameLength)
  have rows_eq : pairs.map Prod.snd = rows := List.map_snd_zip (le_of_eq sameLength.symm)
  let byName : Rec × Obj → Rec × Obj → Bool := fun p q => nameLe p.1.name q.1.name
  have sortedRecs : (pairs.mergeSort byName).map Prod.fst =
      recs.mergeSort fun p q => nameLe p.name q.name := by
    rw [← recs_eq]
    exact List.map_mergeSort fun p _ q _ => rfl
  have sortedRows : (pairs.mergeSort byName).map Prod.snd =
      rows.mergeSort fun p q => nameLe (rowName p) (rowName q) := by
    rw [← rows_eq]
    apply List.map_mergeSort
    intro p pMember q qMember
    rw [rowName_of_stands (related p pMember), rowName_of_stands (related q qMember)]
  rw [← sortedRecs, ← sortedRows, List.forall₂_map_left_iff, List.forall₂_map_right_iff,
    List.forall₂_same]
  intro pair member
  exact related pair (List.mem_mergeSort.mp member)

theorem elements_ofList (rows : List Obj) : (Obj.ofList rows).elements = some rows := by
  induction rows with
  | nil => rfl
  | cons row rows induction => rw [Obj.ofList, Obj.elements, induction, Option.map_some]

/-- Every table that the packer makes is well formed.  One made of rows in the
documented syntax holds these rows, as they are read back, sorted by name, those of
one name in their order. -/
theorem pack_round_trip {rows : List Obj} {blob : List UInt8}
    (accepted : pack (.ofList rows) = .ok blob) :
    validateBlob blob = none ∧ ((∀ row ∈ rows, rowInSyntax row = true) →
        bindingTableEntries blob = .ok (tableRows rows)) := by
  rw [pack, elements_ofList] at accepted
  obtain ⟨b, parsed, made⟩ := Packing.bind_ok accepted
  obtain ⟨back, ⟨new, more, recs_eq, wide_eq, stands⟩, same⟩ := parseRows_adds parsed
  rw [List.nil_append] at recs_eq
  dsimp only at made
  split at made
  · cases made
  · next noDuplicate =>
      split at made
      · cases made
      · split at made
        · cases made
        · next sized noWrap =>
            obtain rfl := Except.ok.inj made
            rw [recs_eq] at noDuplicate sized noWrap ⊢
            rw [Nat.mod_eq_of_lt (by omega)] at sized
            have sorted : (new.mergeSort fun p q => nameLe p.name q.name).Pairwise
                fun p q => nameLe p.name q.name = true := by
              apply List.pairwise_mergeSort
              · intro p q r
                exact nameLe_trans
              · intro p q
                exact nameLe_total p.name q.name
            obtain ⟨valid, entries⟩ := blobOf_read (forall₂_mergeSort stands)
              (isChain_of_firstDuplicate noDuplicate sorted) b.hasLibcall (by omega)
            refine ⟨valid, fun inSyntax => ?_⟩
            rw [tableRows, ← same inSyntax]
            exact entries

/-- Two variants of a function around a structure, and a wide constant. -/
def windowRows : List Obj :=
  [.ofList [keyword "FN", .string (codes "SHOW"), .integer (clMakeFixnum (-834)),
      .ofList [keyword "A0", keyword "A1"], keyword "BOOL", keyword "NOT-MORPHOS",
      .integer (clMakeFixnum 46)],
    .ofList [keyword "STRUCT", .string (codes "WIN"), .integer (clMakeFixnum 136),
      .ofList [.string (codes "LEFT"), keyword "I16", .integer (clMakeFixnum 4)],
      .ofList [.string (codes "DATA"), .ofList [keyword "STRUCT", .integer (clMakeFixnum 4)],
        .integer (clMakeFixnum 120)]],
    .ofList [keyword "FN", .string (codes "SHOW"), .integer (clMakeFixnum (-840)), .nil,
      keyword "VOID", keyword "MORPHOS"],
    .ofList [keyword "CONST", .string (codes "BIG"), .integer (.bignum true [7, 0, 16])]]

def showRec : Rec :=
  ⟨bytesOf "SHOW", .libcall, flagNotMorphos, 2, 46, 0x40000098, -834, none⟩

def showMorphosRec : Rec :=
  ⟨bytesOf "SHOW", .libcall, flagMorphos, 0, 0, 0x10000000, -840, none⟩

def winSizeRec : Rec := ⟨bytesOf "*WIN-SIZE*", .var, 0, 0, 0, 136, 0, none⟩

def winLeftRec : Rec := ⟨bytesOf "WIN-LEFT", .field, 0, 3, stubPeek, 4, 0, none⟩

def winDataRec : Rec := ⟨bytesOf "WIN-DATA", .field, 0, 0, stubFieldPtr, 120, 0, none⟩

def bigRec : Rec := ⟨bytesOf "BIG", .const, flagWide, 0, 0, 0, 0, some 0⟩

theorem windowRows_packed : ∃ blob, pack (.ofList windowRows) = .ok blob := by
  have parsed : parseRows 1 windowRows ⟨[], [], false⟩ =
      .ok ⟨[showRec, winSizeRec, winLeftRec, winDataRec, showMorphosRec, bigRec],
        [5, 1, 16, 0, 0, 0, 7], true⟩ := by
    decide +kernel
  have sorted : ([showRec, winSizeRec, winLeftRec, winDataRec, showMorphosRec, bigRec].mergeSort
      fun p q => nameLe p.name q.name) =
        [winSizeRec, bigRec, showRec, showMorphosRec, winDataRec, winLeftRec] := by
    simp [List.mergeSort, List.MergeSort.Internal.splitInTwo, showRec, showMorphosRec, winSizeRec,
      winLeftRec, winDataRec, bigRec, bytesOf, codes, nameLe]
  rw [pack, elements_ofList]
  simp only [parsed, bind, Except.bind, sorted]
  exact ⟨_, rfl⟩

/-- Several rows of one library, two of them of one name and out of order. -/
theorem pack_round_trip_window :
    ∃ blob, pack (.ofList windowRows) = .ok blob ∧ validateBlob blob = none ∧
      bindingTableEntries blob = .ok (tableRows windowRows) := by
  obtain ⟨blob, accepted⟩ := windowRows_packed
  obtain ⟨valid, entries⟩ := pack_round_trip accepted
  exact ⟨blob, accepted, valid, entries (by decide)⟩

def symbolName : Obj :=
  .ofList [keyword "NAME", .symbol false (codes "BLT-BITMAP")]

/-- A name may be given as a symbol, and is read back as a string. -/
theorem symbol_read_as_string : ∃ blob, pack (.ofList [symbolName]) = .ok blob ∧
      bindingTableEntries blob = .ok [.ofList [keyword "NAME", .string (codes "BLT-BITMAP")]] ∧
      symbolName ≠ .ofList [keyword "NAME", .string (codes "BLT-BITMAP")] := by
  refine ⟨(pack (.ofList [symbolName])).toOption.getD [], ?_, ?_, ?_⟩ <;> decide +kernel

end ClAmiga.BindTab
