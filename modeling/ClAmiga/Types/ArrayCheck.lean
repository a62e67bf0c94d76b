import ClAmiga.Types.ArraySpecifier

/-!
# Compound array specifiers against the atomic ones

A compound specifier should narrow its head by the element class, the rank and
the dimensions.  The branches of TYPEP do so but for the kinds of inputs that are
listed here.
-/

namespace ClAmiga.Types.Arrays

open Number (clFixnumMax clFixnumMin InFixnumRange)

/-- The arguments of a specifier that are present: the element type, and the
dimensions, where a size is a list of one. -/
structure Arguments where
  elt : Option Form
  dims : Option Form

def Head.hasElt : Head → Bool
  | .vector | .array | .simpleArray => true
  | _ => false

/-- A size, or for arrays the dimensions. -/
def Head.dims (head : Head) (arg : Form) : Form :=
  match head with
  | .array | .simpleArray => arg
  | _ => .list [arg]

def Head.readElt (head : Head) : Form → Option Arguments
  | .nil => some ⟨none, none⟩
  | .cons et .nil => some ⟨some et, none⟩
  | .cons et (.cons arg _) => some ⟨some et, some (head.dims arg)⟩
  | _ => none

def Head.readSize (head : Head) : Form → Option Arguments
  | .nil => some ⟨none, none⟩
  | .cons arg _ => some ⟨none, some (head.dims arg)⟩
  | _ => none

/-- The arguments of a head, unless they are no list. -/
def Head.arguments (head : Head) (args : Form) : Option Arguments :=
  if head.hasElt then head.readElt args else head.readSize args

/-- A dimension that is a number is the one of the array. -/
def dimMatches (dim : Nat) : Form → Bool
  | .integer n => decide ((dim : Int) = n)
  | _ => true

/-- A list of dimensions is as long as the rank, and each of them matches. -/
def dimsMatch : List Nat → Form → Bool
  | [], .nil => true
  | dim :: dims, .cons arg args => dimMatches dim arg && dimsMatch dims args
  | _, _ => false

/-- The rank or the dimensions of the array are those given. -/
def DimsAdmit (x : Obj) : Option Form → Prop
  | none => True
  | some (.integer rank) => (x.rank : Int) = rank
  | some .nil => dimsMatch x.dimensions .nil = true
  | some (.cons arg args) => dimsMatch x.dimensions (.cons arg args) = true
  | some _ => True

section

variable (expand : Symbol → Option Form) (others : Obj → Form → Option Bool)

/-- The element type given upgrades to the class that the array stores, or is `*`. -/
def EltAdmits (x : Obj) : Option Form → Prop
  | none => True
  | some et => ∃ want, eltSpecClass expand et = some want ∧
      (want = .wild ∨ objEltClass x = want)

def Narrows (x : Obj) (head : Head) (args : Form) : Prop :=
  typepCheck expand others x (.cl head.name) = some true ∧
    ∃ arguments, head.arguments args = some arguments ∧
      EltAdmits expand x arguments.elt ∧ DimsAdmit x arguments.dims

def classTested (x : Obj) : Head → Bool
  | .string | .simpleString | .baseString | .simpleBaseString => x.anyStringP
  | .bitVector | .simpleBitVector => x.bitVectorP
  | head => typepBuiltinCode x head

/-- No size, or one that the test of the size lets pass. -/
def SizePasses (x : Obj) : Form → Prop
  | .nil => True
  | .cons size _ => sizeMatches x.length size = true
  | _ => False

def IsBignum : Form → Prop
  | .integer n => ¬ InFixnumRange n
  | _ => False

/-- The kinds of inputs on which the branches go wrong. -/
inductive Misjudged (x : Obj) (head : Head) (args : Form) : Prop
  /-- a wide string as a base string, or a bit vector that is not simple as a simple one -/
  | otherClass (tested : classTested x head = true) (other : typepBuiltinCode x head = false)
      (passes : SizePasses x args)
  /-- a character vector with a fill pointer, as a string -/
  | stringVector (untested : classTested x head = false)
      (same : typepBuiltinCode x head = true) {arguments : Arguments}
      (read : head.arguments args = some arguments) (dims : DimsAdmit x arguments.dims)
  /-- a size or a rank that no array has -/
  | bignum (same : typepBuiltinCode x head = true) (tested : classTested x head = true)
      {elt : Option Form} {arg : Form}
      (read : head.arguments args = some ⟨elt, some (head.dims arg)⟩)
      (bignum : IsBignum arg) (admits : EltAdmits expand x elt)
  /-- the rank 0 or 1 of a general vector, whose field is 0 -/
  | vectorRank (isArray : head = .array ∨ head = .simpleArray)
      (same : typepBuiltinCode x head = true) {v : Vec} (vector : x = .vector v) (low : v.rank = 0)
      {elt : Option Form} {rank : Int}
      (read : head.arguments args = some ⟨elt, some (.integer rank)⟩)
      (zeroOrOne : rank = 0 ∨ rank = 1) (admits : EltAdmits expand x elt)
  /-- a list of dimensions that are not those of the array -/
  | dimensionList (isArray : head = .array ∨ head = .simpleArray)
      (same : typepBuiltinCode x head = true) {elt : Option Form} {list : Form}
      (read : head.arguments args = some ⟨elt, some list⟩)
      (isList : list = .nil ∨ ∃ car cdr, list = .cons car cdr)
      (different : dimsMatch x.dimensions list = false) (admits : EltAdmits expand x elt)

end

theorem sizeMatches_integer {n : Nat} {size : Int} (small : (n : Int) ≤ clFixnumMax)
    (fixnum : InFixnumRange size) :
    sizeMatches n (.integer size) = true ↔ (n : Int) = size := by
  rw [sizeMatches, if_pos fixnum, decide_eq_true_iff]
  obtain ⟨low, high⟩ := fixnum
  unfold clFixnumMax clFixnumMin at *
  omega

theorem sizeMatches_bignum {n : Nat} {arg : Form} (bignum : IsBignum arg) :
    sizeMatches n arg = true := by
  cases arg with
  | integer size => exact if_neg bignum
  | _ => exact bignum.elim

theorem dimMatches_bignum {n : Nat} {arg : Form} (small : (n : Int) ≤ clFixnumMax)
    (bignum : IsBignum arg) : dimMatches n arg = false := by
  cases arg with
  | integer size =>
      rw [dimMatches, decide_eq_false_iff_not]
      rintro rfl
      refine bignum ⟨?_, small⟩
      unfold clFixnumMin
      omega
  | _ => exact bignum.elim

theorem dimMatches_iff {n : Nat} (small : (n : Int) ≤ clFixnumMax) (arg : Form) :
    dimMatches n arg = true ↔ sizeMatches n arg = true ∧ ¬ IsBignum arg := by
  cases arg with
  | integer size =>
      by_cases fixnum : InFixnumRange size
      · rw [sizeMatches_integer small fixnum, dimMatches, decide_eq_true_iff]
        exact (and_iff_left fun bignum => bignum fixnum).symm
      · rw [@dimMatches_bignum n (.integer size) small fixnum]
        exact iff_of_false Bool.false_ne_true fun both => both.2 fixnum
  | nil => exact iff_of_true rfl ⟨rfl, id⟩
  | symbol => exact iff_of_true rfl ⟨rfl, id⟩
  | cons => exact iff_of_true rfl ⟨rfl, id⟩
  | other => exact iff_of_true rfl ⟨rfl, id⟩

theorem Obj.length_le (x : Obj) : (x.length : Int) ≤ clFixnumMax := by
  cases x with
  | string _ length => exact length.2
  | bitVector length => exact length.2
  | byteVector length => exact length.2
  | vector v => exact v.length.2
  | other => exact (by decide : (0 : Int) ≤ clFixnumMax)

theorem Obj.rank_small (x : Obj) : x.rank < 256 := by
  cases x with
  | vector v =>
      rw [Obj.rank]
      split
      · exact v.byte
      · decide
  | _ => exact (by decide : 1 < 256)

theorem rankField_small (x : Obj) : rankField x < 256 := by
  cases x with
  | vector v => exact v.byte
  | _ => exact (by decide : 1 < 256)

theorem dimsAdmit_size {x : Obj} (flat : x.dimensions = [x.length]) (arg : Form) :
    DimsAdmit x (some (.list [arg])) ↔ sizeMatches x.length arg = true ∧ ¬ IsBignum arg := by
  rw [← dimMatches_iff x.length_le]
  change dimsMatch x.dimensions (.cons arg .nil) = true ↔ _
  rw [flat, dimsMatch, dimsMatch, Bool.and_true]

def WrongDims (x : Obj) (arg : Form) : Prop :=
  IsBignum arg ∨
    (∃ v, x = .vector v ∧ v.rank = 0 ∧ (arg = .integer 0 ∨ arg = .integer 1)) ∨
    ((arg = .nil ∨ ∃ car cdr, arg = .cons car cdr) ∧ dimsMatch x.dimensions arg = false)

theorem rankField_iff (x : Obj) (rank : Int) :
    (((rankField x : Nat) : Int) = rank ↔ (x.rank : Int) = rank) ↔
      ¬ ∃ v, x = .vector v ∧ v.rank = 0 ∧ (rank = 0 ∨ rank = 1) := by
  cases x with
  | vector v =>
      have field : rankField (.vector v) = v.rank := rfl
      have reported : Obj.rank (.vector v) = if v.rank > 1 then v.rank else 1 := rfl
      rw [field, reported]
      constructor
      · rintro same ⟨_, vector, low, zeroOrOne⟩
        cases vector
        rw [low, if_neg (by decide)] at same
        omega
      · intro other
        by_cases high : v.rank > 1
        · rw [if_pos high]
        · rw [if_neg high]
          by_cases low : v.rank = 0
          · have neither : ¬ (rank = 0 ∨ rank = 1) := fun zeroOrOne =>
              other ⟨v, rfl, low, zeroOrOne⟩
            omega
          · omega
  | _ => exact iff_of_true Iff.rfl nofun

theorem WrongDims.kind {x : Obj} {arg : Form} (wrong : WrongDims x arg) :
    (∃ n, arg = .integer n) ∨ arg = .nil ∨ ∃ car cdr, arg = .cons car cdr := by
  rcases wrong with bignum | ⟨_, _, _, equal | equal⟩ | ⟨isList, _⟩
  · cases arg with
    | integer n => exact .inl ⟨n, rfl⟩
    | _ => exact bignum.elim
  · exact .inl ⟨0, equal⟩
  · exact .inl ⟨1, equal⟩
  · exact .inr isList

theorem dimsAdmit_list {x : Obj} {arg : Form}
    (isList : arg = .nil ∨ ∃ car cdr, arg = .cons car cdr) :
    (sizeMatches (rankField x) arg = true ↔ DimsAdmit x (some arg)) ↔ ¬ WrongDims x arg := by
  have passes : sizeMatches (rankField x) arg = true := by
    rcases isList with rfl | ⟨car, cdr, rfl⟩ <;> rfl
  have admits : DimsAdmit x (some arg) ↔ dimsMatch x.dimensions arg = true := by
    rcases isList with rfl | ⟨car, cdr, rfl⟩ <;> exact Iff.rfl
  rw [admits, iff_true_left passes]
  constructor
  · rintro same (bignum | ⟨_, _, _, integer⟩ | ⟨_, different⟩)
    · rcases isList with rfl | ⟨car, cdr, rfl⟩ <;> exact bignum
    · rcases isList with rfl | ⟨car, cdr, rfl⟩ <;> rcases integer with equal | equal <;> cases equal
    · rw [same] at different
      cases different
  · intro right
    rw [← Bool.not_eq_false]
    exact fun different => right (.inr (.inr ⟨isList, different⟩))

theorem dimsAdmit_iff (x : Obj) (arg : Form) :
    (sizeMatches (rankField x) arg = true ↔ DimsAdmit x (some arg)) ↔ ¬ WrongDims x arg := by
  cases arg with
  | nil => exact dimsAdmit_list (.inl rfl)
  | cons car cdr => exact dimsAdmit_list (.inr ⟨car, cdr, rfl⟩)
  | symbol s =>
      refine iff_of_true (iff_of_true rfl trivial) fun wrong => ?_
      rcases wrong.kind with ⟨_, equal⟩ | equal | ⟨_, _, equal⟩ <;> cases equal
  | other identity =>
      refine iff_of_true (iff_of_true rfl trivial) fun wrong => ?_
      rcases wrong.kind with ⟨_, equal⟩ | equal | ⟨_, _, equal⟩ <;> cases equal
  | integer rank =>
      have admits : DimsAdmit x (some (.integer rank)) ↔ (x.rank : Int) = rank := Iff.rfl
      by_cases fixnum : InFixnumRange rank
      · have small : ((rankField x : Nat) : Int) ≤ clFixnumMax := by
          have bound := rankField_small x
          unfold clFixnumMax
          omega
        rw [admits, sizeMatches_integer small fixnum, rankField_iff]
        refine not_congr ⟨?_, ?_⟩
        · rintro ⟨v, vector, low, zeroOrOne⟩
          refine .inr (.inl ⟨v, vector, low, ?_⟩)
          rcases zeroOrOne with rfl | rfl
          · exact .inl rfl
          · exact .inr rfl
        · rintro (bignum | ⟨v, vector, low, equal⟩ | ⟨isList, _⟩)
          · exact absurd fixnum bignum
          · refine ⟨v, vector, low, ?_⟩
            rcases equal with equal | equal
            · exact .inl (Form.integer.inj equal)
            · exact .inr (Form.integer.inj equal)
          · rcases isList with equal | ⟨_, _, equal⟩ <;> cases equal
      · have other : ¬ (x.rank : Int) = rank := by
          rintro rfl
          have bound := x.rank_small
          refine fixnum ⟨?_, ?_⟩
          · unfold clFixnumMin
            omega
          · unfold clFixnumMax
            omega
        rw [admits, iff_true_left (@sizeMatches_bignum (rankField x) (.integer rank) fixnum)]
        exact iff_of_false other (not_not.mpr (.inl fixnum))

section

variable {expand : Symbol → Option Form} {others : Obj → Form → Option Bool} {x : Obj} {args : Form}

theorem ofSymbol_name (head : Head) : Head.ofSymbol (.cl head.name) = some head := by
  cases head <;> decide

theorem typepCheck_atomic (head : Head) :
    typepCheck expand others x (.cl head.name) = some (typepBuiltinCode x head) := by
  rw [Form.cl, typepCheck, ofSymbol_name]

theorem typepCheck_compound (head : Head) :
    typepCheck expand others x (.cons (.cl head.name) args) = typepCompound expand x head args := by
  rw [Form.cl, typepCheck, ofSymbol_name]

theorem sizeArgument_iff : sizeArgument x args = some true ↔ SizePasses x args := by
  cases args with
  | nil => exact iff_of_true rfl trivial
  | cons size rest => exact Option.some_inj
  | symbol => exact iff_of_false nofun id
  | integer => exact iff_of_false nofun id
  | other => exact iff_of_false nofun id

theorem eltMatches_iff (et : Form) :
    eltMatches expand x et = some true ↔ EltAdmits expand x (some et) := by
  rw [eltMatches, EltAdmits]
  cases eltSpecClass expand et with
  | none => exact iff_of_false nofun nofun
  | some want =>
      constructor
      · intro admitted
        refine ⟨want, rfl, ?_⟩
        have both := Option.some.inj admitted
        rw [Bool.or_eq_true, beq_iff_eq, beq_iff_eq] at both
        exact both
      · rintro ⟨_, same, admitted⟩
        cases same
        refine congrArg some ?_
        rw [Bool.or_eq_true, beq_iff_eq, beq_iff_eq]
        exact admitted

def RestPasses (number : Nat) (rest : Form) : Prop :=
  rest = .nil ∨ ∃ arg more, rest = .cons arg more ∧ sizeMatches number arg = true

theorem eltArguments_iff (number : Nat) : eltArguments expand x number args = some true ↔
      args = .nil ∨ ∃ et rest, args = .cons et rest ∧ EltAdmits expand x (some et) ∧
        RestPasses number rest := by
  cases args with
  | nil => exact iff_of_true rfl (.inl rfl)
  | symbol => exact iff_of_false nofun nofun
  | integer => exact iff_of_false nofun nofun
  | other => exact iff_of_false nofun nofun
  | cons et rest =>
      have only : (Form.cons et rest = .nil ∨ ∃ et' rest', Form.cons et rest = .cons et' rest' ∧
          EltAdmits expand x (some et') ∧ RestPasses number rest') ↔
          EltAdmits expand x (some et) ∧ RestPasses number rest := by
        constructor
        · rintro (equal | ⟨_, _, equal, both⟩)
          · cases equal
          · cases equal
            exact both
        · exact fun both => .inr ⟨et, rest, rfl, both⟩
      rw [only, ← eltMatches_iff, eltArguments]
      · simp only [Form.clCar_cons, Form.clCdr_cons, Option.bind_eq_bind, Option.bind_some]
        cases eltMatches expand x et with
        | none => exact iff_of_false nofun fun both => nomatch both.1
        | some admitted =>
            cases admitted with
            | false => exact iff_of_false nofun fun both => nomatch both.1
            | true =>
                rw [and_iff_right rfl]
                cases rest with
                | nil => exact iff_of_true rfl (.inl rfl)
                | cons arg more =>
                    refine Option.some_inj.trans ⟨fun passes => .inr ⟨arg, more, rfl, passes⟩, ?_⟩
                    rintro (equal | ⟨_, _, equal, passes⟩)
                    · cases equal
                    · cases equal
                      exact passes
                | symbol => exact iff_of_false nofun nofun
                | integer => exact iff_of_false nofun nofun
                | other => exact iff_of_false nofun nofun
      · exact nofun

def number (x : Obj) : Head → Nat
  | .array | .simpleArray => rankField x
  | _ => x.length

/-- The last argument lets an object pass that it should not, or the other way. -/
def WrongArg (x : Obj) : Head → Form → Prop
  | .array, arg | .simpleArray, arg => WrongDims x arg
  | _, arg => IsBignum arg

/-- What is left of the last argument in the branches. -/
def NumberPasses (x : Obj) (head : Head) (dims : Option Form) : Prop :=
  dims = none ∨ ∃ arg, dims = some (head.dims arg) ∧ sizeMatches (number x head) arg = true

variable {head : Head}

theorem Head.dims_injective {arg other : Form}
    (same : head.dims arg = head.dims other) : arg = other := by
  cases head with
  | array => exact same
  | simpleArray => exact same
  | _ => exact (Form.cons.inj same).1

theorem numberPasses_some (x : Obj) (head : Head) (arg : Form) :
    NumberPasses x head (some (head.dims arg)) ↔ sizeMatches (number x head) arg = true := by
  constructor
  · rintro (equal | ⟨other, same, passes⟩)
    · cases equal
    · rw [Head.dims_injective (Option.some.inj same)]
      exact passes
  · exact fun passes => .inr ⟨arg, rfl, passes⟩

theorem readElt_dims {elt : Option Form} {dims : Form}
    (read : head.readElt args = some ⟨elt, some dims⟩) : ∃ arg, dims = head.dims arg := by
  match args, read with
  | .cons _ (.cons arg _), read =>
      cases read
      exact ⟨arg, rfl⟩

theorem readSize_dims {elt : Option Form} {dims : Form}
    (read : head.readSize args = some ⟨elt, some dims⟩) : ∃ arg, dims = head.dims arg := by
  match args, read with
  | .cons arg _, read =>
      cases read
      exact ⟨arg, rfl⟩

theorem arguments_dims {elt : Option Form} {dims : Form}
    (read : head.arguments args = some ⟨elt, some dims⟩) : ∃ arg, dims = head.dims arg := by
  rw [Head.arguments] at read
  cases kind : head.hasElt with
  | true =>
      rw [kind, if_pos rfl] at read
      exact readElt_dims read
  | false =>
      rw [kind, if_neg Bool.false_ne_true] at read
      exact readSize_dims read

theorem readSize_elt {arguments : Arguments}
    (read : head.readSize args = some arguments) : arguments.elt = none := by
  match args, read with
  | .nil, read =>
      cases read
      rfl
  | .cons _ _, read =>
      cases read
      rfl

theorem sizePasses_iff (sized : head.hasElt = false) :
    SizePasses x args ↔ ∃ arguments, head.readSize args = some arguments ∧
      EltAdmits expand x arguments.elt ∧ NumberPasses x head arguments.dims := by
  have length : number x head = x.length := by
    cases head with
    | array => cases sized
    | simpleArray => cases sized
    | _ => rfl
  cases args with
  | nil => exact iff_of_true trivial ⟨_, rfl, trivial, .inl rfl⟩
  | cons arg rest =>
      rw [SizePasses, ← length, ← numberPasses_some]
      constructor
      · exact fun passes => ⟨_, rfl, trivial, passes⟩
      · rintro ⟨_, read, _, passes⟩
        cases read
        exact passes
  | symbol => exact iff_of_false id nofun
  | integer => exact iff_of_false id nofun
  | other => exact iff_of_false id nofun

theorem restPasses_iff :
    (args = .nil ∨ ∃ et rest, args = .cons et rest ∧ EltAdmits expand x (some et) ∧
        RestPasses (number x head) rest) ↔
      ∃ arguments, head.readElt args = some arguments ∧
        EltAdmits expand x arguments.elt ∧ NumberPasses x head arguments.dims := by
  constructor
  · rintro (rfl | ⟨et, rest, rfl, admits, rfl | ⟨arg, more, rfl, passes⟩⟩)
    · exact ⟨_, rfl, trivial, .inl rfl⟩
    · exact ⟨_, rfl, admits, .inl rfl⟩
    · exact ⟨_, rfl, admits, (numberPasses_some x head arg).mpr passes⟩
  · rintro ⟨arguments, read, admits, passes⟩
    match args, read with
    | .nil, _ => exact .inl rfl
    | .cons et .nil, read =>
        cases read
        exact .inr ⟨et, .nil, rfl, admits, .inl rfl⟩
    | .cons et (.cons arg more), read =>
        cases read
        exact .inr ⟨et, _, rfl, admits, .inr ⟨arg, more, rfl,
          (numberPasses_some x head arg).mp passes⟩⟩

theorem branch_iff {tested : Bool} {arguments : Option Bool} :
    (if !tested then some false else arguments) = some true ↔
      tested = true ∧ arguments = some true := by
  cases tested with
  | true => exact (and_iff_right rfl).symm
  | false => exact iff_of_false nofun nofun

theorem typepCompound_iff (head : Head) :
    typepCompound expand x head args = some true ↔ classTested x head = true ∧
      ∃ arguments, head.arguments args = some arguments ∧
        EltAdmits expand x arguments.elt ∧ NumberPasses x head arguments.dims := by
  have sized {tested : Bool} (size : head.hasElt = false) :
      (if !tested then some false else sizeArgument x args) = some true ↔ tested = true ∧
        ∃ arguments, head.arguments args = some arguments ∧
          EltAdmits expand x arguments.elt ∧ NumberPasses x head arguments.dims := by
    rw [branch_iff, sizeArgument_iff, sizePasses_iff size, Head.arguments, size,
      if_neg Bool.false_ne_true]
  have typed {tested : Bool} (elt : head.hasElt = true) :
      (if !tested then some false else eltArguments expand x (number x head) args) = some true ↔
        tested = true ∧ ∃ arguments, head.arguments args = some arguments ∧
          EltAdmits expand x arguments.elt ∧ NumberPasses x head arguments.dims := by
    rw [branch_iff, eltArguments_iff, restPasses_iff, Head.arguments, elt, if_pos rfl]
  cases head with
  | vector => exact typed rfl
  | array => exact typed rfl
  | simpleArray => exact typed rfl
  | _ => exact sized rfl

theorem narrows_iff (head : Head) :
    Narrows expand others x head args ↔ typepBuiltinCode x head = true ∧
      ∃ arguments, head.arguments args = some arguments ∧
        EltAdmits expand x arguments.elt ∧ DimsAdmit x arguments.dims := by
  rw [Narrows, typepCheck_atomic, Option.some_inj]

theorem hasElt_of_untested
    (different : classTested x head ≠ typepBuiltinCode x head) : head.hasElt = false := by
  cases head with
  | vector => exact absurd rfl different
  | array => exact absurd rfl different
  | simpleArray => exact absurd rfl different
  | _ => rfl

theorem dimensions_of_tested (same : typepBuiltinCode x head = true)
    (tested : classTested x head = true) (notArray : ¬ (head = .array ∨ head = .simpleArray)) :
    x.dimensions = [x.length] := by
  cases x with
  | vector v =>
      have flat : v.rank ≤ 1 := by
        cases head with
        | vector => exact of_decide_eq_true same
        | simpleVector => exact of_decide_eq_true (Bool.and_eq_true_iff.mp same).1
        | array => exact absurd (.inl rfl) notArray
        | simpleArray => exact absurd (.inr rfl) notArray
        | _ => cases tested
      exact if_neg (Nat.not_lt.mpr flat)
  | _ => rfl

theorem numberPasses_admits (same : typepBuiltinCode x head = true)
    (tested : classTested x head = true) (arg : Form) :
    (sizeMatches (number x head) arg = true ↔ DimsAdmit x (some (head.dims arg))) ↔
      ¬ WrongArg x head arg := by
  by_cases isArray : head = .array ∨ head = .simpleArray
  · rcases isArray with rfl | rfl
    · exact dimsAdmit_iff x arg
    · exact dimsAdmit_iff x arg
  · have flat := dimensions_of_tested same tested isArray
    have size : (sizeMatches x.length arg = true ↔ DimsAdmit x (some (.list [arg]))) ↔
        ¬ IsBignum arg := by
      rw [dimsAdmit_size flat]
      constructor
      · exact fun both bignum => (both.mp (sizeMatches_bignum bignum)).2 bignum
      · exact fun fixnum => (and_iff_left fixnum).symm
    cases head with
    | array => exact absurd (.inl rfl) isArray
    | simpleArray => exact absurd (.inr rfl) isArray
    | _ => exact size

theorem misjudged_iff (same : typepBuiltinCode x head = true) (tested : classTested x head = true) :
    Misjudged expand x head args ↔ ∃ elt arg,
      head.arguments args = some ⟨elt, some (head.dims arg)⟩ ∧ EltAdmits expand x elt ∧
        WrongArg x head arg := by
  constructor
  · intro wrong
    cases wrong with
    | otherClass _ other =>
        rw [same] at other
        cases other
    | stringVector untested =>
        rw [tested] at untested
        cases untested
    | @bignum _ _ elt arg read bignum admits =>
        refine ⟨elt, arg, read, admits, ?_⟩
        cases head with
        | array => exact .inl bignum
        | simpleArray => exact .inl bignum
        | _ => exact bignum
    | @vectorRank isArray _ v vector low elt rank read zeroOrOne admits =>
        have wrongDims : WrongDims x (.integer rank) := by
          refine .inr (.inl ⟨v, vector, low, ?_⟩)
          rcases zeroOrOne with rfl | rfl
          · exact .inl rfl
          · exact .inr rfl
        rcases isArray with rfl | rfl
        · exact ⟨elt, _, read, admits, wrongDims⟩
        · exact ⟨elt, _, read, admits, wrongDims⟩
    | @dimensionList isArray _ elt list read isList different admits =>
        rcases isArray with rfl | rfl
        · exact ⟨elt, _, read, admits, .inr (.inr ⟨isList, different⟩)⟩
        · exact ⟨elt, _, read, admits, .inr (.inr ⟨isList, different⟩)⟩
  · rintro ⟨elt, arg, read, admits, wrong⟩
    by_cases isArray : head = .array ∨ head = .simpleArray
    · have dims : head.dims arg = arg := by
        rcases isArray with rfl | rfl <;> rfl
      have wrongDims : WrongDims x arg := by
        rcases isArray with rfl | rfl <;> exact wrong
      rcases wrongDims with bignum | ⟨v, vector, low, equal⟩ | ⟨isList, different⟩
      · exact .bignum same tested read bignum admits
      · rw [dims] at read
        rcases equal with rfl | rfl
        · exact .vectorRank isArray same vector low read (.inl rfl) admits
        · exact .vectorRank isArray same vector low read (.inr rfl) admits
      · rw [dims] at read
        exact .dimensionList isArray same read isList different admits
    · refine .bignum same tested read ?_ admits
      cases head with
      | array => exact absurd (.inl rfl) isArray
      | simpleArray => exact absurd (.inr rfl) isArray
      | _ => exact wrong

/-- A compound array specifier narrows the atomic one exactly if the input is of none of the
kinds. -/
theorem typepCheck_narrows_iff (expand : Symbol → Option Form)
    (others : Obj → Form → Option Bool) (x : Obj) (head : Head) (args : Form) :
    (typepCheck expand others x (.cons (.cl head.name) args) = some true ↔
      Narrows expand others x head args) ↔ ¬ Misjudged expand x head args := by
  rw [typepCheck_compound, typepCompound_iff, narrows_iff]
  cases tested : classTested x head with
  | true =>
      cases same : typepBuiltinCode x head with
      | true =>
          rw [misjudged_iff same tested, and_iff_right rfl, and_iff_right rfl]
          cases read : head.arguments args with
          | none => exact iff_of_true (iff_of_false nofun nofun) nofun
          | some arguments =>
              obtain ⟨elt, dims⟩ := arguments
              simp only [Option.some.injEq, exists_eq_left']
              cases dims with
              | none =>
                  refine iff_of_true (and_congr_right fun _ => iff_of_true (.inl rfl) trivial) ?_
                  rintro ⟨_, _, equal, _⟩
                  cases equal
              | some dims =>
                  obtain ⟨arg, rfl⟩ := arguments_dims read
                  have judged := numberPasses_admits same tested arg
                  have only : (∃ elt' arg', Arguments.mk elt (some (head.dims arg)) =
                      ⟨elt', some (head.dims arg')⟩ ∧ EltAdmits expand x elt' ∧
                        WrongArg x head arg') ↔ EltAdmits expand x elt ∧ WrongArg x head arg := by
                    constructor
                    · rintro ⟨elt', arg', equal, admits, wrong⟩
                      obtain ⟨rfl, dims⟩ := Arguments.mk.inj equal
                      rw [Head.dims_injective (Option.some.inj dims)]
                      exact ⟨admits, wrong⟩
                    · exact fun both => ⟨elt, arg, rfl, both⟩
                  rw [only, numberPasses_some]
                  by_cases admits : EltAdmits expand x elt
                  · rw [and_iff_right admits, and_iff_right admits, and_iff_right admits]
                    exact judged
                  · exact iff_of_true (iff_of_false (fun both => admits both.1)
                      fun both => admits both.1) fun both => admits both.1
      | false =>
          have sized := hasElt_of_untested (by rw [tested, same]; exact Bool.false_ne_true.symm)
          have passes := @sizePasses_iff expand x args head sized
          rw [and_iff_right rfl, Head.arguments, sized, if_neg Bool.false_ne_true, ← passes]
          refine (iff_false_right fun both => Bool.false_ne_true both.1).trans (not_congr ?_)
          refine ⟨fun size => .otherClass tested same size, fun wrong => ?_⟩
          cases wrong with
          | otherClass _ _ size => exact size
          | stringVector _ builtin => rw [same] at builtin; cases builtin
          | bignum builtin => rw [same] at builtin; cases builtin
          | vectorRank _ builtin => rw [same] at builtin; cases builtin
          | dimensionList _ builtin => rw [same] at builtin; cases builtin
  | false =>
      refine (iff_false_left fun both => Bool.false_ne_true both.1).trans (not_congr ?_)
      refine ⟨?_, fun wrong => ?_⟩
      · rintro ⟨same, arguments, read, _, dims⟩
        exact .stringVector tested same read dims
      · cases wrong with
        | otherClass other => rw [tested] at other; cases other
        | @stringVector _ same arguments read dims =>
            have sized : head.hasElt = false :=
              hasElt_of_untested (by rw [tested, same]; exact Bool.false_ne_true)
            refine ⟨same, arguments, read, ?_, dims⟩
            rw [Head.arguments, sized, if_neg Bool.false_ne_true] at read
            rw [readSize_elt read]
            trivial
        | bignum _ other => rw [tested] at other; cases other
        | vectorRank isArray builtin =>
            rcases isArray with rfl | rfl <;> exact absurd (tested.symm.trans builtin) (by decide)
        | dimensionList isArray builtin =>
            rcases isArray with rfl | rfl <;> exact absurd (tested.symm.trans builtin) (by decide)

end

def threeElements : Obj :=
  .vector ⟨⟨3, by decide⟩, .none, 0, .t, [], by decide, nofun⟩

/-- `(typep #(1 2 3) '(array t 1))` does not hold. -/
theorem rank_one_rejected :
    ¬ ∀ (expand : Symbol → Option Form) (others : Obj → Form → Option Bool) (x : Obj) (head : Head)
      (args : Form),
      typepCheck expand others x (.cons (.cl head.name) args) = some true ↔
        Narrows expand others x head args := by
  intro all
  have holds := (all (fun _ => none) (fun _ _ => none) threeElements .array
    (.list [.cl "T", .integer 1])).mpr
    ⟨rfl, _, rfl, ⟨.stored .t, by decide, .inr rfl⟩, by rfl⟩
  exact absurd holds (by decide)

end ClAmiga.Types.Arrays
