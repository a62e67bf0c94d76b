import ClAmiga.Sequence.Keywords

/-!
# Repeated keywords

Whether a call with repeated keywords is read as if only the first pair of every keyword had
been given.  The scanners that overwrite from the last pair to the first do so unless a first
value, such as `NIL` for `:end`, leaves what a later pair stored.
-/

namespace ClAmiga.Sequence

open Keyed

/-- Every occurrence of a keyword after its first one is deleted. -/
def leftmostOnly (args : List Obj) : List Obj :=
  flatten (firstOnly (pairs args))

theorem pairs_flatten (ps : List (Obj × Obj)) : pairs (flatten ps) = ps := by
  induction ps with
  | nil => rfl
  | cons pair rest induction =>
      obtain ⟨key, value⟩ := pair
      rw [flatten, pairs, induction]

theorem length_flatten (ps : List (Obj × Obj)) : (flatten ps).length = 2 * ps.length := by
  induction ps with
  | nil => rfl
  | cons pair rest induction =>
      obtain ⟨key, value⟩ := pair
      rw [flatten, List.length_cons, List.length_cons, induction, List.length_cons]
      omega

theorem pairs_leftmostOnly (args : List Obj) : pairs (leftmostOnly args) = firstOnly (pairs args) :=
  pairs_flatten _

def Accepts (allowed : Keyword → Bool) (key : Obj) : Prop :=
  key = .keyword .allowOtherKeys ∨ key.isSymbol = true ∧ seqKeywordFlag allowed key = true

theorem checkKeys_ok_iff {allowed : Keyword → Bool} {position : Nat} {ps : List (Obj × Obj)} :
    checkKeys allowed position ps = .ok () ↔ ∀ pair ∈ ps, Accepts allowed pair.1 := by
  induction ps generalizing position with
  | nil => simp [checkKeys]
  | cons pair rest induction =>
      obtain ⟨kw, value⟩ := pair
      rw [checkKeys, List.forall_mem_cons, Accepts]
      by_cases others : kw = .keyword .allowOtherKeys
      · simp [others, induction]
      · cases kw.isSymbol <;> cases seqKeywordFlag allowed kw <;> simp [others, induction]

theorem head?_values_firstOnly (key : Obj) (ps : List (Obj × Obj)) :
    (values key (firstOnly ps)).head? = (values key ps).head? := by
  rw [values_firstOnly]
  cases values key ps <;> rfl

theorem checkSeqKeywords_leftmostOnly {positional : Nat} {allowed : Keyword → Bool}
    {args : List Obj} (accepted : checkSeqKeywords positional allowed args = .ok ()) :
    checkSeqKeywords positional allowed (leftmostOnly args) = .ok () := by
  have even : ¬ (leftmostOnly args).length % 2 = 1 := by
    rw [leftmostOnly, length_flatten]
    omega
  have fewer : checkKeys allowed positional (pairs args) = .ok () →
      checkKeys allowed positional (firstOnly (pairs args)) = .ok () := by
    rw [checkKeys_ok_iff, checkKeys_ok_iff]
    exact fun all pair member => all pair ((firstOnlyFrom_sublist [] _).subset member)
  rw [checkSeqKeywords, if_neg even, pairs_leftmostOnly, head?_values_firstOnly]
  rw [checkSeqKeywords] at accepted
  by_cases odd : args.length % 2 = 1
  · rw [if_pos odd] at accepted
    cases accepted
  · rw [if_neg odd] at accepted
    cases found : (values (Obj.keyword .allowOtherKeys) (pairs args)).head? with
    | none =>
        rw [found] at accepted
        exact fewer accepted
    | some value =>
        rw [found] at accepted
        by_cases others : value ≠ .nil
        · exact if_pos others
        · have checked : checkKeys allowed positional (pairs args) = .ok () := by
            simpa [others] using accepted
          simpa [others] using fewer checked

/-- The scan of `bi_reduce` has seen a keyword, or takes no notice of it. -/
def ReduceArgs.Seen (ra : ReduceArgs) : Obj → Prop
  | .keyword .initialValue => ra.initial.isSome = true
  | .keyword .key => ra.seenKey = true
  | .keyword .start => ra.seenStart = true
  | .keyword .fromEnd => ra.seenFromEnd = true
  | _ => True

theorem reduceArg_marks (ra : ReduceArgs) (kw val : Obj) : (reduceArg ra kw val).Seen kw := by
  unfold reduceArg ReduceArgs.Seen
  split
  · cases found : ra.initial <;> simp [found]
  · cases found : ra.seenKey <;> simp [found]
  · cases found : ra.seenStart
    · cases val <;> simp
    · simp [found]
  · cases found : ra.seenFromEnd <;> simp [found]
  · trivial

theorem reduceArg_keeps (ra : ReduceArgs) (kw val other : Obj) (seen : ra.Seen other) :
    (reduceArg ra kw val).Seen other := by
  unfold ReduceArgs.Seen at seen ⊢
  split at seen
  · unfold reduceArg
    (repeat' split) <;> simp_all
  · unfold reduceArg
    (repeat' split) <;> simp_all
  · unfold reduceArg
    (repeat' split) <;> simp_all
  · unfold reduceArg
    (repeat' split) <;> simp_all
  · trivial

theorem reduceArg_ignores (ra : ReduceArgs) (kw val : Obj) (seen : ra.Seen kw) :
    reduceArg ra kw val = ra := by
  unfold ReduceArgs.Seen at seen
  split at seen
  · simp [reduceArg, Option.isNone_iff_eq_none, Option.isSome_iff_ne_none.mp seen]
  · simp [reduceArg, seen]
  · simp [reduceArg, seen]
  · simp [reduceArg, seen]
  · unfold reduceArg
    split <;> simp_all

theorem reduceEnd_eq (len : Int) (ps : List (Obj × Obj)) :
    reduceEnd len ps = ((values (.keyword .ending) ps).head?.map (endOr len)).getD len := by
  induction ps with
  | nil => rfl
  | cons pair rest induction =>
      obtain ⟨kw, val⟩ := pair
      rw [reduceEnd, values_cons]
      by_cases here : kw = .keyword .ending
      · rw [if_pos here, if_pos here]
        rfl
      · rw [if_neg here, if_neg here, induction]

theorem reduceArgs_leftmostOnly (len : Int) (args : List Obj) :
    reduceArgs len (leftmostOnly args) = reduceArgs len args := by
  rw [reduceArgs, reduceArgs, pairs_leftmostOnly, reduceEnd_eq, reduceEnd_eq,
    head?_values_firstOnly]
  rw [firstOnly, foldl_firstOnlyFrom reduceArg_marks reduceArg_keeps reduceArg_ignores]
  rintro _ ⟨⟩

/-- What a pair does in the two scans of `bi_mismatch` and `bi_search` together. -/
def matchBoth (functions : Functions) : Obj → Obj → Effect ArgError Value
  | .keyword .ending1, val => matchEnd (.keyword .ending1) val
  | .keyword .ending2, val => matchEnd (.keyword .ending2) val
  | kw, val => matchArg functions kw val

def matchBothDefaults (functions : Functions) (len1 len2 : Int) : Registers :=
  Function.update (Function.update (matchDefaults functions) (.keyword .ending1) (.int len1))
    (.keyword .ending2) (.int len2)

theorem matchEnd_accepts (kw val : Obj) : (matchEnd kw val).rejection = none := by
  unfold matchEnd
  split <;> rfl

theorem matchEnd_other {kw : Obj} (first : kw ≠ .keyword .ending1) (second : kw ≠ .keyword .ending2)
    (val : Obj) : matchEnd kw val = .keep := by
  unfold matchEnd
  split <;> simp_all

theorem lastRejection_matchEnd (ps : List (Obj × Obj)) : lastRejection matchEnd ps = none := by
  induction ps with
  | nil => rfl
  | cons pair rest induction =>
      obtain ⟨kw, val⟩ := pair
      rw [lastRejection, induction, matchEnd_accepts]
      rfl

theorem matchBoth_other (functions : Functions) {kw : Obj} (first : kw ≠ .keyword .ending1)
    (second : kw ≠ .keyword .ending2) (val : Obj) :
    matchBoth functions kw val = matchArg functions kw val := by
  unfold matchBoth
  split <;> simp_all

theorem matchBoth_rejection (functions : Functions) (kw val : Obj) :
    (matchBoth functions kw val).rejection = (matchArg functions kw val).rejection := by
  unfold matchBoth
  split
  · rw [matchEnd_accepts]
    rfl
  · rw [matchEnd_accepts]
    rfl
  · rfl

theorem lastRejection_matchBoth (functions : Functions) (ps : List (Obj × Obj)) :
    lastRejection (matchBoth functions) ps = lastRejection (matchArg functions) ps := by
  induction ps with
  | nil => rfl
  | cons pair rest induction =>
      obtain ⟨kw, val⟩ := pair
      rw [lastRejection, lastRejection, induction, matchBoth_rejection]

theorem findSome?_none {α β : Type} (xs : List α) :
    xs.findSome? (fun _ => (none : Option β)) = none :=
  List.findSome?_eq_none_iff.mpr fun _ _ => rfl

theorem matchArgs_eq (functions : Functions) (len1 len2 : Int) (args : List Obj) :
    matchArgs functions len1 len2 args =
      scanBack (matchBoth functions) (matchBothDefaults functions len1 len2) (pairs args) := by
  rw [matchArgs]
  cases rejected : lastRejection (matchArg functions) (pairs args) with
  | some error =>
      rw [scanBack_rejected rejected,
        scanBack_rejected ((lastRejection_matchBoth functions _).trans rejected)]
      rfl
  | none =>
      rw [scanBack_accepted rejected,
        scanBack_accepted ((lastRejection_matchBoth functions _).trans rejected)]
      refine (scanBack_accepted (lastRejection_matchEnd _)).trans (congrArg Except.ok ?_)
      funext key
      by_cases second : key = .keyword .ending2
      · subst second
        rw [matchBothDefaults, Function.update_self, Function.update_self]
        rfl
      · rw [matchBothDefaults, Function.update_of_ne second, Function.update_of_ne second]
        by_cases first : key = .keyword .ending1
        · subst first
          rw [Function.update_self, Function.update_self]
          rfl
        · rw [Function.update_of_ne first, Function.update_of_ne first]
          simp only [matchEnd_other first second, matchBoth_other functions first second,
            Effect.stored, findSome?_none, Option.getD_none]

/-- The sequence functions; those with `If` stand for the functions with `-IF` and `-IF-NOT`. -/
inductive SeqFunction where
  | find
  | findIf
  | position
  | positionIf
  | count
  | countIf
  | remove
  | removeIf
  | substitute
  | substituteIf
  | removeDuplicates
  | reduce
  | fill
  | replace
  | mismatch
  | search
  | sort
  | merge
deriving DecidableEq, Repr

def findKeys : List Keyword := [.test, .testNot, .key, .start, .ending, .fromEnd]

def findIfKeys : List Keyword := [.key, .start, .ending, .fromEnd]

def matchKeys : List Keyword :=
  [.test, .testNot, .key, .start1, .ending1, .start2, .ending2, .fromEnd]

def SeqFunction.allowed : SeqFunction → List Keyword
  | .find | .position | .count | .removeDuplicates => findKeys
  | .findIf | .positionIf | .countIf => findIfKeys
  | .remove | .removeIf =>
      [.test, .testNot, .key, .start, .ending, .count, .fromEnd, .initialValue, .start1, .ending1,
        .start2, .ending2]
  | .substitute => [.key, .start, .ending, .fromEnd, .count, .test, .testNot]
  | .substituteIf => [.key, .start, .ending, .fromEnd, .count]
  | .reduce => [.key, .fromEnd, .start, .ending, .initialValue]
  | .fill => [.start, .ending]
  | .replace => [.start1, .ending1, .start2, .ending2]
  | .mismatch | .search => matchKeys
  | .sort | .merge => [.key]

def SeqFunction.positional : SeqFunction → Nat
  | .removeDuplicates => 1
  | .substitute | .substituteIf => 3
  | .merge => 4
  | _ => 2

def SeqFunction.reads : SeqFunction → List Keyword
  | .remove => [.test, .testNot, .key, .start, .ending, .count, .fromEnd]
  | .removeIf => [.key, .start, .ending, .count, .fromEnd]
  | fn => fn.allowed

def SeqFunction.check (fn : SeqFunction) (args : List Obj) : Except ArgError Unit :=
  checkSeqKeywords fn.positional (fun name => decide (name ∈ fn.allowed)) args

def SeqFunction.Reads (fn : SeqFunction) (key : Obj) : Prop :=
  ∃ name ∈ fn.reads, key = .keyword name

def SeqFunction.ReadsAlike (functions : Functions) (len1 len2 : Int) (fn : SeqFunction)
    (args args' : List Obj) : Prop :=
  match fn with
  | .reduce => reduceArgs len1 args = reduceArgs len1 args'
  | .fill => SameReading fn.Reads (fillArgs len1 args) (fillArgs len1 args')
  | .replace => SameReading fn.Reads (replaceArgs len1 len2 args) (replaceArgs len1 len2 args')
  | .mismatch | .search =>
      SameReading fn.Reads (matchArgs functions len1 len2 args)
        (matchArgs functions len1 len2 args')
  | .sort | .merge => SameReading fn.Reads (sortArgs functions args) (sortArgs functions args')
  | _ => SameReading fn.Reads (parseSeqArgs functions args) (parseSeqArgs functions args')

def SeqFunction.FirstsDecide (functions : Functions) (len1 len2 : Int) (fn : SeqFunction)
    (args : List Obj) : Prop :=
  match fn with
  | .reduce => True
  | .fill => DecidesBack (fillArg len1) (fillDefaults len1) fn.Reads (pairs args)
  | .replace => DecidesBack replaceArg (replaceDefaults len1 len2) fn.Reads (pairs args)
  | .mismatch | .search =>
      DecidesBack (matchBoth functions) (matchBothDefaults functions len1 len2) fn.Reads
        (pairs args)
  | .sort | .merge => DecidesForward (sortArg functions) sortDefaults fn.Reads (pairs args)
  | _ => DecidesBack (seqArg functions) (seqArgDefaults functions) fn.Reads (pairs args)

/-- A well-formed keyword list is read as if the later pairs of every keyword were deleted just
when its first pairs decide. -/
theorem reads_leftmost_iff (functions : Functions) (len1 len2 : Int) (fn : SeqFunction)
    {args : List Obj} (wellFormed : fn.check args = .ok ()) :
    fn.check (leftmostOnly args) = .ok () ∧
        fn.ReadsAlike functions len1 len2 args (leftmostOnly args) ↔
      fn.FirstsDecide functions len1 len2 args := by
  have accepted : fn.check (leftmostOnly args) = .ok () := checkSeqKeywords_leftmostOnly wellFormed
  rw [and_iff_right accepted]
  have parsed := @scanBack_firstOnly_iff _ _ _ _ _ (seqArg functions) (seqArgDefaults functions)
    fn.Reads (pairs args)
  rw [← pairs_leftmostOnly] at parsed
  cases fn with
  | reduce => exact iff_true_intro (reduceArgs_leftmostOnly len1 args).symm
  | fill =>
      refine Iff.trans ?_ (scanBack_firstOnly_iff ..)
      rw [← pairs_leftmostOnly]
      rfl
  | replace =>
      refine Iff.trans ?_ (scanBack_firstOnly_iff ..)
      rw [← pairs_leftmostOnly]
      rfl
  | mismatch | search =>
      refine Iff.trans ?_ (scanBack_firstOnly_iff ..)
      rw [← pairs_leftmostOnly, ← matchArgs_eq, ← matchArgs_eq]
      rfl
  | sort | merge =>
      refine Iff.trans ?_ (scanForward_firstOnly_iff ..)
      rw [← pairs_leftmostOnly]
      rfl
  | _ => exact parsed

def noFunctions : Functions where
  unwrap _ := none
  isFunction _ := false
  symbolFunction _ := none
  eql := .other 0

/-- `:start` given twice. -/
theorem reads_leftmost_starts : SeqFunction.count.FirstsDecide noFunctions 4 0
      [.keyword .start, .fixnum 1, .keyword .start, .fixnum 2] :=
  (reads_leftmost_iff noFunctions 4 0 .count rfl).mp
    ⟨rfl, fun _ ⟨name, member, same⟩ => by
      subst same
      simp only [SeqFunction.reads, SeqFunction.allowed, findKeys, List.mem_cons,
        List.not_mem_nil, or_false] at member
      rcases member with rfl | rfl | rfl | rfl | rfl | rfl <;> rfl⟩

/-- COUNT takes the end from the second pair, when the first one says `NIL`. -/
theorem end_nil_overridden :
    ¬ ∀ (functions : Functions) (len1 len2 : Int) (fn : SeqFunction) (args : List Obj),
      fn.check args = .ok () → fn.ReadsAlike functions len1 len2 args (leftmostOnly args) := by
  intro rule
  have alike := rule noFunctions 4 0 .count
    [.keyword .ending, .nil, .keyword .ending, .fixnum 2] rfl
  have same : Value.int 2 = .int (-1) := alike (.keyword .ending) ⟨.ending, by decide, rfl⟩
  exact absurd same (by decide)

end ClAmiga.Sequence
