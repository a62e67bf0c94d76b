import Mathlib.Data.List.GetD
import Mathlib.Data.List.Lex
import Mathlib.Data.List.MinMax
import Mathlib.Data.Nat.SuccPred
import Mathlib.Algebra.Order.Ring.Nat
import ClAmiga.Sorting.StableOrder

/-!
# Generic function dispatch

The applicable methods of a call, most specific first; the effective method of the standard
combination; and the dispatch cache, nested tables that are keyed by the classes of the first
arguments, or by an argument itself where a method has an EQL specializer for it.
-/

namespace ClAmiga.Clos.Dispatch

open Sorting (Stable StrictWeak)

/-- EQL specializers are interned; classes are compared by identity. -/
inductive Specializer (Obj Cls : Type) where
  | eql (object : Obj)
  | cls (cls : Cls)
  deriving DecidableEq, Repr

inductive Qualifiers where
  | none
  | around
  | before
  | after
  | other (symbols : List Nat)
  deriving DecidableEq, Repr

structure Method (Obj Cls : Type) where
  specializers : List (Specializer Obj Cls)
  qualifiers : Qualifiers
  function : Nat
  simplePrimaryP : Bool
  deriving DecidableEq, Repr

/-- The objects up to EQL, with their classes; every class is below T. -/
structure Classes (Obj Cls : Type) where
  nil : Obj
  classOf : Obj → Cls
  classPrecedenceList : Cls → List Cls
  t : Cls
  t_mem : ∀ c, t ∈ classPrecedenceList c

variable {Obj Cls : Type} [DecidableEq Obj] [DecidableEq Cls]

namespace Classes

variable (w : Classes Obj Cls)

def admits (arg : Obj) : Specializer Obj Cls → Bool
  | .eql object => arg = object
  | .cls c => c ∈ w.classPrecedenceList (w.classOf arg)

/-- `%method-applicable-p` -/
def methodApplicableP : List (Specializer Obj Cls) → List Obj → Bool
  | spec :: specs, arg :: args => w.admits arg spec && methodApplicableP specs args
  | _, _ => true

/-- The loop over a precedence list; absent where it meets neither class. -/
def firstOf (c1 c2 : Cls) : List Cls → Option Bool
  | [] => none
  | c :: cpl => if c = c1 then some true else if c = c2 then some false else firstOf c1 c2 cpl

/-- `%method-more-specific-p` -/
def methodMoreSpecificP :
    List (Specializer Obj Cls) → List (Specializer Obj Cls) → List Obj → Bool
  | c1 :: s1, c2 :: s2, args =>
      if c1 = c2 then methodMoreSpecificP s1 s2 args.tail
      else
        match c1, c2 with
        | .eql _, _ => true
        | _, .eql _ => false
        | .cls c1, .cls c2 =>
            match firstOf c1 c2 (w.classPrecedenceList (w.classOf (args.getD 0 w.nil))) with
            | some more => more
            | none => methodMoreSpecificP s1 s2 args.tail
  | _, _, _ => false

/-- The inner loop of the sort; the result is built in reverse. -/
def insertLoop (more : Method Obj Cls → Method Obj Cls → Bool) (m : Method Obj Cls) :
    List (Method Obj Cls) → List (Method Obj Cls) → List (Method Obj Cls)
  | [], result => (m :: result).reverse
  | r :: rest, result =>
      if more m r then ((r :: rest).reverseAux (m :: result)).reverse
      else insertLoop more m rest (r :: result)

/-- `%compute-applicable-methods` -/
def computeApplicableMethods (methods : List (Method Obj Cls)) (args : List Obj) :
    List (Method Obj Cls) :=
  let applicable := methods.foldl
    (fun applicable m =>
      if w.methodApplicableP m.specializers args then m :: applicable else applicable) []
  applicable.foldl
    (fun sorted m => insertLoop
      (fun m1 m2 => w.methodMoreSpecificP m1.specializers m2.specializers args) m sorted []) []

end Classes

variable {s1 s2 : List (Specializer Obj Cls)}

section Order

variable (w : Classes Obj Cls)

/-- How far a specializer is from an argument. -/
def Classes.rank : Specializer Obj Cls → Obj → Nat
  | .eql _, _ => 0
  | .cls c, arg => (w.classPrecedenceList (w.classOf arg)).idxOf c + 1

def Classes.ranks (args : List Obj) (m : Method Obj Cls) : List Nat :=
  List.zipWith w.rank m.specializers args

/-- Lexicographically, from the first argument on. -/
def Classes.nearer (args : List Obj) (m1 m2 : Method Obj Cls) : Bool :=
  decide (w.ranks args m1 < w.ranks args m2)

omit [DecidableEq Obj] in
theorem nearer_eq_false {w : Classes Obj Cls} {args : List Obj} {m1 m2 : Method Obj Cls} :
    w.nearer args m1 m2 = false ↔ w.ranks args m2 ≤ w.ranks args m1 := by
  rw [Classes.nearer, decide_eq_false_iff_not, not_lt]

omit [DecidableEq Obj] in
theorem Classes.strictWeak_nearer (args : List Obj) : StrictWeak (w.nearer args) where
  irrefl m := by simp [nearer]
  trans a b c first second := by
    simp only [nearer, decide_eq_true_eq] at first second ⊢
    exact lt_trans first second
  incomp a b c ab ba bc cb := by
    rw [nearer_eq_false] at ab ba bc cb
    rw [nearer_eq_false, nearer_eq_false]
    exact ⟨bc.trans ab, ba.trans cb⟩

theorem firstOf_eq {c1 c2 : Cls} (other : c1 ≠ c2) {cpl : List Cls} (first : c1 ∈ cpl) :
    Classes.firstOf c1 c2 cpl = some (decide (cpl.idxOf c1 < cpl.idxOf c2)) := by
  induction cpl with
  | nil => cases first
  | cons c cpl induction =>
      unfold Classes.firstOf
      by_cases here : c = c1
      · subst here
        simp [List.idxOf_cons_ne _ other]
      · by_cases second : c = c2
        · subst second
          simp [here]
        · have later : c1 ∈ cpl := (List.mem_cons.mp first).resolve_left (Ne.symm here)
          rw [if_neg here, if_neg second, induction later, List.idxOf_cons_ne _ here,
            List.idxOf_cons_ne _ second]
          simp

variable {w}

/-- Two specializers of applicable methods for one argument. -/
theorem rank_inj {s1 s2 : Specializer Obj Cls} {arg : Obj} (first : w.admits arg s1 = true)
    (second : w.admits arg s2 = true) (same : w.rank s1 arg = w.rank s2 arg) : s1 = s2 := by
  cases s1 with
  | eql o1 =>
      cases s2 with
      | eql o2 =>
          simp only [Classes.admits, decide_eq_true_eq] at first second
          rw [← first, ← second]
      | cls c2 => simp [Classes.rank] at same
  | cls c1 =>
      cases s2 with
      | eql o2 => simp [Classes.rank] at same
      | cls c2 =>
          simp only [Classes.admits, decide_eq_true_eq] at first
          simp only [Classes.rank, Nat.add_right_cancel_iff] at same
          exact congrArg _ ((List.idxOf_inj first).mp same)

theorem ranks_inj {args : List Obj}
    (first : w.methodApplicableP s1 args = true) (second : w.methodApplicableP s2 args = true)
    (length : s1.length = s2.length) (enough : s1.length ≤ args.length)
    (same : List.zipWith w.rank s1 args = List.zipWith w.rank s2 args) : s1 = s2 := by
  induction s1 generalizing s2 args with
  | nil => exact (List.length_eq_zero_iff.mp length.symm).symm
  | cons c1 s1 induction =>
      cases s2 with
      | nil => cases length
      | cons c2 s2 =>
          cases args with
          | nil => cases enough
          | cons arg args =>
              simp only [Classes.methodApplicableP, Bool.and_eq_true] at first second
              simp only [List.zipWith_cons_cons, List.cons.injEq] at same
              rw [rank_inj first.1 second.1 same.1, induction first.2 second.2
                (Nat.succ.inj length) (Nat.le_of_succ_le_succ enough) same.2]

theorem methodMoreSpecificP_eq {args : List Obj}
    (first : w.methodApplicableP s1 args = true) (second : w.methodApplicableP s2 args = true)
    (length : s1.length = s2.length) (enough : s1.length ≤ args.length) :
    w.methodMoreSpecificP s1 s2 args =
      decide (List.zipWith w.rank s1 args < List.zipWith w.rank s2 args) := by
  induction s1 generalizing s2 args with
  | nil =>
      obtain rfl := List.length_eq_zero_iff.mp length.symm
      simp [Classes.methodMoreSpecificP]
  | cons c1 s1 induction =>
      cases s2 with
      | nil => cases length
      | cons c2 s2 =>
          cases args with
          | nil => cases enough
          | cons arg args =>
              simp only [Classes.methodApplicableP, Bool.and_eq_true] at first second
              have rest := induction first.2 second.2 (Nat.succ.inj length)
                (Nat.le_of_succ_le_succ enough)
              simp only [Classes.methodMoreSpecificP, List.zipWith_cons_cons,
                List.cons_lt_cons_iff, List.tail_cons, List.getD_cons_zero]
              split
              · rename_i same
                subst same
                simp [rest]
              · rename_i other
                have ranks : w.rank c1 arg ≠ w.rank c2 arg := fun same =>
                  other (rank_inj first.1 second.1 same)
                simp only [ranks, false_and, or_false]
                cases c1 with
                | eql o1 =>
                    cases c2 with
                    | eql o2 =>
                        simp only [Classes.admits, decide_eq_true_eq] at first second
                        exact absurd (by rw [← first.1, ← second.1]) other
                    | cls c2 => simp [Classes.rank]
                | cls c1 =>
                    cases c2 with
                    | eql o2 => simp [Classes.rank]
                    | cls c2 =>
                        simp only [Classes.admits, decide_eq_true_eq] at first
                        have apart : c1 ≠ c2 := fun same => other (congrArg _ same)
                        simp only [firstOf_eq apart first.1]
                        simp [Classes.rank]

end Order

section Insertion

variable {more more' : Method Obj Cls → Method Obj Cls → Bool}

omit [DecidableEq Obj] [DecidableEq Cls] in
theorem insertLoop_eq (m : Method Obj Cls) (rest result : List (Method Obj Cls)) :
    Classes.insertLoop more m rest result =
      result.reverse ++ (rest.takeWhile fun r => !more m r) ++
        m :: rest.dropWhile fun r => !more m r := by
  induction rest generalizing result with
  | nil => simp [Classes.insertLoop]
  | cons r rest induction =>
      unfold Classes.insertLoop
      cases before : more m r with
      | true => simp [before, List.reverseAux_eq]
      | false => simp [before, induction]

omit [DecidableEq Obj] [DecidableEq Cls] in
theorem insertLoop_congr {m : Method Obj Cls} {rest : List (Method Obj Cls)}
    (same : ∀ r ∈ rest, more m r = more' m r) (result : List (Method Obj Cls)) :
    Classes.insertLoop more m rest result = Classes.insertLoop more' m rest result := by
  induction rest generalizing result with
  | nil => rfl
  | cons r rest induction =>
      unfold Classes.insertLoop
      rw [same r List.mem_cons_self, induction fun r later => same r (List.mem_cons_of_mem _ later)]

omit [DecidableEq Obj] [DecidableEq Cls] in
theorem insertLoop_subset {m r : Method Obj Cls} {rest : List (Method Obj Cls)}
    (member : r ∈ Classes.insertLoop more m rest []) : r = m ∨ r ∈ rest := by
  have split := @List.takeWhile_append_dropWhile _ (fun r => !more m r) rest
  rw [insertLoop_eq] at member
  rw [← split, List.mem_append]
  simpa [or_left_comm] using member

/-- The outer loop. -/
def insertAll (more : Method Obj Cls → Method Obj Cls → Bool)
    (applicable sorted : List (Method Obj Cls)) : List (Method Obj Cls) :=
  applicable.foldl (fun sorted m => Classes.insertLoop more m sorted []) sorted

omit [DecidableEq Obj] [DecidableEq Cls] in
theorem insertAll_congr {applicable sorted members : List (Method Obj Cls)}
    (sortedIn : ∀ r ∈ sorted, r ∈ members) (applicableIn : ∀ m ∈ applicable, m ∈ members)
    (same : ∀ m ∈ members, ∀ r ∈ members, more m r = more' m r) :
    insertAll more applicable sorted = insertAll more' applicable sorted := by
  induction applicable generalizing sorted with
  | nil => rfl
  | cons m applicable induction =>
      have mIn := applicableIn m List.mem_cons_self
      have inserted := @insertLoop_congr _ _ more more' m sorted
        (fun r member => same m mIn r (sortedIn r member)) []
      have step := @induction (Classes.insertLoop more m sorted []) (fun r member => by
        rcases insertLoop_subset member with rfl | member
        · exact mIn
        · exact sortedIn r member) fun r later => applicableIn r (List.mem_cons_of_mem _ later)
      rw [insertAll, List.foldl_cons, ← insertAll, step, inserted]
      rfl

omit [DecidableEq Obj] [DecidableEq Cls] in
theorem insertAll_stable (order : StrictWeak more) {done applicable sorted : List (Method Obj Cls)}
    (stable : Stable more done sorted) :
    Stable more (done ++ applicable) (insertAll more applicable sorted) := by
  induction applicable generalizing done sorted with
  | nil => simpa [insertAll] using stable
  | cons m applicable induction =>
      have step := stable.insert_first order m
      rw [← List.nil_append (List.takeWhile _ _)] at step
      have inserted := @insertLoop_eq _ _ more m sorted []
      rw [List.reverse_nil] at inserted
      have all := induction (inserted ▸ step)
      rwa [List.append_assoc, List.singleton_append] at all

end Insertion

section Order

variable {w : Classes Obj Cls} {methods : List (Method Obj Cls)} {args : List Obj}

/-- The methods that apply, in the order in which the loop collects them. -/
def Classes.applicable (w : Classes Obj Cls) (methods : List (Method Obj Cls)) (args : List Obj) :
    List (Method Obj Cls) :=
  (methods.filter fun m => w.methodApplicableP m.specializers args).reverse

theorem computeApplicableMethods_eq : w.computeApplicableMethods methods args =
      insertAll (fun m1 m2 => w.methodMoreSpecificP m1.specializers m2.specializers args)
        (w.applicable methods args) [] := by
  have collects : ∀ start : List (Method Obj Cls),
      methods.foldl (fun applicable m =>
        if w.methodApplicableP m.specializers args then m :: applicable else applicable) start =
      w.applicable methods args ++ start := by
    induction methods with
    | nil => exact fun _ => rfl
    | cons m methods induction =>
        intro start
        rw [List.foldl_cons, induction]
        cases applies : w.methodApplicableP m.specializers args <;>
          simp [Classes.applicable, applies]
  rw [Classes.computeApplicableMethods, collects, List.append_nil]
  rfl

theorem stable_computeApplicableMethods {n : Nat}
    (congruent : ∀ m ∈ methods, m.specializers.length = n) (enough : n ≤ args.length) :
    Stable (w.nearer args) (w.applicable methods args)
      (w.computeApplicableMethods methods args) := by
  have same : ∀ m1 ∈ w.applicable methods args, ∀ m2 ∈ w.applicable methods args,
      w.methodMoreSpecificP m1.specializers m2.specializers args = w.nearer args m1 m2 := by
    intro m1 first m2 second
    simp only [Classes.applicable, List.mem_reverse, List.mem_filter] at first second
    have length := congruent m1 first.1
    exact methodMoreSpecificP_eq first.2 second.2 (length.trans (congruent m2 second.1).symm)
      (length ▸ enough)
  rw [computeApplicableMethods_eq, insertAll_congr (by simp) (fun _ => id) same]
  exact insertAll_stable (w.strictWeak_nearer args) ⟨.refl _, .nil, by simp⟩

theorem mem_computeApplicableMethods {n : Nat}
    (congruent : ∀ m ∈ methods, m.specializers.length = n) (enough : n ≤ args.length)
    {m : Method Obj Cls} (member : m ∈ w.computeApplicableMethods methods args) :
    m ∈ methods ∧ w.methodApplicableP m.specializers args = true := by
  rw [(stable_computeApplicableMethods congruent enough).perm.mem_iff] at member
  simpa [Classes.applicable] using member

/-- The applicable methods come out with the nearest specializers first, compared from the first
argument on: an EQL specializer before classes, and classes as they stand in the precedence list
of the argument's class.  Only methods with the same specializers are tied, these stand in the
order in which they were added, and so the order does not depend on that of the definitions. -/
theorem computeApplicableMethods_ordered {n : Nat}
    (congruent : ∀ m ∈ methods, m.specializers.length = n) (enough : n ≤ args.length) :
    Stable (w.nearer args) (w.applicable methods args) (w.computeApplicableMethods methods args) ∧
      (∀ m1 ∈ w.computeApplicableMethods methods args,
        ∀ m2 ∈ w.computeApplicableMethods methods args,
          w.nearer args m1 m2 = false → w.nearer args m2 m1 = false →
            m1.specializers = m2.specializers) ∧
      ∀ others : List (Method Obj Cls), others.Perm methods →
        (w.computeApplicableMethods others args).map Method.specializers =
          (w.computeApplicableMethods methods args).map Method.specializers := by
  have stable := @stable_computeApplicableMethods _ _ _ _ w methods args n congruent enough
  have tied : ∀ m1 m2 : Method Obj Cls, m1 ∈ methods ∧ w.methodApplicableP m1.specializers args →
      m2 ∈ methods ∧ w.methodApplicableP m2.specializers args →
      w.nearer args m1 m2 = false → w.nearer args m2 m1 = false →
        m1.specializers = m2.specializers := by
    intro m1 m2 first second before after
    rw [nearer_eq_false] at before after
    have length := congruent m1 first.1
    exact ranks_inj first.2 second.2 (length.trans (congruent m2 second.1).symm)
      (length ▸ enough) (le_antisymm after before)
  refine ⟨stable, fun m1 first m2 second => tied m1 m2
    (mem_computeApplicableMethods congruent enough first)
    (mem_computeApplicableMethods congruent enough second), fun others perm => ?_⟩
  have congruent' : ∀ m ∈ others, m.specializers.length = n := fun m member =>
    congruent m (perm.mem_iff.mp member)
  have stable' := @stable_computeApplicableMethods _ _ _ _ w others args n congruent' enough
  have same : (w.computeApplicableMethods others args).Perm
      (w.computeApplicableMethods methods args) := by
    refine stable'.perm.trans (.trans ?_ stable.perm.symm)
    exact (List.reverse_perm _).trans ((perm.filter _).trans (List.reverse_perm _).symm)
  let le (s1 s2 : List (Specializer Obj Cls)) : Prop :=
    List.zipWith w.rank s1 args ≤ List.zipWith w.rank s2 args
  have ordered : ∀ {original sorted : List (Method Obj Cls)},
      Stable (w.nearer args) original sorted →
      (sorted.map Method.specializers).Pairwise le := fun stable =>
    List.pairwise_map.mpr (stable.ordered.imp fun before =>
      nearer_eq_false.mp (Bool.not_eq_true' _ ▸ before))
  refine List.Perm.eq_of_pairwise ?_ (ordered stable') (ordered stable) (same.map _)
  rintro _ _ listed listed' before after
  obtain ⟨m1, first, rfl⟩ := List.mem_map.mp listed
  obtain ⟨m2, second, rfl⟩ := List.mem_map.mp listed'
  exact tied m1 m2 (mem_computeApplicableMethods congruent enough (same.mem_iff.mp first))
    (mem_computeApplicableMethods congruent enough second) (nearer_eq_false.mpr after)
    (nearer_eq_false.mpr before)

/-- Objects of the classes 0 to 2, each below the one before, with 0 as T. -/
def chain : Classes (Fin 3) (Fin 3) where
  nil := 0
  classOf := id
  classPrecedenceList c := [2, 1, 0].drop (2 - c.val)
  t := 0
  t_mem := by decide

def chainMethods : List (Method (Fin 3) (Fin 3)) :=
  [⟨[.cls 0], .before, 0, true⟩, ⟨[.eql 2], .none, 1, false⟩, ⟨[.cls 1], .none, 2, true⟩]

/-- An EQL method comes before those of a class and its superclass. -/
theorem computeApplicableMethods_ordered_chain :
    (chain.computeApplicableMethods chainMethods.reverse [2]).map Method.specializers =
      [[.eql 2], [.cls 1], [.cls 0]] := by
  have ordered := @computeApplicableMethods_ordered _ _ _ _ chain chainMethods [2] 1 (by decide)
    (by decide)
  exact (ordered.2.2 chainMethods.reverse (List.reverse_perm _)).trans (by decide)

end Order

/-- The method functions of a call; a method that is alone and asks for no next one is the
effective method itself. -/
inductive Emf (Obj Cls : Type) where
  | direct (primary : Method Obj Cls)
  | combined (around before primary after : List (Method Obj Cls))
  deriving DecidableEq, Repr

/-- `%build-effective-method`; absent where it signals that there is no primary method. -/
def buildEffectiveMethod (methods : List (Method Obj Cls)) : Option (Emf Obj Cls) :=
  let qualified (q : Qualifiers) := methods.filter fun m => m.qualifiers = q
  match qualified .none with
  | [] => none
  | primary :: more =>
      if qualified .before = [] ∧ qualified .after = [] ∧ qualified .around = [] ∧ more = [] ∧
          primary.simplePrimaryP then some (.direct primary)
      else some (.combined (qualified .around) (qualified .before) (primary :: more)
        (qualified .after).reverse)

/-- The number of arguments whose classes are the keys, or for each argument the objects that
methods have an EQL specializer for. -/
inductive Mode (Obj : Type) where
  | classes (n : Nat)
  | eql (valueSets : List (List Obj))
  deriving DecidableEq, Repr

def eqlObject : Specializer Obj Cls → Option Obj
  | .eql object => some object
  | .cls _ => none

/-- `%compute-eql-value-sets` -/
def computeEqlValueSets (methods : List (Method Obj Cls)) : List (List Obj) :=
  (List.range ((methods.map fun m => m.specializers.length).foldr max 0)).map fun pos =>
    methods.filterMap fun m => m.specializers[pos]?.bind eqlObject

/-- `%compute-gf-cacheable-p` -/
def computeGfCacheableP (t : Cls) (methods : List (Method Obj Cls)) : Mode Obj :=
  if methods.any fun m => m.specializers.any fun s => (eqlObject s).isSome then
    .eql (computeEqlValueSets methods)
  else
    .classes ((methods.flatMap fun m => m.specializers.zipIdx.map fun s =>
      if s.1 = .cls t then 1 else s.2 + 1).foldr max 1)

def Mode.levels : Mode Obj → Nat
  | .classes n => n
  | .eql valueSets => valueSets.length

/-- The nested tables are one table of paths, whose keys are objects in the tables under EQL and
classes in the other ones.  A cached NIL says that no method applies. -/
structure GenericFunction (Obj Cls : Type) where
  methods : List (Method Obj Cls)
  dispatchCache : List (Specializer Obj Cls) → Option (Option (Emf Obj Cls))
  /-- absent while it is `:dirty` -/
  cacheableP : Option (Mode Obj)

inductive Answer (Obj Cls : Type) where
  | apply (emf : Emf Obj Cls)
  | noApplicableMethod
  | noPrimaryMethod
  deriving DecidableEq, Repr

namespace GenericFunction

variable (gf : GenericFunction Obj Cls)

def cache (path : List (Specializer Obj Cls)) (entry : Option (Emf Obj Cls)) :
    GenericFunction Obj Cls :=
  { gf with dispatchCache := Function.update gf.dispatchCache path (some entry) }

/-- The effective method of methods that apply is cached and called. -/
def fill (path : List (Specializer Obj Cls)) (methods : List (Method Obj Cls)) :
    Answer Obj Cls × GenericFunction Obj Cls :=
  match buildEffectiveMethod methods with
  | none => (.noPrimaryMethod, gf)
  | some emf => (.apply emf, gf.cache path (some emf))

/-- What a change of the class hierarchy does: `%invalidate-all-gf-caches`. -/
def invalidate : GenericFunction Obj Cls :=
  { gf with dispatchCache := fun _ => none }

/-- `%install-method-in-gf` -/
def installMethod (method : Method Obj Cls) : GenericFunction Obj Cls where
  methods := method :: gf.methods.filter fun m =>
    !(m.qualifiers = method.qualifiers && m.specializers = method.specializers)
  dispatchCache := fun _ => none
  cacheableP := none

/-- `%uninstall-method-from-gf` -/
def uninstallMethod (method : Method Obj Cls) : GenericFunction Obj Cls where
  methods := gf.methods.filter fun m => m ≠ method
  dispatchCache := fun _ => none
  cacheableP := none

end GenericFunction

namespace Classes

variable (w : Classes Obj Cls)

def keyAt (mode : Mode Obj) (pos : Nat) (arg : Obj) : Specializer Obj Cls :=
  match mode with
  | .classes _ => .cls (w.classOf arg)
  | .eql valueSets =>
      if arg ∈ valueSets.getD pos [] then .eql arg else .cls (w.classOf arg)

/-- A missing argument has the class of NIL. -/
def path (mode : Mode Obj) (args : List Obj) : List (Specializer Obj Cls) :=
  (List.range mode.levels).map fun pos => w.keyAt mode pos (args.getD pos w.nil)

/-- `%gf-dispatch` up to the call, by `%gf-dispatch-cached` or `%gf-dispatch-eql`. -/
def gfDispatch (gf : GenericFunction Obj Cls) (args : List Obj) :
    Answer Obj Cls × GenericFunction Obj Cls :=
  let mode := gf.cacheableP.getD (computeGfCacheableP w.t gf.methods)
  let gf := { gf with cacheableP := some mode }
  let path := w.path mode args
  let methods := w.computeApplicableMethods gf.methods args
  match gf.dispatchCache path with
  | some (some emf) => (.apply emf, gf)
  | some none => if methods = [] then (.noApplicableMethod, gf) else gf.fill path methods
  | none =>
      if methods = [] then (.noApplicableMethod, gf.cache path none) else gf.fill path methods

/-- The dispatch without a cache. -/
def dispatchUncached (methods : List (Method Obj Cls)) (args : List Obj) : Answer Obj Cls :=
  let methods := w.computeApplicableMethods methods args
  if methods = [] then .noApplicableMethod
  else
    match buildEffectiveMethod methods with
    | none => .noPrimaryMethod
    | some emf => .apply emf

/-- Objects have other classes. -/
def reclass (classOf : Obj → Cls) : Classes Obj Cls :=
  { w with classOf := classOf }

end Classes

section Keys

variable {w : Classes Obj Cls} {classOf : Obj → Cls} {methods : List (Method Obj Cls)}

/-- A specializer does not tell two arguments apart, the second one in a world of other classes. -/
def Alike (w : Classes Obj Cls) (classOf : Obj → Cls) (spec : Specializer Obj Cls)
    (arg arg' : Obj) : Prop :=
  spec = .cls w.t ∨ w.classOf arg = classOf arg' ∧ ∀ o, spec = .eql o → (arg = o ↔ arg' = o)

theorem Alike.admits {spec : Specializer Obj Cls} {arg arg' : Obj}
    (alike : Alike w classOf spec arg arg') :
    w.admits arg spec = (w.reclass classOf).admits arg' spec := by
  rcases alike with rfl | ⟨classes, same⟩
  · simp [Classes.admits, Classes.reclass, w.t_mem]
  · cases spec with
    | eql o => simp [Classes.admits, same o rfl]
    | cls c =>
        change decide (c ∈ w.classPrecedenceList (w.classOf arg)) = _
        rw [classes]
        rfl

def AllAlike (w : Classes Obj Cls) (classOf : Obj → Cls) (specs : List (Specializer Obj Cls))
    (args args' : List Obj) : Prop :=
  ∀ pos spec, specs[pos]? = some spec →
    Alike w classOf spec (args.getD pos w.nil) (args'.getD pos w.nil)

variable {args args' : List Obj}

omit [DecidableEq Obj] [DecidableEq Cls] in
theorem AllAlike.tail {spec : Specializer Obj Cls} {specs : List (Specializer Obj Cls)}
    (alike : AllAlike w classOf (spec :: specs) args args') :
    AllAlike w classOf specs args.tail args'.tail := by
  intro pos spec here
  have next := alike (pos + 1) spec here
  cases args <;> cases args' <;> simpa using next

theorem AllAlike.applicable {specs : List (Specializer Obj Cls)}
    (alike : AllAlike w classOf specs args args') (long : specs.length ≤ args.length)
    (long' : specs.length ≤ args'.length) :
    w.methodApplicableP specs args = (w.reclass classOf).methodApplicableP specs args' := by
  induction specs generalizing args args' with
  | nil => rfl
  | cons spec specs induction =>
      cases args with
      | nil => cases long
      | cons arg args =>
          cases args' with
          | nil => cases long'
          | cons arg' args' =>
              have rest := @induction args args' alike.tail (Nat.le_of_succ_le_succ long)
                (Nat.le_of_succ_le_succ long')
              rw [Classes.methodApplicableP, Classes.methodApplicableP, rest]
              exact congrArg (· && _) (alike 0 spec rfl).admits

theorem AllAlike.moreSpecific
    (alike1 : AllAlike w classOf s1 args args') (alike2 : AllAlike w classOf s2 args args') :
    w.methodMoreSpecificP s1 s2 args = (w.reclass classOf).methodMoreSpecificP s1 s2 args' := by
  induction s1 generalizing s2 args args' with
  | nil => simp [Classes.methodMoreSpecificP]
  | cons c1 s1 induction =>
      cases s2 with
      | nil => simp [Classes.methodMoreSpecificP]
      | cons c2 s2 =>
          have rest := induction alike1.tail alike2.tail
          have first := alike1 0 c1 rfl
          have second := alike2 0 c2 rfl
          simp only [Classes.methodMoreSpecificP, rest]
          split
          · rfl
          · rename_i other
            have classes : w.classOf (args.getD 0 w.nil) = classOf (args'.getD 0 w.nil) := by
              rcases first with top | first
              · rcases second with top' | second
                · exact absurd (top.trans top'.symm) other
                · exact second.1
              · exact first.1
            simp only [Classes.reclass, classes]

theorem computeApplicableMethods_congr
    (alike : ∀ m ∈ methods, AllAlike w classOf m.specializers args args')
    (long : ∀ m ∈ methods, m.specializers.length ≤ args.length)
    (long' : ∀ m ∈ methods, m.specializers.length ≤ args'.length) :
    w.computeApplicableMethods methods args =
      (w.reclass classOf).computeApplicableMethods methods args' := by
  have applicable : w.applicable methods args = (w.reclass classOf).applicable methods args' :=
    congrArg _ (List.filter_congr fun m member =>
      (alike m member).applicable (long m member) (long' m member))
  rw [computeApplicableMethods_eq, computeApplicableMethods_eq, ← applicable]
  refine @insertAll_congr _ _ _ _ _ _ methods (by simp) ?_ ?_
  · intro m member
    exact (List.mem_filter.mp (List.mem_reverse.mp member)).1
  · intro m1 first m2 second
    exact (alike m1 first).moreSpecific (alike m2 second)

omit [DecidableEq Obj] [DecidableEq Cls] in
theorem eqlObject_eq_some {spec : Specializer Obj Cls} {o : Obj} :
    eqlObject spec = some o ↔ spec = .eql o := by
  cases spec <;> simp [eqlObject]

omit [DecidableEq Obj] [DecidableEq Cls] in
theorem mem_valueSet {pos : Nat} (inside : pos < (computeEqlValueSets methods).length) {o : Obj} :
    o ∈ (computeEqlValueSets methods).getD pos [] ↔
      ∃ m ∈ methods, m.specializers[pos]? = some (.eql o) := by
  have sets : (computeEqlValueSets methods).getD pos [] =
      methods.filterMap fun m => m.specializers[pos]?.bind eqlObject := by
    rw [List.getD_eq_getElem _ _ inside]
    simp [computeEqlValueSets]
  rw [sets, List.mem_filterMap]
  simp [Option.bind_eq_some_iff, eqlObject_eq_some]

/-- With the same keys, no specializer of the methods tells the arguments apart. -/
theorem alike_of_path (kept : ∀ m ∈ methods, ∀ o, .eql o ∈ m.specializers → classOf o = w.classOf o)
    (same : w.path (computeGfCacheableP w.t methods) args =
      (w.reclass classOf).path (computeGfCacheableP w.t methods) args') :
    ∀ m ∈ methods, AllAlike w classOf m.specializers args args' := by
  intro m member pos spec here
  have keys := List.map_inj_left.mp same
  have within := (List.getElem?_eq_some_iff.mp here).1
  unfold computeGfCacheableP at keys
  split at keys
  · have inside : pos < (computeEqlValueSets methods).length := by
      have longest : m.specializers.length ∈ methods.map fun m => m.specializers.length :=
        List.mem_map_of_mem member
      rw [computeEqlValueSets, List.length_map, List.length_range]
      exact Nat.lt_of_lt_of_le within (List.le_max_of_le' 0 longest (Nat.le_refl _))
    have key : w.keyAt (.eql (computeEqlValueSets methods)) pos (args.getD pos w.nil) =
        (w.reclass classOf).keyAt (.eql (computeEqlValueSets methods)) pos
          (args'.getD pos w.nil) := keys pos (List.mem_range.mpr inside)
    generalize args.getD pos w.nil = arg, args'.getD pos w.nil = arg' at key ⊢
    have listed : ∀ o, spec = .eql o → o ∈ (computeEqlValueSets methods).getD pos [] := by
      rintro o rfl
      exact (mem_valueSet inside).mpr ⟨m, member, here⟩
    simp only [Classes.keyAt] at key
    split at key <;> split at key
    · rename_i first _
      obtain rfl := Specializer.eql.inj key
      obtain ⟨m', member', here'⟩ := (mem_valueSet inside).mp first
      exact .inr ⟨(kept m' member' arg (List.mem_of_getElem? here')).symm, fun _ _ => .rfl⟩
    · cases key
    · cases key
    · rename_i first second
      refine .inr ⟨Specializer.cls.inj key, fun o isEql => ⟨?_, ?_⟩⟩
      · rintro rfl
        exact absurd (listed arg isEql) first
      · rintro rfl
        exact absurd (listed arg' isEql) second
  · rename_i noEql
    cases spec with
    | eql o =>
        refine absurd (List.any_eq_true.mpr
          ⟨m, member, List.any_eq_true.mpr ⟨.eql o, ?_, rfl⟩⟩) noEql
        exact List.mem_of_getElem? here
    | cls c =>
        by_cases top : c = w.t
        · exact .inl (congrArg _ top)
        · refine .inr ⟨Specializer.cls.inj (keys pos (List.mem_range.mpr ?_)), by simp⟩
          have listed : (Specializer.cls c, pos) ∈ m.specializers.zipIdx :=
            List.mk_mem_zipIdx_iff_getElem?.mpr here
          have counted : pos + 1 ∈ m.specializers.zipIdx.map fun s =>
              if s.1 = .cls w.t then 1 else s.2 + 1 :=
            List.mem_map.mpr ⟨_, listed, if_neg (by simpa using top)⟩
          exact List.le_max_of_le' 1 (List.mem_flatMap.mpr ⟨m, member, counted⟩) (Nat.le_refl _)

end Keys

/-- What an entry must be for the methods that apply. -/
def Right (entry : Option (Emf Obj Cls)) (applicable : List (Method Obj Cls)) : Prop :=
  match entry with
  | none => applicable = []
  | some emf => buildEffectiveMethod applicable = some emf

/-- The objects that methods have EQL specializers for keep their classes. -/
def Keeps (w : Classes Obj Cls) (methods : List (Method Obj Cls)) (classOf : Obj → Cls) : Prop :=
  ∀ m ∈ methods, ∀ o, .eql o ∈ m.specializers → classOf o = w.classOf o

/-- A call has an argument for every specializer. -/
def Enough (methods : List (Method Obj Cls)) (args : List Obj) : Prop :=
  ∀ m ∈ methods, m.specializers.length ≤ args.length

/-- Every entry is right for all arguments with its keys, also when other objects have changed
their classes. -/
structure Sound (w : Classes Obj Cls) (gf : GenericFunction Obj Cls) : Prop where
  mode : ∀ mode, gf.cacheableP = some mode → mode = computeGfCacheableP w.t gf.methods
  entries : ∀ classOf, Keeps w gf.methods classOf → ∀ args, Enough gf.methods args → ∀ entry,
    gf.dispatchCache ((w.reclass classOf).path (computeGfCacheableP w.t gf.methods) args) =
        some entry →
      Right entry ((w.reclass classOf).computeApplicableMethods gf.methods args)

/-- The states that a generic function goes through.  A call supplies an argument for every
specializer, and no object that a method has an EQL specializer for changes its class.  Only
a definition that completes is a step: a redefinition that the merge of a subclass stops has
changed precedence lists and not reached `%invalidate-all-gf-caches`. -/
inductive Reachable : Classes Obj Cls → GenericFunction Obj Cls → Prop where
  | make (w : Classes Obj Cls) (methods : List (Method Obj Cls)) :
      Reachable w ⟨methods, fun _ => none, none⟩
  | call {w : Classes Obj Cls} {gf : GenericFunction Obj Cls} (before : Reachable w gf)
      (args : List Obj) (enough : Enough gf.methods args) : Reachable w (w.gfDispatch gf args).2
  | install {w : Classes Obj Cls} {gf : GenericFunction Obj Cls} (before : Reachable w gf)
      (method : Method Obj Cls) : Reachable w (gf.installMethod method)
  | uninstall {w : Classes Obj Cls} {gf : GenericFunction Obj Cls} (before : Reachable w gf)
      (method : Method Obj Cls) : Reachable w (gf.uninstallMethod method)
  | defineClass {w : Classes Obj Cls} {gf : GenericFunction Obj Cls} (before : Reachable w gf)
      (w' : Classes Obj Cls) (top : w'.t = w.t) : Reachable w' gf.invalidate
  | changeClass {w : Classes Obj Cls} {gf : GenericFunction Obj Cls} (before : Reachable w gf)
      (classOf : Obj → Cls) (keeps : Keeps w gf.methods classOf) : Reachable (w.reclass classOf) gf

section Runs

variable {w : Classes Obj Cls} {gf : GenericFunction Obj Cls} {args : List Obj}

/-- The entry that a call stores is right for every call with its keys. -/
theorem Sound.cache (sound : Sound w gf) (enough : Enough gf.methods args)
    {entry : Option (Emf Obj Cls)}
    (right : Right entry (w.computeApplicableMethods gf.methods args)) :
    Sound w (gf.cache (w.path (computeGfCacheableP w.t gf.methods) args) entry) where
  mode := sound.mode
  entries classOf keeps others enough' found stored := by
    change Enough gf.methods others at enough'
    change Keeps w gf.methods classOf at keeps
    by_cases same : (w.reclass classOf).path (computeGfCacheableP w.t gf.methods) others =
        w.path (computeGfCacheableP w.t gf.methods) args
    · have here : some entry = some found := by
        rw [← stored]
        exact (congrArg _ same |>.trans (Function.update_self ..)).symm
      obtain rfl := Option.some.inj here
      have applicable := computeApplicableMethods_congr (alike_of_path keeps same.symm) enough
        enough'
      exact applicable ▸ right
    · refine sound.entries classOf keeps others enough' found ?_
      rw [← stored]
      exact (Function.update_of_ne same ..).symm

theorem Sound.fill (sound : Sound w gf) (enough : Enough gf.methods args)
    (some : w.computeApplicableMethods gf.methods args ≠ []) :
    (gf.fill (w.path (computeGfCacheableP w.t gf.methods) args)
        (w.computeApplicableMethods gf.methods args)).1 = w.dispatchUncached gf.methods args ∧
      Sound w (gf.fill (w.path (computeGfCacheableP w.t gf.methods) args)
        (w.computeApplicableMethods gf.methods args)).2 := by
  simp only [Classes.dispatchUncached, GenericFunction.fill, if_neg some]
  cases built : buildEffectiveMethod (w.computeApplicableMethods gf.methods args) with
  | none => exact ⟨rfl, sound⟩
  | some emf => exact ⟨rfl, sound.cache enough built⟩

/-- A call answers as without the cache, and leaves the cache sound. -/
theorem Sound.gfDispatch (sound : Sound w gf) (enough : Enough gf.methods args) :
    (w.gfDispatch gf args).1 = w.dispatchUncached gf.methods args ∧
      Sound w (w.gfDispatch gf args).2 := by
  have mode : gf.cacheableP.getD (computeGfCacheableP w.t gf.methods) =
      computeGfCacheableP w.t gf.methods := by
    cases known : gf.cacheableP with
    | none => rfl
    | some mode => exact sound.mode mode known
  have kept : Sound w { gf with cacheableP := some (computeGfCacheableP w.t gf.methods) } :=
    ⟨fun _ known => (Option.some.inj known).symm, sound.entries⟩
  have right := sound.entries w.classOf (fun _ _ _ _ => rfl) args enough
  unfold Classes.gfDispatch
  simp only [mode]
  split
  · rename_i emf stored
    have built : buildEffectiveMethod (w.computeApplicableMethods gf.methods args) = some emf :=
      right _ stored
    have applies : w.computeApplicableMethods gf.methods args ≠ [] := by
      intro empty
      rw [empty] at built
      cases built
    simp only [Classes.dispatchUncached, if_neg applies, built]
    exact ⟨trivial, kept⟩
  · rename_i stored
    have empty : w.computeApplicableMethods gf.methods args = [] := right _ stored
    simp only [Classes.dispatchUncached, if_pos empty]
    exact ⟨trivial, kept⟩
  · split
    · rename_i empty
      simp only [Classes.dispatchUncached, if_pos empty]
      exact ⟨trivial, kept.cache enough empty⟩
    · rename_i applies
      exact kept.fill enough applies

theorem Reachable.sound (run : Reachable w gf) : Sound w gf := by
  induction run with
  | make w methods => exact ⟨by simp, by simp⟩
  | call before args enough induction => exact (induction.gfDispatch enough).2
  | install before method induction => exact ⟨by simp [GenericFunction.installMethod], by
      simp [GenericFunction.installMethod]⟩
  | uninstall before method induction => exact ⟨by simp [GenericFunction.uninstallMethod], by
      simp [GenericFunction.uninstallMethod]⟩
  | defineClass before w' top induction =>
      exact ⟨fun mode known => top ▸ induction.mode mode known, by
        simp [GenericFunction.invalidate]⟩
  | changeClass before classOf keeps induction =>
      refine ⟨induction.mode, fun others keeps' => induction.entries others ?_⟩
      exact fun m member o listed => (keeps' m member o listed).trans (keeps m member o listed)

/-- Whatever calls, new and removed methods, and new definitions of classes came before, a call
that supplies an argument for every specializer answers through the cache as it does from the
list of the methods. -/
theorem gfDispatch_uncached (run : Reachable w gf) (enough : Enough gf.methods args) :
    (w.gfDispatch gf args).1 = w.dispatchUncached gf.methods args :=
  (run.sound.gfDispatch enough).1

end Runs

/-- The second call finds the entry of the first. -/
theorem gfDispatch_uncached_twice :
    (chain.gfDispatch (chain.gfDispatch ⟨chainMethods, fun _ => none, none⟩ [2]).2 [2]).1 =
      .apply (.combined [] [⟨[.cls 0], .before, 0, true⟩]
        [⟨[.eql 2], .none, 1, false⟩, ⟨[.cls 1], .none, 2, true⟩] []) := by
  have enough : Enough chainMethods [2] := by simp [Enough, chainMethods]
  exact (gfDispatch_uncached ((Reachable.make chain chainMethods).call [2] enough) enough).trans
    (by decide)

end ClAmiga.Clos.Dispatch
