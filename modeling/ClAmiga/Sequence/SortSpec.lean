import ClAmiga.Sequence.InsertionSort

/-!
# SORT and MERGE

The three sorts rearrange the elements, and sort them the same way: by the merge sort of their
keys.  The merges of two sorted sequences agree with the merge of their elements.
-/

namespace ClAmiga.Sequence

open Cells (Memory Linked)
open Sorting (notAfter StrictWeakOn Stable)

variable {σ κ : Type} {memory : Memory Obj}

def Seq.Holds (memory : Memory Obj) : Seq → List Obj → Prop
  | .list head, xs => ∃ cells, Linked memory head cells ∧ xs = cells.map memory.car
  | .array length contents, xs => xs = elements length contents.elt

def Seq.Apart (memory : Memory Obj) : Seq → Seq → Prop
  | .list a, .list b =>
      ∀ xs ys, Linked memory a xs → Linked memory b ys → xs.Disjoint ys
  | _, _ => True

def InPlace : ResultType → Seq → Seq → Prop
  | .list, .list _, .list _ => True
  | _, _, _ => False

/-- The sorted elements: the same for every kind of sequence, where the calls have fixed results
and the predicate orders the keys. -/
structure SortsTo (calls : Calls σ κ) (xs ys : List Obj) : Prop where
  perm : ys.Perm xs
  stable : ∀ key less, calls.Results key less → StrictWeakOn (byKey key less) xs →
    Stable (byKey key less) xs ys ∧ ys = xs.mergeSort (elementOrder key less)

theorem SortsTo.of_stable {calls : Calls σ κ} {xs ys : List Obj} (perm : ys.Perm xs)
    (stable : ∀ key less, calls.Results key less → StrictWeakOn (byKey key less) xs →
      Stable (byKey key less) xs ys) : SortsTo calls xs ys :=
  ⟨perm, fun key less results order =>
    ⟨stable key less results order,
      (stable key less results order).unique_on order (Sorting.stable_mergeSort_on order)⟩⟩

theorem map_car_mergeSort (key : Obj → κ) (less : κ → κ → Bool) (cells : List Nat) :
    (cells.mergeSort (consOrder memory key less)).map memory.car =
      (cells.map memory.car).mergeSort (elementOrder key less) :=
  List.map_mergeSort fun _ _ _ _ => rfl

theorem map_car_merge (key : Obj → κ) (less : κ → κ → Bool) (xs ys : List Nat) :
    (xs.merge ys (consOrder memory key less)).map memory.car =
      (xs.map memory.car).merge (ys.map memory.car) (elementOrder key less) :=
  List.map_merge fun _ _ _ _ => rfl

theorem sortsTo_vector (calls : Calls σ κ) (length : Nat) (data : Nat → Obj) (s : σ) :
    SortsTo calls (elements length data)
      (elements length (vectorInsertionSort calls (length - 1) data s).1) :=
  have ⟨perm, stable⟩ := vectorInsertionSort_stable calls length data s
  .of_stable perm stable

theorem sortsTo_array (calls : Calls σ κ) (length : Nat) (contents : Contents) (s : σ) :
    SortsTo calls (elements length contents.elt)
      (elements length (arraySeqInsertionSort calls length contents s).1.elt) := by
  rw [arraySeqInsertionSort_elements]
  exact sortsTo_vector calls length contents.elt s

/-- SORT on a list, a general vector or a specialized one. -/
theorem sort_spec (calls : Calls σ κ) {fuel : Nat} {seq : Seq} (s : σ) {xs : List Obj}
    (holds : seq.Holds memory xs) (enough : xs.length < fuel) :
    ∃ seq' memory' s' ys, sort calls fuel seq memory s = some (seq', memory', s') ∧
      seq'.Holds memory' ys ∧ SortsTo calls xs ys := by
  match seq, holds with
  | .list head, ⟨cells, linked, same⟩ =>
      subst same
      rw [List.length_map] at enough
      obtain ⟨head', memory', sorted, s', ran, rearranged, result⟩ :=
        listMergeSort_spec calls s linked enough
      refine ⟨.list head', memory', s', sorted.map memory'.car, by rw [sort, ran]; rfl,
        ⟨sorted, rearranged.linked, rfl⟩, .of_stable rearranged.map_car ?_⟩
      intro key less results order
      rw [rearranged.car, result key less results, map_car_mergeSort]
      exact Sorting.stable_mergeSort_on order
  | .array length (.vector data), holds =>
      obtain rfl : xs = elements length data := holds
      exact ⟨_, memory, _, _, rfl, rfl, sortsTo_vector calls length data s⟩
  | .array length (.string codes), holds =>
      obtain rfl : xs = elements length (Contents.string codes).elt := holds
      exact ⟨_, memory, _, _, rfl, rfl, sortsTo_array calls length (.string codes) s⟩
  | .array length (.bits data), holds =>
      obtain rfl : xs = elements length (Contents.bits data).elt := holds
      exact ⟨_, memory, _, _, rfl, rfl, sortsTo_array calls length (.bits data) s⟩
  | .array length (.bytes width isSigned data), holds =>
      obtain rfl : xs = elements length (Contents.bytes width isSigned data).elt := holds
      exact ⟨_, memory, _, _, rfl, rfl, sortsTo_array calls length (.bytes width isSigned data) s⟩

/-- The merged elements: where the calls have fixed results and the operands are sorted, those
of the first are before the equal ones of the second. -/
structure MergesTo (calls : Calls σ κ) (xs ys zs : List Obj) : Prop where
  perm : zs.Perm (xs ++ ys)
  stable : ∀ key less, calls.Results key less → StrictWeakOn (byKey key less) (xs ++ ys) →
    (xs.Pairwise fun x y => elementOrder key less x y = true) →
      (ys.Pairwise fun x y => elementOrder key less x y = true) →
        Stable (byKey key less) (xs ++ ys) zs ∧ zs = xs.merge ys (elementOrder key less)

theorem MergesTo.of_merge {calls : Calls σ κ} {xs ys zs : List Obj} (perm : zs.Perm (xs ++ ys))
    (result : ∀ key less, calls.Results key less → zs = xs.merge ys (elementOrder key less)) :
    MergesTo calls xs ys zs :=
  ⟨perm, fun key less results order left right => by
    rw [result key less results]
    exact ⟨Sorting.stable_merge_on order left right, rfl⟩⟩

theorem listElements_linked {head : Option Nat} {cells : List Nat} {fuel : Nat}
    (linked : Linked memory head cells) (enough : cells.length ≤ fuel) :
    listElements memory fuel head = some (cells.map memory.car) := by
  induction cells generalizing head fuel with
  | nil =>
      obtain rfl : head = none := linked
      rw [listElements]
      rfl
  | cons cell cells induction =>
      obtain ⟨rfl, onto⟩ := linked
      match fuel with
      | fuel + 1 =>
          rw [listElements, induction onto (Nat.le_of_succ_le_succ enough)]
          rfl

theorem seqToGcVector_holds {seq : Seq} {xs : List Obj} {fuel : Nat} (holds : seq.Holds memory xs)
    (enough : xs.length ≤ fuel) : seqToGcVector fuel memory seq = some xs := by
  match seq, holds with
  | .list head, ⟨cells, linked, same⟩ =>
      subst same
      rw [List.length_map] at enough
      exact listElements_linked linked enough
  | .array length contents, holds =>
      obtain rfl : xs = elements length contents.elt := holds
      rfl

/-- The merge of what is left of two vectors. -/
theorem mergeVectors_spec (calls : Calls σ κ) {a1 a2 : List Obj} {left ia ib : Nat}
    (out : List Obj) (s : σ) (enough : (a1.drop ia).length + (a2.drop ib).length ≤ left) :
    ∃ merged s', mergeVectors calls a1 a2 left ia ib out s = (out ++ merged, s') ∧
      merged.Perm (a1.drop ia ++ a2.drop ib) ∧ ∀ key less, calls.Results key less →
          merged = (a1.drop ia).merge (a2.drop ib) (elementOrder key less) := by
  induction left generalizing ia ib out s with
  | zero =>
      have first : a1.drop ia = [] := List.eq_nil_of_length_eq_zero (by omega)
      have second : a2.drop ib = [] := List.eq_nil_of_length_eq_zero (by omega)
      rw [first, second]
      exact ⟨[], s, by rw [mergeVectors, List.append_nil], .refl _, fun _ _ _ => by simp⟩
  | succ left induction =>
      have takeA : ∀ x xs s, a1.drop ia = x :: xs → ∃ merged s',
          mergeVectors calls a1 a2 left (ia + 1) ib (out ++ [x]) s = (out ++ x :: merged, s') ∧
            merged.Perm (xs ++ a2.drop ib) ∧ ∀ key less, calls.Results key less →
              merged = xs.merge (a2.drop ib) (elementOrder key less) := by
        intro x xs s first
        have next : a1.drop (ia + 1) = xs := by rw [← List.tail_drop, first, List.tail_cons]
        obtain ⟨merged, s', ran, perm, result⟩ := @induction (ia + 1) ib (out ++ [x]) s (by
          rw [first, List.length_cons] at enough
          rw [next]
          omega)
        rw [next] at perm result
        exact ⟨merged, s', by simpa using ran, perm, result⟩
      have takeB : ∀ y ys s, a2.drop ib = y :: ys → ∃ merged s',
          mergeVectors calls a1 a2 left ia (ib + 1) (out ++ [y]) s = (out ++ y :: merged, s') ∧
            merged.Perm (a1.drop ia ++ ys) ∧ ∀ key less, calls.Results key less →
              merged = (a1.drop ia).merge ys (elementOrder key less) := by
        intro y ys s second
        have next : a2.drop (ib + 1) = ys := by rw [← List.tail_drop, second, List.tail_cons]
        obtain ⟨merged, s', ran, perm, result⟩ := @induction ia (ib + 1) (out ++ [y]) s (by
          rw [second, List.length_cons] at enough
          rw [next]
          omega)
        rw [next] at perm result
        exact ⟨merged, s', by simpa using ran, perm, result⟩
      have here : (a1.drop ia).head? = a1[ia]? := List.head?_drop
      have there : (a2.drop ib).head? = a2[ib]? := List.head?_drop
      rw [mergeVectors, ← here, ← there]
      cases first : a1.drop ia with
      | nil =>
          rw [first] at takeB
          cases second : a2.drop ib with
          | nil => exact ⟨[], s, by simp, .refl _, fun _ _ _ => by simp⟩
          | cons y ys =>
              obtain ⟨merged, s', ran, perm, result⟩ := takeB y ys s second
              refine ⟨y :: merged, s', ran, perm.cons y, fun key less results => ?_⟩
              rw [result key less results, List.nil_merge, List.nil_merge]
      | cons x xs =>
          rw [first] at takeB
          cases second : a2.drop ib with
          | nil =>
              rw [second] at takeA
              obtain ⟨merged, s', ran, perm, result⟩ := takeA x xs s first
              refine ⟨x :: merged, s', ran, perm.cons x, fun key less results => ?_⟩
              rw [result key less results, List.merge_right, List.merge_right]
          | cons y ys =>
              rw [second] at takeA
              have step : ∀ key less', calls.Results key less' →
                  (calls.before x y s).1 = !elementOrder key less' x y :=
                fun key less' results => results.before x y s
              cases less : (calls.before x y s).1 with
              | false =>
                  obtain ⟨merged, s', ran, perm, result⟩ :=
                    takeA x xs (calls.before x y s).2 first
                  refine ⟨x :: merged, s', by simpa [less] using ran, perm.cons x,
                    fun key less' results => ?_⟩
                  have stays : elementOrder key less' x y = true := by
                    simpa [less] using step key less' results
                  rw [List.cons_merge_cons, if_pos stays, result key less' results]
              | true =>
                  obtain ⟨merged, s', ran, perm, result⟩ :=
                    takeB y ys (calls.before x y s).2 second
                  refine ⟨y :: merged, s', by simpa [less] using ran,
                    (perm.cons y).trans List.perm_middle.symm, fun key less' results => ?_⟩
                  have goes : ¬ elementOrder key less' x y = true := by
                    simpa [less] using step key less' results
                  rw [List.cons_merge_cons, if_neg goes, result key less' results]

theorem merge_vectors (calls : Calls σ κ) {fuel : Nat} {rt : ResultType}
    (lenConstraint : Option Nat)
    {seq1 seq2 : Seq} (s : σ) {xs ys : List Obj} (first : seq1.Holds memory xs)
    (second : seq2.Holds memory ys) (enough : xs.length + ys.length < fuel)
    (elsewhere : ¬ InPlace rt seq1 seq2) :
    ∃ s' zs, merge calls fuel rt lenConstraint seq1 seq2 memory s =
        some (mergeResult rt lenConstraint zs, memory, s') ∧ MergesTo calls xs ys zs := by
  have left := @seqToGcVector_holds memory seq1 xs fuel first (by omega)
  have right := @seqToGcVector_holds memory seq2 ys fuel second (by omega)
  obtain ⟨zs, s', ran, perm, result⟩ :=
    @mergeVectors_spec _ _ calls xs ys (xs.length + ys.length) 0 0 [] s (by simp)
  refine ⟨s', zs, ?_, .of_merge perm result⟩
  rw [merge]
  · simp only [left, right, Option.bind_eq_bind, Option.bind_some, ran, List.nil_append]
  · rintro a b rfl rfl rfl
    exact elsewhere trivial

theorem merge_lists (calls : Calls σ κ) {fuel : Nat} (lenConstraint : Option Nat)
    {a b : Option Nat} (s : σ) {xs ys : List Obj} (first : (Seq.list a).Holds memory xs)
    (second : (Seq.list b).Holds memory ys) (enough : xs.length + ys.length < fuel)
    (apart : (Seq.list a).Apart memory (.list b)) :
    ∃ head memory' s' zs, merge calls fuel .list lenConstraint (.list a) (.list b) memory s =
        some (.ok (.conses head), memory', s') ∧ (Seq.list head).Holds memory' zs ∧
          MergesTo calls xs ys zs := by
  obtain ⟨left, linkedLeft, rfl⟩ := first
  obtain ⟨right, linkedRight, rfl⟩ := second
  rw [List.length_map, List.length_map] at enough
  obtain ⟨head, memory', merged, s', ran, rearranged, result⟩ :=
    listMerge_spec calls s linkedLeft linkedRight (apart _ _ linkedLeft linkedRight) enough
  refine ⟨head, memory', s', merged.map memory'.car, by rw [merge, ran]; rfl,
    ⟨merged, rearranged.linked, rfl⟩, .of_merge ?_ fun key less results => ?_⟩
  · rw [← List.map_append]
    exact rearranged.map_car
  · rw [rearranged.car, result key less results, map_car_merge]

/-- SORT of any sequence ends, under any predicate, and sorts the elements; MERGE merges those
of two sequences, in place or in a new one. -/
theorem sort_and_merge (calls : Calls σ κ) {fuel : Nat} (memory : Memory Obj) (s : σ) :
    (∀ seq xs, seq.Holds memory xs → xs.length < fuel →
      ∃ seq' memory' s' ys, sort calls fuel seq memory s = some (seq', memory', s') ∧
        seq'.Holds memory' ys ∧ SortsTo calls xs ys) ∧
    ∀ rt lenConstraint seq1 seq2 xs ys, seq1.Holds memory xs → seq2.Holds memory ys →
      xs.length + ys.length < fuel → (InPlace rt seq1 seq2 → seq1.Apart memory seq2) →
        ∃ result memory' s' zs,
          merge calls fuel rt lenConstraint seq1 seq2 memory s = some (result, memory', s') ∧
            MergesTo calls xs ys zs ∧ (InPlace rt seq1 seq2 →
                ∃ head, result = .ok (.conses head) ∧ (Seq.list head).Holds memory' zs) ∧
              (¬ InPlace rt seq1 seq2 → result = mergeResult rt lenConstraint zs) := by
  refine ⟨fun seq xs holds enough => sort_spec calls s holds enough,
    fun rt lenConstraint seq1 seq2 xs ys first second enough apart => ?_⟩
  by_cases inPlace : InPlace rt seq1 seq2
  · match rt, seq1, seq2, inPlace with
    | .list, .list a, .list b, inPlace =>
        obtain ⟨head, memory', s', zs, ran, holds, merged⟩ :=
          merge_lists calls lenConstraint s first second enough (apart inPlace)
        exact ⟨_, memory', s', zs, ran, merged, fun _ => ⟨head, rfl, holds⟩,
          fun elsewhere => absurd inPlace elsewhere⟩
  · obtain ⟨s', zs, ran, merged⟩ := merge_vectors calls lenConstraint s first second enough inPlace
    exact ⟨_, memory, s', zs, ran, merged, fun inPlace' => absurd inPlace' inPlace, fun _ => rfl⟩

def numbersLess : Obj → Obj → Bool
  | .fixnum m, .fixnum n => decide (m < n)
  | _, _ => false

def byNumber : Calls Unit Obj where
  key x s := (x, s)
  pred a b s := (numbersLess a b, s)

theorem byNumber_results : byNumber.Results id numbersLess := ⟨fun _ _ => rfl, fun _ _ _ => rfl⟩

def twoOne : Memory Obj where
  car cell := .fixnum (2 - cell)
  cdr cell := if cell = 0 then some 1 else none

theorem twoOne_holds : (Seq.list (some 0)).Holds twoOne [.fixnum 2, .fixnum 1] :=
  ⟨[0, 1], ⟨rfl, rfl, rfl⟩, rfl⟩

theorem numbersLess_strictWeakOn {xs : List Obj} (numbers : ∀ x ∈ xs, ∃ n, x = .fixnum n) :
    StrictWeakOn (byKey id numbersLess) xs where
  irrefl a aIn := by
    obtain ⟨m, rfl⟩ := numbers a aIn
    simp [byKey, numbersLess]
  trans a aIn b bIn c cIn := by
    obtain ⟨l, rfl⟩ := numbers a aIn
    obtain ⟨m, rfl⟩ := numbers b bIn
    obtain ⟨n, rfl⟩ := numbers c cIn
    simp only [byKey, numbersLess, id, decide_eq_true_eq]
    omega
  incomp a aIn b bIn c cIn := by
    obtain ⟨l, rfl⟩ := numbers a aIn
    obtain ⟨m, rfl⟩ := numbers b bIn
    obtain ⟨n, rfl⟩ := numbers c cIn
    simp only [byKey, numbersLess, id, decide_eq_false_iff_not]
    omega

/-- A list of two fixnums sorted, two vectors merged. -/
theorem sort_and_merge_numbers :
    (∃ seq' memory' s', sort byNumber 3 (.list (some 0)) twoOne () = some (seq', memory', s') ∧
      seq'.Holds memory' ([.fixnum 2, .fixnum 1].mergeSort (elementOrder id numbersLess))) ∧
    ∃ result memory' s',
      merge byNumber 3 .vector none (.array 1 (.vector fun _ => .fixnum 1))
          (.array 1 (.vector fun _ => .fixnum 1)) twoOne () = some (result, memory', s') ∧
        result = mergeResult .vector none [.fixnum 1, .fixnum 1] := by
  obtain ⟨sorts, merges⟩ := @sort_and_merge _ _ byNumber 3 twoOne ()
  constructor
  · obtain ⟨seq', memory', s', ys, ran, holds, sorted⟩ := sorts _ _ twoOne_holds (by decide)
    obtain ⟨-, rfl⟩ := sorted.stable id numbersLess byNumber_results
      (numbersLess_strictWeakOn (by simp))
    exact ⟨seq', memory', s', ran, holds⟩
  · have one : (Seq.array 1 (.vector fun _ => .fixnum 1)).Holds twoOne [.fixnum 1] := rfl
    obtain ⟨result, memory', s', zs, ran, merged, -, fresh⟩ :=
      merges .vector none _ _ _ _ one one (by decide) (fun inPlace => inPlace.elim)
    obtain ⟨-, rfl⟩ := merged.stable id numbersLess byNumber_results
      (numbersLess_strictWeakOn (by simp)) (List.pairwise_singleton ..) (List.pairwise_singleton ..)
    have together : [Obj.fixnum 1].merge [.fixnum 1] (elementOrder id numbersLess) =
        [.fixnum 1, .fixnum 1] := by
      rw [List.cons_merge_cons, if_pos (by decide), List.nil_merge]
    rw [together] at fresh
    exact ⟨result, memory', s', ran, fresh fun inPlace => inPlace⟩

/-- The list path makes a list that is merged with itself circular, and a string has no place
for a number. -/
theorem merge_with_itself :
    (¬ ∀ (memory : Memory Obj) (a : Option Nat) (xs : List Obj), (Seq.list a).Holds memory xs →
        ∀ fuel, xs.length + xs.length < fuel → ∃ head memory' s' zs,
          merge byNumber fuel .list none (.list a) (.list a) memory () =
              some (.ok (.conses head), memory', s') ∧ (Seq.list head).Holds memory' zs) ∧
      ¬ ∀ (n : Nat) (data : Nat → Obj) (fuel : Nat), n < fuel →
        (merge byNumber fuel .string none (.array n (.vector data)) (.list none) twoOne ()).map
            Prod.fst = some (.ok (.fresh .string (elements n data))) := by
  constructor
  · intro inPlace
    have alone : (Seq.list (some 1)).Holds twoOne [.fixnum 1] := ⟨[1], ⟨rfl, rfl⟩, rfl⟩
    obtain ⟨head, memory', s', zs, ran, cells, linked, -⟩ := inPlace twoOne _ _ alone 3 (by decide)
    obtain ⟨rfl, rfl⟩ : head = some 1 ∧ memory' = twoOne.setCdr 1 (some 1) := by
      cases ran
      exact ⟨rfl, rfl⟩
    match cells, linked with
    | cell :: cells, ⟨here, onto⟩ =>
        cases here
        have back : Linked (twoOne.setCdr 1 (some 1)) (some 1) cells := onto
        have loop : Linked (twoOne.setCdr 1 (some 1)) (some 1) (1 :: cells) := ⟨rfl, back⟩
        exact absurd (congrArg List.length (loop.unique back)) (by simp)
  · intro stored
    cases stored 1 (fun _ => .fixnum 1) 2 (by decide)

end ClAmiga.Sequence
