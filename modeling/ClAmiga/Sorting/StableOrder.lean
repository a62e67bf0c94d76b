import Mathlib.Data.List.Sort
import Mathlib.Data.List.TakeWhile

/-!
# Stable sorting

A test that is a strict weak ordering makes a total preorder.  A list sorted by it is
determined by what it holds of each class of equivalent elements, in order; so that all
stable sorts of a list agree, and so do all stable merges of two.
-/

namespace ClAmiga.Sorting

variable {α : Type*}

structure StrictWeak (less : α → α → Bool) : Prop where
  irrefl : ∀ a, less a a = false
  trans : ∀ a b c, less a b = true → less b c = true → less a c = true
  incomp : ∀ a b c, less a b = false → less b a = false → less b c = false → less c b = false →
    less a c = false ∧ less c a = false

def notAfter (less : α → α → Bool) (a b : α) : Bool :=
  !less b a

def tied (less : α → α → Bool) (a b : α) : Bool :=
  !less a b && !less b a

variable {less : α → α → Bool}

theorem tied_iff {a b : α} :
    tied less a b = true ↔ notAfter less a b = true ∧ notAfter less b a = true := by
  rw [tied, notAfter, notAfter, Bool.and_eq_true, and_comm]

theorem tied_symm {a b : α} (same : tied less a b = true) : tied less b a = true := by
  rw [tied_iff] at same ⊢
  exact same.symm

section Order

variable {less : α → α → Bool} (order : StrictWeak less)

include order

theorem StrictWeak.asymm {a b : α} (before : less a b = true) : less b a = false := by
  cases after : less b a with
  | false => rfl
  | true =>
      have loop := order.trans a b a before after
      rw [order.irrefl] at loop
      cases loop

theorem StrictWeak.notAfter_total (a b : α) : notAfter less a b || notAfter less b a := by
  rw [notAfter, notAfter]
  cases before : less a b with
  | false => simp
  | true => simp [order.asymm before]

theorem StrictWeak.notAfter_trans (a b c : α) (first : notAfter less a b = true)
    (second : notAfter less b c = true) : notAfter less a c = true := by
  rw [notAfter, Bool.not_eq_true'] at first second ⊢
  cases flipped : less c a with
  | false => rfl
  | true =>
      -- otherwise `a`, `b` and `b`, `c` are tied, and so are `a`, `c`
      have ab : less a b = false := by
        cases before : less a b with
        | false => rfl
        | true => rw [order.trans c a b flipped before] at second; cases second
      have bc : less b c = false := by
        cases before : less b c with
        | false => rfl
        | true => rw [order.trans b c a before flipped] at first; cases first
      rw [(order.incomp a b c ab first bc second).2] at flipped
      cases flipped

theorem StrictWeak.tied_self (a : α) : tied less a a = true := by
  rw [tied, order.irrefl]
  rfl

theorem StrictWeak.tied_trans {a b c : α} (first : tied less a b = true)
    (second : tied less b c = true) : tied less a c = true := by
  rw [tied_iff] at first second ⊢
  exact ⟨order.notAfter_trans a b c first.1 second.1, order.notAfter_trans c b a second.2 first.2⟩

end Order

/-- A list is rearranged in order, and holds the elements of each class in the order they had. -/
structure Stable (less : α → α → Bool) (original sorted : List α) : Prop where
  perm : sorted.Perm original
  ordered : sorted.Pairwise fun a b => notAfter less a b = true
  classes : ∀ a ∈ original, sorted.filter (tied less a) = original.filter (tied less a)

theorem head_notAfter (order : StrictWeak less) {a b : α} {xs : List α}
    (ordered : (a :: xs).Pairwise fun a b => notAfter less a b = true) (member : b ∈ a :: xs) :
    notAfter less a b = true := by
  rcases List.mem_cons.mp member with rfl | later
  · rw [notAfter, order.irrefl]
    rfl
  · exact (List.pairwise_cons.mp ordered).1 b later

theorem Stable.unique (order : StrictWeak less) {original first second : List α}
    (left : Stable less original first) (right : Stable less original second) :
    first = second := by
  induction first generalizing original second with
  | nil =>
      have empty : original = [] := left.perm.nil_eq.symm
      subst empty
      exact right.perm.eq_nil.symm
  | cons a first induction =>
      have classes : ∀ c ∈ a :: first,
          (a :: first).filter (tied less c) = second.filter (tied less c) := fun c member =>
        have inOriginal := left.perm.mem_iff.mp member
        (left.classes c inOriginal).trans (right.classes c inOriginal).symm
      have members : (a :: first).Perm second := left.perm.trans right.perm.symm
      cases second with
      | nil => exact absurd members.eq_nil (List.cons_ne_nil a first)
      | cons b second =>
          have forward := head_notAfter order right.ordered (members.mem_iff.mp List.mem_cons_self)
          have backward := head_notAfter order left.ordered (members.mem_iff.mpr List.mem_cons_self)
          have together : tied less a b = true := tied_iff.mpr ⟨backward, forward⟩
          have heads := classes a List.mem_cons_self
          rw [List.filter_cons_of_pos (order.tied_self a),
            List.filter_cons_of_pos together] at heads
          obtain ⟨rfl, -⟩ := List.cons.inj heads
          have tails : ∀ c ∈ first, first.filter (tied less c) = second.filter (tied less c) := by
            intro c member
            have both := classes c (List.mem_cons_of_mem a member)
            rw [List.filter_cons, List.filter_cons] at both
            split at both
            · exact (List.cons.inj both).2
            · exact both
          rw [induction ⟨.refl _, (List.pairwise_cons.mp left.ordered).2, fun _ _ => rfl⟩
            ⟨members.cons_inv.symm, (List.pairwise_cons.mp right.ordered).2,
              fun c member => (tails c member).symm⟩]

theorem StrictWeak.tied_congr (order : StrictWeak less) {a b : α}
    (together : tied less a b = true) (c : α) : tied less a c = tied less b c := by
  rw [Bool.eq_iff_iff]
  exact ⟨order.tied_trans (tied_symm together), order.tied_trans together⟩

theorem Stable.classes_all (order : StrictWeak less) {original sorted : List α}
    (stable : Stable less original sorted) (a : α) :
    sorted.filter (tied less a) = original.filter (tied less a) := by
  by_cases inClass : ∃ b ∈ original, tied less a b = true
  · obtain ⟨b, member, together⟩ := inClass
    have same : tied less a = tied less b := funext (order.tied_congr together)
    rw [same]
    exact stable.classes b member
  · have none : ∀ b ∈ original, ¬ tied less a b = true := fun b member together =>
      inClass ⟨b, member, together⟩
    rw [List.filter_eq_nil_iff.mpr none, List.filter_eq_nil_iff]
    exact fun b member => none b (stable.perm.mem_iff.mp member)

theorem Stable.insert (order : StrictWeak less) {original front back : List α}
    {v : α} (stable : Stable less original (front ++ back))
    (last : ∀ x ∈ front.getLast?, less v x = false) (behind : ∀ x ∈ back, less v x = true) :
    Stable less (original ++ [v]) (front ++ v :: back) := by
  obtain ⟨perm, ordered, -⟩ := id stable
  obtain ⟨frontOrdered, backOrdered, across⟩ := List.pairwise_append.mp ordered
  have afterV : ∀ x ∈ back, notAfter less v x = true := fun x member => by
    rw [notAfter, order.asymm (behind x member)]
    rfl
  have beforeV : ∀ x ∈ front, notAfter less x v = true := by
    intro x member
    obtain ⟨start, z, rfl⟩ := List.eq_nil_or_concat' front |>.resolve_left
      (List.ne_nil_of_mem member)
    have zLast : notAfter less z v = true := by
      rw [notAfter, last z (by simp)]
      rfl
    rcases List.mem_append.mp member with earlier | here
    · have toZ := (List.pairwise_append.mp frontOrdered).2.2 x earlier z List.mem_cons_self
      exact order.notAfter_trans x z v toZ zLast
    · obtain rfl := List.mem_singleton.mp here
      exact zLast
  have added : (front ++ v :: back).Perm (original ++ [v]) := by
    refine List.perm_middle.trans ((perm.cons v).trans ?_)
    exact (List.perm_append_singleton v original).symm
  refine ⟨added, ?_, fun a _ => ?_⟩
  · refine List.pairwise_append.mpr ⟨frontOrdered, List.pairwise_cons.mpr ⟨afterV, backOrdered⟩,
      fun x inFront y member => ?_⟩
    rcases List.mem_cons.mp member with rfl | inBack
    · exact beforeV x inFront
    · exact across x inFront y inBack
  · have kept := stable.classes_all order a
    cases together : tied less a v with
    | false =>
        have apart : ¬ tied less a v = true := by simp [together]
        rw [List.filter_append, List.filter_cons_of_neg apart, ← List.filter_append, kept,
          List.filter_append, List.filter_cons_of_neg apart, List.filter_nil, List.append_nil]
    | true =>
        have none : back.filter (tied less a) = [] := by
          rw [List.filter_eq_nil_iff]
          intro x member ofX
          have back' := (tied_iff.mp (order.tied_trans (tied_symm ofX) together)).1
          rw [notAfter, behind x member] at back'
          cases back'
        rw [List.filter_append, none, List.append_nil] at kept
        rw [List.filter_append, List.filter_cons_of_pos together, none, kept, List.filter_append,
          List.filter_cons_of_pos together, List.filter_nil]

/-- An element goes before the first one that it is before. -/
theorem Stable.insert_first (order : StrictWeak less)
    {original sorted : List α} (stable : Stable less original sorted) (v : α) :
    Stable less (original ++ [v])
      (sorted.takeWhile (notAfter less · v) ++ v :: sorted.dropWhile (notAfter less · v)) := by
  have split := @List.takeWhile_append_dropWhile α (notAfter less · v) sorted
  refine Stable.insert order (split.symm ▸ stable) (fun x isLast => ?_) fun x member => ?_
  · have before := List.mem_takeWhile_imp (List.mem_of_mem_getLast? isLast)
    simpa [notAfter] using before
  · have ordered := (List.pairwise_append.mp (split.symm ▸ stable.ordered)).2.1
    have some : sorted.dropWhile (notAfter less · v) ≠ [] := List.ne_nil_of_mem member
    have head := List.head_dropWhile_not (notAfter less · v) some
    rw [← List.cons_head_tail some] at member ordered
    have after := head_notAfter order ordered member
    by_contra notBefore
    have between : notAfter less x v = true := by simpa [notAfter] using notBefore
    rw [order.notAfter_trans _ _ _ after between] at head
    cases head

theorem mergeSort_append (le : α → α → Bool) {front back : List α} (some : back ≠ [])
    (half : front.length = (front.length + back.length + 1) / 2) :
    (front ++ back).mergeSort le = (front.mergeSort le).merge (back.mergeSort le) le := by
  have positive := List.length_pos_of_ne_nil some
  generalize whole : front ++ back = xs
  have length : xs.length = front.length + back.length := by rw [← whole, List.length_append]
  match xs, length with
  | [], length => simp at length; omega
  | [x], length => simp at length; omega
  | x :: y :: xs, length =>
      have middle : ((x :: y :: xs).length + 1) / 2 = front.length := by rw [length, ← half]
      have first : (x :: y :: xs).take (((x :: y :: xs).length + 1) / 2) = front := by
        rw [middle, ← whole, List.take_left]
      have second : (x :: y :: xs).drop (((x :: y :: xs).length + 1) / 2) = back := by
        rw [middle, ← whole, List.drop_left]
      rw [List.mergeSort, List.MergeSort.Internal.splitInTwo_fst,
        List.MergeSort.Internal.splitInTwo_snd]
      simp only [first, second]

theorem stable_mergeSort (order : StrictWeak less) (xs : List α) :
    Stable less xs (xs.mergeSort (notAfter less)) where
  perm := List.mergeSort_perm xs _
  ordered := List.pairwise_mergeSort order.notAfter_trans order.notAfter_total xs
  classes a _ := by
    have kept : (xs.filter (tied less a)).Sublist (xs.mergeSort (notAfter less)) := by
      refine List.sublist_mergeSort order.notAfter_trans order.notAfter_total ?_ List.filter_sublist
      refine List.pairwise_iff_forall_sublist.mpr fun {b c} pair => ?_
      have bIn := (List.mem_filter.mp (pair.subset (List.mem_cons_self))).2
      have cIn := (List.mem_filter.mp (pair.subset (List.mem_cons_of_mem _ List.mem_cons_self))).2
      exact (tied_iff.mp (order.tied_trans (tied_symm bIn) cIn)).1
    have filtered := kept.filter (tied less a)
    simp only [List.filter_filter, Bool.and_self] at filtered
    refine (filtered.eq_of_length ?_).symm
    exact ((List.mergeSort_perm xs _).filter _).length_eq.symm

/-- A merge of sorted lists holds the elements of each class of the first list before those of
the second. -/
theorem filter_merge (order : StrictWeak less) {xs ys : List α} (a : α)
    (left : xs.Pairwise fun a b => notAfter less a b = true)
    (right : ys.Pairwise fun a b => notAfter less a b = true) :
    (xs.merge ys (notAfter less)).filter (tied less a) = (xs ++ ys).filter (tied less a) := by
  induction xs generalizing ys with
  | nil => simp
  | cons x xs outer =>
      induction ys with
      | nil => simp
      | cons y ys inner =>
          obtain ⟨xFirst, xsOrdered⟩ := List.pairwise_cons.mp left
          obtain ⟨yFirst, ysOrdered⟩ := List.pairwise_cons.mp right
          rw [List.cons_merge_cons]
          split
          · have rest := outer xsOrdered right
            rw [List.filter_cons, rest, List.cons_append, List.filter_cons]
          · next after =>
              have before : less y x = true := by simpa [notAfter] using after
              have apart : tied less a y = true → (x :: xs).filter (tied less a) = [] := by
                intro ofY
                rw [List.filter_eq_nil_iff]
                intro z member ofZ
                have reached : notAfter less x z = true := by
                  rcases List.mem_cons.mp member with rfl | later
                  · rw [notAfter, order.irrefl]
                    rfl
                  · exact xFirst z later
                have back := (tied_iff.mp (order.tied_trans (tied_symm ofZ) ofY)).1
                have upTo := order.notAfter_trans x z y reached back
                rw [notAfter, before] at upTo
                cases upTo
              have merged := inner ysOrdered
              rw [List.filter_append] at merged ⊢
              cases ofY : tied less a y with
              | true =>
                  rw [List.filter_cons_of_pos ofY, List.filter_cons_of_pos ofY, merged, apart ofY]
                  rfl
              | false =>
                  have other : ¬ tied less a y = true := by simp [ofY]
                  rw [List.filter_cons_of_neg other, List.filter_cons_of_neg other, merged]

theorem stable_merge (order : StrictWeak less) {xs ys : List α}
    (left : xs.Pairwise fun a b => notAfter less a b = true)
    (right : ys.Pairwise fun a b => notAfter less a b = true) :
    Stable less (xs ++ ys) (xs.merge ys (notAfter less)) where
  perm := List.merge_perm_append _
  ordered := List.pairwise_merge order.notAfter_trans order.notAfter_total xs ys left right
  classes a _ := filter_merge order a left right

structure StrictWeakOn (less : α → α → Bool) (members : List α) : Prop where
  irrefl : ∀ a ∈ members, less a a = false
  trans : ∀ a ∈ members, ∀ b ∈ members, ∀ c ∈ members,
    less a b = true → less b c = true → less a c = true
  incomp : ∀ a ∈ members, ∀ b ∈ members, ∀ c ∈ members, less a b = false → less b a = false →
    less b c = false → less c b = false → less a c = false ∧ less c a = false

theorem StrictWeakOn.mono {members fewer : List α}
    (order : StrictWeakOn less members) (listed : fewer ⊆ members) : StrictWeakOn less fewer where
  irrefl a aIn := order.irrefl a (listed aIn)
  trans a aIn b bIn c cIn := order.trans a (listed aIn) b (listed bIn) c (listed cIn)
  incomp a aIn b bIn c cIn := order.incomp a (listed aIn) b (listed bIn) c (listed cIn)

open Classical in
/-- The other elements are before the members, and tied. -/
noncomputable def outsidersFirst (less : α → α → Bool) (members : List α) (a b : α) : Bool :=
  if b ∈ members then (if a ∈ members then less a b else true) else false

theorem outsidersFirst_eq {members : List α} :
    ∀ a ∈ members, ∀ b ∈ members, less a b = outsidersFirst less members a b := by
  intro a aIn b bIn
  rw [outsidersFirst, if_pos bIn, if_pos aIn]

theorem StrictWeakOn.extended {members : List α}
    (order : StrictWeakOn less members) : StrictWeak (outsidersFirst less members) where
  irrefl a := by
    by_cases aIn : a ∈ members
    · simpa [outsidersFirst, aIn] using order.irrefl a aIn
    · simp [outsidersFirst, aIn]
  trans a b c := by
    by_cases cIn : c ∈ members
    · by_cases bIn : b ∈ members
      · by_cases aIn : a ∈ members
        · simpa [outsidersFirst, aIn, bIn, cIn] using order.trans a aIn b bIn c cIn
        · simp [outsidersFirst, aIn, cIn]
      · simp [outsidersFirst, bIn]
    · simp [outsidersFirst, cIn]
  incomp a b c := by
    by_cases aIn : a ∈ members <;> by_cases bIn : b ∈ members <;> by_cases cIn : c ∈ members
    · simpa [outsidersFirst, aIn, bIn, cIn] using order.incomp a aIn b bIn c cIn
    all_goals simp [outsidersFirst, aIn, bIn, cIn]

theorem notAfter_congr {less less' : α → α → Bool} {members : List α}
    (same : ∀ a ∈ members, ∀ b ∈ members, less a b = less' a b) :
    ∀ a ∈ members, ∀ b ∈ members, notAfter less a b = notAfter less' a b := by
  intro a aIn b bIn
  rw [notAfter, notAfter, same b bIn a aIn]

theorem filter_tied_congr {less less' : α → α → Bool} {members xs : List α} {a : α}
    (same : ∀ a ∈ members, ∀ b ∈ members, less a b = less' a b) (member : a ∈ members)
    (listed : ∀ b ∈ xs, b ∈ members) : xs.filter (tied less a) = xs.filter (tied less' a) := by
  refine List.filter_congr fun b inXs => ?_
  rw [tied, tied, same a member b (listed b inXs), same b (listed b inXs) a member]

theorem Stable.congr {less less' : α → α → Bool} {original sorted : List α}
    (same : ∀ a ∈ original, ∀ b ∈ original, less a b = less' a b)
    (stable : Stable less original sorted) : Stable less' original sorted := by
  obtain ⟨perm, ordered, classes⟩ := stable
  have listed : ∀ b ∈ sorted, b ∈ original := fun b member => perm.mem_iff.mp member
  refine ⟨perm, ordered.imp_of_mem fun {a b} aIn bIn before => ?_, fun a member => ?_⟩
  · rwa [← notAfter_congr same a (listed a aIn) b (listed b bIn)]
  · rw [← filter_tied_congr same member listed, classes a member,
      filter_tied_congr same member fun _ inOriginal => inOriginal]

theorem mergeSort_congr {le le' : α → α → Bool} {xs : List α}
    (same : ∀ a ∈ xs, ∀ b ∈ xs, le a b = le' a b) : xs.mergeSort le = xs.mergeSort le' := by
  simpa using List.map_mergeSort (f := id) same

section Members

variable {less : α → α → Bool}

theorem stable_singleton (a : α) : Stable less [a] [a] :=
  ⟨.refl _, List.pairwise_singleton _ a, fun _ _ => rfl⟩

theorem Stable.unique_on {original first second : List α} (order : StrictWeakOn less original)
    (left : Stable less original first) (right : Stable less original second) :
    first = second :=
  (left.congr outsidersFirst_eq).unique order.extended (right.congr outsidersFirst_eq)

theorem stable_mergeSort_on {xs : List α} (order : StrictWeakOn less xs) :
    Stable less xs (xs.mergeSort (notAfter less)) := by
  have same := @outsidersFirst_eq α less xs
  rw [mergeSort_congr (notAfter_congr same)]
  exact (stable_mergeSort order.extended xs).congr fun a aIn b bIn =>
    (outsidersFirst_eq a aIn b bIn).symm

theorem Stable.insert_on {original front back : List α} {v : α}
    (order : StrictWeakOn less (original ++ [v])) (stable : Stable less original (front ++ back))
    (last : ∀ x ∈ front.getLast?, less v x = false) (behind : ∀ x ∈ back, less v x = true) :
    Stable less (original ++ [v]) (front ++ v :: back) := by
  have same := @outsidersFirst_eq α less (original ++ [v])
  have inserted : v ∈ original ++ [v] := List.mem_append_right _ List.mem_cons_self
  have earlier : ∀ x ∈ original, x ∈ original ++ [v] := fun x => List.mem_append_left _
  have listed : ∀ x ∈ front ++ back, x ∈ original ++ [v] := fun x member =>
    earlier x (stable.perm.mem_iff.mp member)
  have stable' := stable.congr fun a aIn b bIn => same a (earlier a aIn) b (earlier b bIn)
  refine (stable'.insert order.extended (fun x isLast => ?_) fun x member => ?_).congr
    fun a aIn b bIn => (same a aIn b bIn).symm
  · have member := List.mem_append_left back (List.mem_of_mem_getLast? isLast)
    rw [← same v inserted x (listed x member)]
    exact last x isLast
  · rw [← same v inserted x (listed x (List.mem_append_right front member))]
    exact behind x member

theorem stable_merge_on {xs ys : List α} (order : StrictWeakOn less (xs ++ ys))
    (left : xs.Pairwise fun a b => notAfter less a b = true)
    (right : ys.Pairwise fun a b => notAfter less a b = true) :
    Stable less (xs ++ ys) (xs.merge ys (notAfter less)) := by
  have same := @outsidersFirst_eq α less (xs ++ ys)
  have pairs := notAfter_congr same
  have leftIn : ∀ a ∈ xs, a ∈ xs ++ ys := fun a => List.mem_append_left _
  have rightIn : ∀ a ∈ ys, a ∈ xs ++ ys := fun a => List.mem_append_right _
  have merged := stable_merge order.extended
    (left.imp_of_mem fun {a b} aIn bIn before => by
      rwa [← pairs a (leftIn a aIn) b (leftIn b bIn)])
    (right.imp_of_mem fun {a b} aIn bIn before => by
      rwa [← pairs a (rightIn a aIn) b (rightIn b bIn)])
  have agree : xs.merge ys (notAfter less) =
      xs.merge ys (notAfter (outsidersFirst less (xs ++ ys))) := by
    simpa using List.map_merge (f := id)
      (fun a aIn b bIn => pairs a (leftIn a aIn) b (rightIn b bIn))
  rw [agree]
  exact merged.congr fun a aIn b bIn => (same a aIn b bIn).symm

end Members

end ClAmiga.Sorting
