import Mathlib.Data.Nat.SuccPred
import Mathlib.Algebra.Order.Archimedean.Basic
import ClAmiga.Circle.Follow

/-!
# When printing ends

Printing ends when every list that is followed ends, and does not when one of them runs on
forever: whatever the fuel, it is used up there.  A cycle of cdrs stops the printer only if
the walk met one of its conses twice, and the walk does not enter every node.
-/

namespace ClAmiga.Circle

open ClAmiga.Graph (Found)

/-- Printing an object ends after some visits. -/
def Ends (found : Found Obj) (label : Obj → Nat) (print : Obj → Printer → Option Printer)
    (visits : Visits) (obj : Obj) : Prop :=
  ∀ printer, Marked found label visits.seen printer.table → ∃ after, print obj printer = some after

def EndsAll (found : Found Obj) (label : Obj → Nat) (print : Obj → Printer → Option Printer)
    (visit : Visits → Obj → Visits) : Visits → List Obj → Prop
  | _, [] => True
  | visits, obj :: objs =>
      Ends found label print visits obj ∧ EndsAll found label print visit (visit visits obj) objs

section Ending

variable {heap : Heap} {settings : Settings} {found : Found Obj} {label : Obj → Nat}
  {print : Obj → Printer → Option Printer} {visit : Visits → Obj → Visits}

theorem printRest_ends (labelled : Labelled heap found label) (unlimited : settings.length < 0)
    (follows : Follows heap found label print visit) {obj : Obj} {objs : List Obj}
    (chain : Chain heap found.shared obj objs) :
    ∀ (fuel : Nat) (count : Int) (visits : Visits) (printer : Printer), objs.length ≤ fuel →
      EndsAll found label print visit visits objs →
      Marked found label visits.seen printer.table →
      ∃ after, printRest heap settings print fuel count obj printer = some after := by
  induction chain with
  | close =>
      intro fuel count visits printer _ _ _
      exact ⟨printer, printRest_nil fuel count printer⟩
  | dot stops present =>
      intro fuel count visits printer _ ends marked
      rw [printRest_stops labelled unlimited marked stops present]
      exact ends.1 (printer.put heap .dot) marked
  | @more obj car cdr objs cell single rest induction =>
      intro fuel count visits printer enough ends marked
      cases fuel with
      | zero => exact absurd enough (by simp)
      | succ fuel =>
          rw [(printRest_goesOn labelled unlimited marked cell single fuel count).2]
          obtain ⟨middle, first⟩ := ends.1 (printer.separate heap settings) (by simpa using marked)
          have visited := follows _ visits _ middle (by simpa using marked) first
          obtain ⟨after, printed⟩ := induction fuel (count + 1) _ middle
            (by simpa using enough) ends.2 visited.1
          exact ⟨after, by rw [first, Option.bind_some, printed]⟩

theorem printElements_ends (unlimited : settings.length < 0)
    (follows : Follows heap found label print visit) (elts : List Obj) :
    ∀ (i : Nat) (visits : Visits) (printer : Printer), EndsAll found label print visit visits elts →
      Marked found label visits.seen printer.table →
      ∃ after, printElements heap settings print i elts printer = some after := by
  induction elts with
  | nil => exact fun i visits printer _ _ => ⟨printer, by rw [printElements]⟩
  | cons elt elts induction =>
      intro i visits printer ends marked
      have marks : Marked found label visits.seen
          (if 0 < i then printer.separate heap settings else printer).table := by
        split <;> simpa using marked
      obtain ⟨middle, first⟩ := ends.1 _ marks
      have visited := follows elt visits _ middle marks first
      obtain ⟨after, printed⟩ := induction (i + 1) _ middle ends.2 visited.1
      exact ⟨after, by
        rw [printElements, if_neg (no_limit unlimited i), first, Option.bind_some, printed]⟩

theorem printCell_ends {fuel room : Nat} {obj : Obj} {start : Printer} {visits : Visits}
    (labelled : Labelled heap found label) (unlimited : settings.length < 0)
    (finite : ∀ list ∈ followed heap settings (printHardCap - (room + 1)) obj,
      ¬ heap.Endless found.shared list)
    (ends : EndsAll found label (printObj heap settings fuel room)
      (Circle.visit heap settings found.shared room) visits
      (contents heap settings found.shared (printHardCap - (room + 1)) obj))
    (enough : (contents heap settings found.shared (printHardCap - (room + 1)) obj).length ≤ fuel)
    (marked : Marked found label visits.seen start.table) :
    ∃ after, printCell heap settings fuel room obj start = some after := by
  have follows := printObj_follows labelled unlimited fuel room
  rw [printCell]
  rw [contents] at ends enough
  rw [followed] at finite
  cases cell : heap.cell obj with
  | none => exact ⟨_, rfl⟩
  | some contents =>
      simp only [cell] at ends enough finite
      cases contents with
      | cons car cdr =>
          simp only [printList]
          by_cases cut : settings.cuts (printHardCap - (room + 1))
          · rw [if_pos cut]
            exact ⟨_, rfl⟩
          · simp only [if_neg cut] at ends enough finite
            rw [if_neg cut, if_neg (by omega)]
            obtain ⟨objs, chain⟩ := exists_chain (finite cdr (List.mem_singleton_self cdr))
            rw [chain.tail_eq] at ends enough
            have marks : Marked found label visits.seen
                ((start.put heap .openList).pushIndent settings).table := by
              simpa using marked
            obtain ⟨middle, first⟩ := ends.1 _ marks
            have visited := follows car visits _ middle marks first
            obtain ⟨after, printed⟩ := printRest_ends labelled unlimited follows chain fuel
              1 _ middle (Nat.le_of_succ_le (by simpa using enough)) ends.2 visited.1
            exact ⟨_, by rw [first, Option.bind_some, printed, Option.map_some]⟩
      | vector elts =>
          simp only [printVector]
          by_cases hidden : settings.array = false
          · rw [if_pos hidden]
            exact ⟨_, rfl⟩
          · by_cases cut : settings.cuts (printHardCap - (room + 1))
            · rw [if_neg hidden, if_pos cut]
              exact ⟨_, rfl⟩
            · simp only [if_neg (not_or.mpr ⟨hidden, cut⟩)] at ends
              rw [if_neg hidden, if_neg cut]
              obtain ⟨after, printed⟩ := printElements_ends unlimited follows elts 0 visits
                ((start.put heap .openVector).pushIndent settings) ends (by simpa using marked)
              exact ⟨_, by rw [printed, Option.map_some]⟩

end Ending

section Fuel

open Filter

variable {heap : Heap} {settings : Settings} {found : Found Obj} {label : Obj → Nat} {room : Nat}

theorem endsAll_of (ends : ∀ visits obj,
      (∀ list ∈ (visit heap settings found.shared room visits obj).lists,
        ¬ heap.Endless found.shared list) →
      ∀ᶠ fuel in atTop, Ends found label (printObj heap settings fuel room) visits obj)
    (objs : List Obj) :
    ∀ visits, (∀ list ∈ (objs.foldl (visit heap settings found.shared room) visits).lists,
        ¬ heap.Endless found.shared list) →
      ∀ᶠ fuel in atTop, EndsAll found label (printObj heap settings fuel room)
        (visit heap settings found.shared room) visits objs := by
  induction objs with
  | nil => exact fun visits _ => Eventually.of_forall fun fuel => trivial
  | cons obj objs induction =>
      intro visits finite
      have first := ends visits obj fun list member =>
        finite list (lists_foldl_subset (lists_subset heap settings found.shared room) objs _ list
          member)
      have others := induction (visit heap settings found.shared room visits obj) finite
      filter_upwards [first, others] with fuel one all
      exact ⟨one, all⟩

theorem printObj_ends (labelled : Labelled heap found label) (unlimited : settings.length < 0)
    (room : Nat) :
    ∀ visits obj, (∀ list ∈ (visit heap settings found.shared room visits obj).lists,
        ¬ heap.Endless found.shared list) →
      ∀ᶠ fuel in atTop, Ends found label (printObj heap settings fuel room) visits obj := by
  induction room with
  | zero => exact fun visits obj _ => Eventually.of_forall fun fuel printer _ => ⟨_, rfl⟩
  | succ room induction =>
      intro visits obj finite
      by_cases enters : obj ∈ found.shared ∧ obj ∈ visits.seen
      · refine Eventually.of_forall fun fuel printer marked => ?_
        rcases printObj_cases labelled fuel room obj printer marked with
          ⟨_, _, refers⟩ | ⟨entered, _⟩
        · exact ⟨_, refers⟩
        · exact absurd enters entered
      · rw [visit_entered enters] at finite
        have all := endsAll_of induction _ _ finite
        have long : ∀ᶠ fuel in atTop,
            (contents heap settings found.shared (printHardCap - (room + 1)) obj).length ≤ fuel :=
          eventually_ge_atTop _
        filter_upwards [all, long] with fuel ends enough
        intro printer marked
        rcases printObj_cases labelled fuel room obj printer marked with
          ⟨shared, old, _⟩ | ⟨_, start, marks, _, same⟩
        · exact absurd ⟨shared, old⟩ enters
        · rw [same]
          refine printCell_ends labelled unlimited (fun list listed => ?_) ends enough marks
          exact finite list (lists_foldl_subset (lists_subset heap settings found.shared room) _ _
            list (List.mem_append_left _ listed))

end Fuel

section Limited

variable {heap : Heap} {settings : Settings} {print : Obj → Printer → Option Printer}

theorem printRest_limited (limited : 0 ≤ settings.length)
    (ends : ∀ obj printer, ∃ after, print obj printer = some after) (fuel : Nat) :
    ∀ (count : Int) (obj : Obj) (printer : Printer), settings.length ≤ count + fuel →
      ∃ after, printRest heap settings print fuel count obj printer = some after := by
  have stopped : ∀ obj printer, ∃ after,
      (if obj = 0 then some printer else print obj (printer.put heap .dot)) = some after := by
    intro obj printer
    split
    · exact ⟨_, rfl⟩
    · exact ends _ _
  induction fuel with
  | zero =>
      intro count obj printer enough
      rw [printRest.eq_def]
      split
      · exact ⟨_, if_pos ⟨limited, by simpa using enough⟩⟩
      · exact stopped obj printer
  | succ fuel induction =>
      intro count obj printer enough
      rw [printRest.eq_def]
      split
      · next car cdr cell =>
          split
          · exact ⟨_, rfl⟩
          · split
            · exact ends _ _
            · obtain ⟨middle, first⟩ := ends car (printer.separate heap settings)
              obtain ⟨after, rest⟩ := induction (count + 1) cdr middle (by
                push_cast at enough
                omega)
              exact ⟨after, by simp only [first, Option.bind_some, rest]⟩
      · exact stopped obj printer

theorem printElements_total (ends : ∀ obj printer, ∃ after, print obj printer = some after)
    (elts : List Obj) :
    ∀ (i : Nat) (printer : Printer),
      ∃ after, printElements heap settings print i elts printer = some after := by
  induction elts with
  | nil => exact fun i printer => ⟨printer, by rw [printElements]⟩
  | cons elt elts induction =>
      intro i printer
      rw [printElements]
      split
      · exact ⟨_, rfl⟩
      · obtain ⟨middle, first⟩ :=
          ends elt (if 0 < i then printer.separate heap settings else printer)
        obtain ⟨after, rest⟩ := induction (i + 1) middle
        exact ⟨after, by rw [first, Option.bind_some, rest]⟩

theorem printObj_limited (limited : 0 ≤ settings.length) (fuel : Nat)
    (enough : settings.length ≤ 1 + fuel) (room : Nat) :
    ∀ obj printer, ∃ after, printObj heap settings fuel room obj printer = some after := by
  induction room with
  | zero => exact fun obj printer => ⟨_, rfl⟩
  | succ room induction =>
      intro obj printer
      rw [printObj]
      split
      · exact ⟨_, rfl⟩
      · cases cell : heap.cell obj with
        | none => exact ⟨_, rfl⟩
        | some contents =>
            cases contents with
            | cons car cdr =>
                simp only [printList]
                split
                · exact ⟨_, rfl⟩
                · split
                  · exact ⟨_, rfl⟩
                  · obtain ⟨middle, first⟩ := induction car
                      (((printer.circleCheck heap obj).2.put heap .openList).pushIndent settings)
                    obtain ⟨after, rest⟩ :=
                      printRest_limited limited induction fuel 1 cdr middle enough
                    exact ⟨_, by rw [first, Option.bind_some, rest, Option.map_some]⟩
            | vector elts =>
                simp only [printVector]
                split
                · exact ⟨_, rfl⟩
                · split
                  · exact ⟨_, rfl⟩
                  · obtain ⟨after, printed⟩ := printElements_total induction elts 0
                      (((printer.circleCheck heap obj).2.put heap .openVector).pushIndent settings)
                    exact ⟨_, by rw [printed, Option.map_some]⟩

end Limited

theorem labelled_circleTable (heap : Heap) (root : Obj) :
    ∃ label, Labelled heap (heap.found root) label ∧
      Marked (heap.found root) label [] (circleTable heap root) := by
  obtain ⟨label, distinct, marked⟩ := circleTable_marked heap root
  exact ⟨label, ⟨kept_of_shared heap root, compound_of_kept heap root, distinct⟩, marked⟩

/-- The cdrs whose lists are followed when an object is printed from some depth on. -/
noncomputable def Heap.followedLists (heap : Heap) (settings : Settings) (depth : Nat)
    (root : Obj) : List Obj :=
  (visit heap settings (heap.found root).shared (printHardCap - depth) ⟨[], []⟩ root).lists

def Terminates (heap : Heap) (settings : Settings) (depth : Nat) (root : Obj) : Prop :=
  ∃ fuel text, clWrite heap settings fuel depth root = some text

section Terminates

variable {heap : Heap} {settings : Settings} {depth : Nat} {root : Obj}

theorem terminates_of_limit (limited : 0 ≤ settings.length) :
    Terminates heap settings depth root := by
  obtain ⟨after, printed⟩ := @printObj_limited heap settings limited settings.length.toNat
    (by omega) (printHardCap - depth) root ⟨circleTable heap root, [], 0, []⟩
  exact ⟨settings.length.toNat, _, by rw [clWrite, printed, Option.map_some]⟩

theorem terminates_of_ends (unlimited : settings.length < 0)
    (finite : ∀ list ∈ heap.followedLists settings depth root,
      ¬ heap.Endless (heap.found root).shared list) : Terminates heap settings depth root := by
  obtain ⟨label, labelled, marked⟩ := labelled_circleTable heap root
  rw [Heap.followedLists] at finite
  simp only [Terminates, clWrite]
  generalize printHardCap - depth = room at finite ⊢
  generalize circleTable heap root = table at marked ⊢
  obtain ⟨fuel, ends⟩ := (printObj_ends labelled unlimited room ⟨[], []⟩ root finite).exists
  obtain ⟨after, printed⟩ := ends ⟨table, [], 0, []⟩ marked
  exact ⟨fuel, _, by rw [printed, Option.map_some]⟩

theorem ends_of_terminates (unlimited : settings.length < 0)
    (terminates : Terminates heap settings depth root) :
    ∀ list ∈ heap.followedLists settings depth root,
      ¬ heap.Endless (heap.found root).shared list := by
  obtain ⟨label, labelled, marked⟩ := labelled_circleTable heap root
  obtain ⟨fuel, text, written⟩ := terminates
  obtain ⟨after, printed, _⟩ := Option.map_eq_some_iff.mp written
  rw [Heap.followedLists]
  generalize printHardCap - depth = room at printed ⊢
  generalize circleTable heap root = table at marked printed
  intro list member
  rcases (printObj_follows labelled unlimited fuel room root ⟨[], []⟩ _ after
    marked printed).2 list member with before | ends
  · cases before
  · exact ends

end Terminates

section Fuel

variable {heap : Heap} {settings : Settings} {print print' : Obj → Printer → Option Printer}

/-- What is printed with some fuel is printed with more. -/
def Extended (print print' : Obj → Printer → Option Printer) : Prop :=
  ∀ obj printer after, print obj printer = some after → print' obj printer = some after

theorem printRest_mono (extended : Extended print print') {fuel fuel' : Nat} (le : fuel ≤ fuel')
    (count : Int) (obj : Obj) (printer : Printer) {after : Printer}
    (printed : printRest heap settings print fuel count obj printer = some after) :
    printRest heap settings print' fuel' count obj printer = some after := by
  induction fuel generalizing fuel' count obj printer with
  | zero =>
      rw [printRest.eq_def] at printed ⊢
      split at printed
      · split at printed
        · next cut => rwa [if_pos cut]
        · next uncut =>
            rw [if_neg uncut]
            split at printed
            · next shared =>
                rw [if_pos shared]
                exact extended _ _ _ printed
            · cases printed
      · split at printed
        · next nil => rwa [if_pos nil]
        · next present =>
            rw [if_neg present]
            exact extended _ _ _ printed
  | succ fuel induction =>
      obtain ⟨more, rfl⟩ := Nat.exists_eq_add_of_le' le
      rw [printRest.eq_def] at printed ⊢
      split at printed
      · split at printed
        · next cut => rwa [if_pos cut]
        · next uncut =>
            rw [if_neg uncut]
            split at printed
            · next shared =>
                rw [if_pos shared]
                exact extended _ _ _ printed
            · next single =>
                rw [if_neg single]
                obtain ⟨middle, first, rest⟩ := Option.bind_eq_some_iff.mp printed
                exact Option.bind_eq_some_iff.mpr ⟨middle, extended _ _ _ first,
                  induction (Nat.le_add_left _ _) _ _ _ rest⟩
      · split at printed
        · next nil => rwa [if_pos nil]
        · next present =>
            rw [if_neg present]
            exact extended _ _ _ printed

theorem printElements_mono (extended : Extended print print') (i : Nat) (elts : List Obj)
    (printer : Printer) {after : Printer}
    (printed : printElements heap settings print i elts printer = some after) :
    printElements heap settings print' i elts printer = some after := by
  induction elts generalizing i printer with
  | nil => exact printed
  | cons elt elts induction =>
      rw [printElements] at printed ⊢
      split at printed
      · next cut => rwa [if_pos cut]
      · next uncut =>
          rw [if_neg uncut]
          obtain ⟨middle, first, rest⟩ := Option.bind_eq_some_iff.mp printed
          exact Option.bind_eq_some_iff.mpr ⟨middle, extended _ _ _ first, induction _ _ rest⟩

theorem printObj_mono {fuel fuel' : Nat} (le : fuel ≤ fuel') (room : Nat) :
    Extended (printObj heap settings fuel room) (printObj heap settings fuel' room) := by
  induction room with
  | zero => exact fun obj printer after printed => printed
  | succ room induction =>
      intro obj printer after printed
      rw [printObj] at printed ⊢
      split at printed
      · next seen => rwa [if_pos seen]
      · next new =>
          rw [if_neg new]
          split at printed
          · exact printed
          · next car cdr _ =>
              rw [printList] at printed ⊢
              split at printed
              · next cut => rwa [if_pos cut]
              · next uncut =>
                  rw [if_neg uncut]
                  obtain ⟨inner, contents, closed⟩ := Option.map_eq_some_iff.mp printed
                  refine Option.map_eq_some_iff.mpr ⟨inner, ?_, closed⟩
                  split at contents
                  · next none => rwa [if_pos none]
                  · next some_length =>
                      rw [if_neg some_length]
                      obtain ⟨middle, first, rest⟩ := Option.bind_eq_some_iff.mp contents
                      exact Option.bind_eq_some_iff.mpr ⟨middle, induction _ _ _ first,
                        printRest_mono induction le _ _ _ rest⟩
          · rw [printVector] at printed ⊢
            split at printed
            · next plain => rwa [if_pos plain]
            · next array =>
                rw [if_neg array]
                split at printed
                · next cut => rwa [if_pos cut]
                · next uncut =>
                    rw [if_neg uncut]
                    obtain ⟨inner, contents, closed⟩ := Option.map_eq_some_iff.mp printed
                    exact Option.map_eq_some_iff.mpr
                      ⟨inner, printElements_mono induction _ _ _ contents, closed⟩

/-- The text does not depend on the fuel. -/
theorem clWrite_unique {depth : Nat} {root : Obj} {fuel fuel' : Nat} {text text' : List Token}
    (written : clWrite heap settings fuel depth root = some text)
    (written' : clWrite heap settings fuel' depth root = some text') : text = text' := by
  have grows {fuel fuel' : Nat} {text : List Token} (le : fuel ≤ fuel')
      (written : clWrite heap settings fuel depth root = some text) :
      clWrite heap settings fuel' depth root = some text := by
    obtain ⟨printer, printed, shown⟩ := Option.map_eq_some_iff.mp written
    exact Option.map_eq_some_iff.mpr ⟨printer, printObj_mono le _ _ _ _ printed, shown⟩
  have left := grows (Nat.le_max_left fuel fuel') written
  have right := grows (Nat.le_max_right fuel fuel') written'
  exact Option.some.inj (left.symm.trans right)

end Fuel

/-- Printing ends if and only if `*print-length*` limits the lists, or every list that is
followed ends or comes to a node that the walk met twice. -/
theorem print_terminates_iff (heap : Heap) (settings : Settings) (depth : Nat) (root : Obj) :
    Terminates heap settings depth root ↔
      0 ≤ settings.length ∨ ∀ list ∈ heap.followedLists settings depth root,
        ¬ heap.Endless (heap.found root).shared list := by
  constructor
  · intro terminates
    by_cases limited : 0 ≤ settings.length
    · exact .inl limited
    · exact .inr (ends_of_terminates (by omega) terminates)
  · rintro (limited | finite)
    · exact terminates_of_limit limited
    · by_cases limited : 0 ≤ settings.length
      · exact terminates_of_limit limited
      · exact terminates_of_ends (by omega) finite

/-- A list that does not end comes to a cons that is one of its own cdrs. -/
theorem terminates_of_no_cycle {heap : Heap} (settings : Settings) (depth : Nat) (root : Obj)
    (acyclic : ∀ obj car cdr, heap.cell obj = some (.cons car cdr) →
      ∀ n, heap.cdr^[n + 1] obj ≠ obj) : Terminates heap settings depth root := by
  by_cases limited : 0 ≤ settings.length
  · exact terminates_of_limit limited
  · refine terminates_of_ends (by omega) fun list _ endless => ?_
    obtain ⟨i, j, less, same⟩ := exists_cdrs_eq heap list
    obtain ⟨⟨car, cdr, cell⟩, _⟩ := endless i
    refine acyclic _ car cdr cell (j - i - 1) ?_
    rw [← Function.iterate_add_apply, Nat.sub_add_cancel (by omega), Nat.sub_add_cancel less.le]
    exact same.symm

def lasso : Heap where
  cell obj :=
    if obj.toNat % 16 = 0 ∧ 16 ≤ obj.toNat ∧ obj.toNat ≤ 3200 then
      some (.cons 3 (if obj.toNat = 3200 then obj else obj + 16))
    else
      none
  text _ := "1"
  cell_nil := by decide

def lassoCons (place : Nat) : Obj :=
  UInt32.ofNat (16 * (place + 1))

theorem toNat_lassoCons {place : Nat} (inside : place < 200) :
    (lassoCons place).toNat = 16 * (place + 1) := by
  rw [lassoCons, UInt32.toNat_ofNat']
  omega

theorem lasso_cell {place : Nat} (inside : place < 200) : lasso.cell (lassoCons place) =
      some (.cons 3 (lassoCons (if place = 199 then 199 else place + 1))) := by
  have number := toNat_lassoCons inside
  simp only [lasso, number]
  rw [if_pos (by omega)]
  by_cases last : place = 199
  · simp [last]
  · rw [if_neg (by omega), if_neg last]
    congr 2
    apply UInt32.toNat_inj.mp
    rw [UInt32.toNat_add, number, toNat_lassoCons (by omega)]
    change (16 * (place + 1) + 16) % 4294967296 = _
    omega

theorem lasso_compound {place : Nat} (inside : place < 200) :
    lasso.circleCompoundP (lassoCons place) = true := by
  rw [Heap.circleCompoundP, lasso_cell inside]
  rfl

theorem lasso_next {place : Nat} (inside : place < 199) :
    lasso.next (lassoCons place) = [lassoCons (place + 1)] := by
  have next := lasso_compound (show place + 1 < 200 by omega)
  have number : lasso.circleCompoundP 3 = false := by decide
  rw [Heap.next, Heap.parts, lasso_cell (by omega), if_neg (by omega)]
  simp [next, number]

def lassoBefore : Nat → List Obj
  | 0 => []
  | place + 1 => lassoCons place :: lassoBefore place

theorem length_lassoBefore (place : Nat) : (lassoBefore place).length = place := by
  induction place with
  | zero => rfl
  | succ place induction => rw [lassoBefore, List.length_cons, induction]

theorem mem_lassoBefore {place : Nat} {obj : Obj} (member : obj ∈ lassoBefore place) :
    ∃ earlier < place, obj = lassoCons earlier := by
  induction place with
  | zero => cases member
  | succ place induction =>
      rcases List.mem_cons.mp member with rfl | before
      · exact ⟨place, Nat.lt_succ_self _, rfl⟩
      · obtain ⟨earlier, below, same⟩ := induction before
        exact ⟨earlier, Nat.lt_succ_of_lt below, same⟩

theorem lasso_new {place : Nat} (inside : place < 200) : lassoCons place ∉ lassoBefore place := by
  intro member
  obtain ⟨earlier, below, same⟩ := mem_lassoBefore member
  have numbers := congrArg UInt32.toNat same
  rw [toNat_lassoCons inside, toNat_lassoCons (by omega)] at numbers
  omega

theorem lasso_walk (place : Nat) (inside : place ≤ circleLimit) :
    Graph.boundedWalk lasso.next circleLimit stackRoom [] [] [lassoCons 0] =
      Graph.boundedWalk lasso.next circleLimit stackRoom (lassoBefore place) []
        [lassoCons place] := by
  have limit : circleLimit = 192 := rfl
  induction place with
  | zero => rfl
  | succ place induction =>
      rw [induction (by omega), Graph.boundedWalk_new (lasso_new (by omega)) (by
        rw [length_lassoBefore]; omega), lasso_next (by omega)]
      rfl

theorem lasso_shared : (lasso.found (lassoCons 0)).shared = [] := by
  have limit : circleLimit = 192 := rfl
  rw [Heap.found, if_pos (lasso_compound (by omega)), lasso_walk circleLimit (le_refl _),
    Graph.boundedWalk_full (lasso_new (by omega)) (by rw [length_lassoBefore]),
    Graph.boundedWalk_nil]

theorem lasso_cdrs (n : Nat) :
    ∀ place < 200, ∃ later < 200, lasso.cdr^[n] (lassoCons place) = lassoCons later := by
  induction n with
  | zero => exact fun place inside => ⟨place, inside, rfl⟩
  | succ n induction =>
      intro place inside
      rw [Function.iterate_succ_apply, Heap.cdr_of_cell (lasso_cell inside)]
      exact induction _ (by split <;> omega)

/-- The lasso is printed forever: its last cons is not in the table. -/
theorem lasso_runs_on : ¬ Terminates lasso ⟨-1, -1, false, 72, true⟩ 0 (lassoCons 0) := by
  intro terminates
  have cell := lasso_cell (show 0 < 200 by omega)
  refine ends_of_terminates (by decide) terminates (lassoCons 1) ?_ fun n => ?_
  · -- The list of the root is followed.
    rw [Heap.followedLists, show printHardCap - 0 = 63 + 1 from rfl,
      visit_entered (by rw [lasso_shared]; simp)]
    refine lists_foldl_subset (lists_subset lasso _ _ 63) _ _ _ (List.mem_append_left _ ?_)
    rw [followed, cell]
    simp [Settings.cuts]
  · obtain ⟨later, inside, same⟩ := lasso_cdrs n 1 (by omega)
    rw [same, lasso_shared]
    exact ⟨⟨_, _, lasso_cell inside⟩, List.not_mem_nil⟩

end ClAmiga.Circle
