import ClAmiga.Circle.Visits

/-!
# The printer follows the visits

The table tells the shared nodes and those that are printed already.  What is printed is
what is visited, and when printing an object comes to its end, every list followed on the way
ends.
-/

namespace ClAmiga.Circle

open ClAmiga.Graph (Found)

section Writing

variable (heap : Heap) (settings : Settings) (printer : Printer)

@[simp] theorem Printer.table_put (token : Token) :
    (printer.put heap token).table = printer.table :=
  rfl

@[simp] theorem Printer.table_separate :
    (printer.separate heap settings).table = printer.table := by
  rw [Printer.separate]
  split <;> rfl

@[simp] theorem Printer.table_pushIndent : (printer.pushIndent settings).table = printer.table := by
  rw [Printer.pushIndent]
  split <;> rfl

@[simp] theorem Printer.table_popIndent : (printer.popIndent settings).table = printer.table := by
  rw [Printer.popIndent]
  split <;> rfl

end Writing

/-- The graph's walk and the labels of its shared nodes. -/
structure Labelled (heap : Heap) (found : Found Obj) (label : Obj → Nat) : Prop where
  kept : ∀ obj ∈ found.shared, obj ∈ found.kept
  compound : ∀ obj ∈ found.kept, heap.circleCompoundP obj = true
  distinct : Labelling found label

section Checks

variable {heap : Heap} {found : Found Obj} {label : Obj → Nat} {seen : List Obj} {obj : Obj}
  {printer : Printer}

theorem Marked.circleVal_eq (marked : Marked found label seen printer.table) :
    circleVal printer.table obj =
      if obj ∈ found.kept then some (mark found label seen obj) else none := by
  split
  · next kept => exact (circleVal_eq_some_iff marked.sound).mpr ((marked.holds _ _).mpr ⟨kept, rfl⟩)
  · next absent =>
      exact (circleVal_eq_none_iff marked.sound).mpr fun _ has =>
        absent ((marked.holds _ _).mp has).1

theorem circleCheck_single (marked : Marked found label seen printer.table)
    (single : obj ∉ found.shared) : printer.circleCheck heap obj = (0, printer) := by
  rw [Printer.circleCheck, marked.circleVal_eq]
  by_cases kept : obj ∈ found.kept
  · simp [kept, mark, single]
  · simp [kept]

theorem circleCheck_seen (labelled : Labelled heap found label)
    (marked : Marked found label seen printer.table) (shared : obj ∈ found.shared)
    (old : obj ∈ seen) :
    printer.circleCheck heap obj = (-1, printer.put heap (.refer (label obj))) := by
  have kept := labelled.kept obj shared
  have value : mark found label seen obj = -((label obj : Int) + 2) := by
    rw [mark, if_pos shared, if_pos old]
  rw [Printer.circleCheck, marked.circleVal_eq, if_pos kept, value,
    if_neg (by simp [labelled.compound obj kept])]
  simp only [if_neg (show ¬ -((label obj : Int) + 2) = 0 by omega),
    if_pos (show -((label obj : Int) + 2) < 0 by omega)]
  rw [show - -((label obj : Int) + 2) - 2 = label obj by omega]

theorem circleCheck_new (labelled : Labelled heap found label)
    (marked : Marked found label seen printer.table) (shared : obj ∈ found.shared)
    (new : obj ∉ seen) :
    ∃ table, Marked found label (obj :: seen) table ∧ printer.circleCheck heap obj =
        (1, { printer.put heap (.define (label obj)) with table := table }) := by
  have kept := labelled.kept obj shared
  have value : mark found label seen obj = (label obj : Int) + 2 := by
    rw [mark, if_pos shared, if_neg new]
  have room : (∃ val, Has printer.table obj val) ∨
      ∃ a < circleHtSize, (printer.table a).isEntry = false :=
    .inl ⟨_, (marked.holds _ _).mpr ⟨kept, rfl⟩⟩
  refine ⟨setCircleVal printer.table obj (-((label obj : Int) + 2)),
    ⟨sound_setCircleVal marked.sound room _, fun other val => ?_⟩, ?_⟩
  · rw [has_setCircleVal marked.sound room, marked.holds]
    by_cases same : other = obj
    · subst same
      simp [kept, mark, shared]
    · simp [same, mark]
  · rw [Printer.circleCheck, marked.circleVal_eq, if_pos kept, value,
      if_neg (by simp [labelled.compound obj kept])]
    simp only [if_neg (show ¬ (label obj : Int) + 2 = 0 by omega),
      if_neg (show ¬ (label obj : Int) + 2 < 0 by omega),
      if_pos (show (2 : Int) ≤ (label obj : Int) + 2 by omega), Printer.table_put]
    rw [show (label obj : Int) + 2 - 2 = label obj by omega]

theorem circleCdr_iff (labelled : Labelled heap found label)
    (marked : Marked found label seen printer.table) :
    printer.circleCdr obj = true ↔ obj ∈ found.shared := by
  rw [Printer.circleCdr, marked.circleVal_eq]
  by_cases kept : obj ∈ found.kept
  · simp only [if_pos kept, bne_iff_ne, mark]
    by_cases shared : obj ∈ found.shared
    · simp only [if_true, shared, iff_true]
      split <;> omega
    · simp [shared]
  · have single : obj ∉ found.shared := fun shared => kept (labelled.kept obj shared)
    simp [kept, single]

end Checks

def Ending (heap : Heap) (found : Found Obj) (before after : Visits) : Prop :=
  ∀ list ∈ after.lists, list ∈ before.lists ∨ ¬ heap.Endless found.shared list

theorem Ending.refl (heap : Heap) (found : Found Obj) (visits : Visits) :
    Ending heap found visits visits :=
  fun _ member => .inl member

theorem Ending.trans {heap : Heap} {found : Found Obj} {first second third : Visits}
    (early : Ending heap found first second) (late : Ending heap found second third) :
    Ending heap found first third := by
  intro list member
  rcases late list member with earlier | ends
  · exact early list earlier
  · exact .inr ends

/-- What printing an object does is its visit. -/
def Follows (heap : Heap) (found : Found Obj) (label : Obj → Nat)
    (print : Obj → Printer → Option Printer) (visit : Visits → Obj → Visits) : Prop :=
  ∀ obj visits printer after, Marked found label visits.seen printer.table →
    print obj printer = some after →
    Marked found label (visit visits obj).seen after.table ∧
      Ending heap found visits (visit visits obj)

section Following

variable {heap : Heap} {settings : Settings} {found : Found Obj} {label : Obj → Nat}
  {print : Obj → Printer → Option Printer} {visit : Visits → Obj → Visits}

theorem no_limit (unlimited : settings.length < 0) (count : Int) :
    ¬ (0 ≤ settings.length ∧ settings.length ≤ count) :=
  fun reached => absurd reached.1 (by omega)

theorem printRest_nil (fuel : Nat) (count : Int) (printer : Printer) :
    printRest heap settings print fuel count 0 printer = some printer := by
  rw [printRest.eq_def, heap.cell_nil]
  rfl

theorem printRest_stops (labelled : Labelled heap found label) (unlimited : settings.length < 0)
    {seen : List Obj} {obj : Obj} {printer : Printer}
    (marked : Marked found label seen printer.table) (stops : ¬ heap.GoesOn found.shared obj)
    (present : obj ≠ 0) (fuel : Nat) (count : Int) :
    printRest heap settings print fuel count obj printer = print obj (printer.put heap .dot) := by
  rw [printRest.eq_def]
  split
  · next car cdr cell =>
      have shared : obj ∈ found.shared := by
        by_contra single
        exact stops ⟨⟨car, cdr, cell⟩, single⟩
      rw [if_neg (no_limit unlimited count), if_pos ((circleCdr_iff labelled marked).mpr shared)]
  · rw [if_neg present]

theorem printRest_goesOn (labelled : Labelled heap found label) (unlimited : settings.length < 0)
    {seen : List Obj} {obj car cdr : Obj} {printer : Printer}
    (marked : Marked found label seen printer.table)
    (cell : heap.cell obj = some (.cons car cdr)) (single : obj ∉ found.shared) (fuel : Nat)
    (count : Int) :
    printRest heap settings print 0 count obj printer = none ∧
      printRest heap settings print (fuel + 1) count obj printer =
        (print car (printer.separate heap settings)).bind
          (printRest heap settings print fuel (count + 1) cdr) := by
  have unmarked : ¬ printer.circleCdr obj = true :=
    fun shared => single ((circleCdr_iff labelled marked).mp shared)
  constructor
  · rw [printRest.eq_def]
    simp only [cell, if_neg (no_limit unlimited count), if_neg unmarked]
  · rw [printRest.eq_def]
    simp only [cell, if_neg (no_limit unlimited count), if_neg unmarked]

theorem printRest_follows (labelled : Labelled heap found label) (unlimited : settings.length < 0)
    (follows : Follows heap found label print visit) (fuel : Nat) :
    ∀ (count : Int) (obj : Obj) (visits : Visits) (printer after : Printer),
      Marked found label visits.seen printer.table →
      printRest heap settings print fuel count obj printer = some after →
      ∃ objs, Chain heap found.shared obj objs ∧
        Marked found label (objs.foldl visit visits).seen after.table ∧
        Ending heap found visits (objs.foldl visit visits) := by
  induction fuel with
  | zero =>
      intro count obj visits printer after marked printed
      by_cases goesOn : heap.GoesOn found.shared obj
      · obtain ⟨⟨car, cdr, cell⟩, single⟩ := goesOn
        rw [(printRest_goesOn labelled unlimited marked cell single 0 count).1] at printed
        cases printed
      · by_cases nil : obj = 0
        · subst nil
          rw [printRest_nil] at printed
          cases printed
          exact ⟨[], .close, marked, .refl _ _ _⟩
        · rw [printRest_stops labelled unlimited marked goesOn nil] at printed
          exact ⟨[obj], .dot goesOn nil,
            follows obj visits (printer.put heap .dot) after marked printed⟩
  | succ fuel induction =>
      intro count obj visits printer after marked printed
      by_cases goesOn : heap.GoesOn found.shared obj
      · obtain ⟨⟨car, cdr, cell⟩, single⟩ := goesOn
        rw [(printRest_goesOn labelled unlimited marked cell single fuel count).2] at printed
        obtain ⟨middle, first, rest⟩ := Option.bind_eq_some_iff.mp printed
        have visited := follows car visits (printer.separate heap settings) middle
          (by simpa using marked) first
        obtain ⟨objs, chain, marks, ending⟩ :=
          induction (count + 1) cdr (visit visits car) middle after visited.1 rest
        exact ⟨car :: objs, .more cell single chain, marks, visited.2.trans ending⟩
      · by_cases nil : obj = 0
        · subst nil
          rw [printRest_nil] at printed
          cases printed
          exact ⟨[], .close, marked, .refl _ _ _⟩
        · rw [printRest_stops labelled unlimited marked goesOn nil] at printed
          exact ⟨[obj], .dot goesOn nil,
            follows obj visits (printer.put heap .dot) after marked printed⟩

theorem printElements_follows (unlimited : settings.length < 0)
    (follows : Follows heap found label print visit) (elts : List Obj) :
    ∀ i visits printer after, Marked found label visits.seen printer.table →
      printElements heap settings print i elts printer = some after →
      Marked found label (elts.foldl visit visits).seen after.table ∧
        Ending heap found visits (elts.foldl visit visits) := by
  induction elts with
  | nil =>
      intro i visits printer after marked printed
      rw [printElements] at printed
      cases printed
      exact ⟨marked, .refl _ _ _⟩
  | cons elt elts induction =>
      intro i visits printer after marked printed
      rw [printElements, if_neg (by omega)] at printed
      obtain ⟨middle, first, rest⟩ := Option.bind_eq_some_iff.mp printed
      have visited := follows elt visits _ middle (by split <;> simpa using marked) first
      have others := induction (i + 1) (visit visits elt) middle after visited.1 rest
      exact ⟨others.1, visited.2.trans others.2⟩

end Following

theorem visit_entered {heap : Heap} {settings : Settings} {shared : List Obj} {room : Nat}
    {visits : Visits} {obj : Obj} (enters : ¬ (obj ∈ shared ∧ obj ∈ visits.seen)) :
    visit heap settings shared (room + 1) visits obj =
      (contents heap settings shared (printHardCap - (room + 1)) obj).foldl
        (visit heap settings shared room)
        ⟨if obj ∈ shared then obj :: visits.seen else visits.seen,
          followed heap settings (printHardCap - (room + 1)) obj ++ visits.lists⟩ := by
  rw [visit, if_neg enters]

def printCell (heap : Heap) (settings : Settings) (fuel room : Nat) (obj : Obj)
    (printer : Printer) : Option Printer :=
  match heap.cell obj with
  | none => some (printer.put heap (.atom obj))
  | some (.cons car cdr) =>
      printList heap settings (printObj heap settings fuel room) fuel
        (printHardCap - (room + 1)) car cdr printer
  | some (.vector elts) =>
      printVector heap settings (printObj heap settings fuel room)
        (printHardCap - (room + 1)) elts printer

/-- An object that is printed already is referred to; otherwise its contents are printed. -/
theorem printObj_cases {heap : Heap} {settings : Settings} {found : Found Obj}
    {label : Obj → Nat} {seen : List Obj} (labelled : Labelled heap found label) (fuel room : Nat)
    (obj : Obj) (printer : Printer) (marked : Marked found label seen printer.table) :
    (obj ∈ found.shared ∧ obj ∈ seen ∧ printObj heap settings fuel (room + 1) obj printer =
        some (printer.put heap (.refer (label obj)))) ∨
    (¬ (obj ∈ found.shared ∧ obj ∈ seen) ∧ ∃ start,
      Marked found label (if obj ∈ found.shared then obj :: seen else seen) start.table ∧
      start.text = (if obj ∈ found.shared then [.define (label obj)] else []) ++ printer.text ∧
      printObj heap settings fuel (room + 1) obj printer =
        printCell heap settings fuel room obj start) := by
  by_cases shared : obj ∈ found.shared
  · by_cases old : obj ∈ seen
    · refine .inl ⟨shared, old, ?_⟩
      rw [printObj, circleCheck_seen labelled marked shared old]
      simp
    · obtain ⟨table, marks, check⟩ := circleCheck_new labelled marked shared old
      refine .inr ⟨fun both => old both.2,
        { printer.put heap (.define (label obj)) with table := table },
        by simpa [shared] using marks, ?_, ?_⟩
      · rw [if_pos shared]
        rfl
      · rw [printObj, check]
        rfl
  · refine .inr ⟨fun both => shared both.1, printer, by simpa [shared] using marked, ?_, ?_⟩
    · simp [shared]
    · rw [printObj, circleCheck_single marked shared]
      rfl

section Following

variable {heap : Heap} {settings : Settings} {found : Found Obj} {label : Obj → Nat}
  {fuel room : Nat} {obj : Obj} {start after : Printer}

theorem printCell_follows (labelled : Labelled heap found label) (unlimited : settings.length < 0)
    (follows : Follows heap found label (printObj heap settings fuel room)
      (visit heap settings found.shared room))
    {seen lists : List Obj} (marked : Marked found label seen start.table)
    (printed : printCell heap settings fuel room obj start = some after) :
    let visits := (contents heap settings found.shared (printHardCap - (room + 1)) obj).foldl
      (visit heap settings found.shared room)
      ⟨seen, followed heap settings (printHardCap - (room + 1)) obj ++ lists⟩
    Marked found label visits.seen after.table ∧ Ending heap found ⟨seen, lists⟩ visits := by
  rw [printCell] at printed
  rw [contents, followed]
  cases cell : heap.cell obj with
  | none =>
      simp only [cell, Option.some.injEq] at printed
      subst printed
      exact ⟨marked, .refl _ _ _⟩
  | some contents =>
      cases contents with
      | cons car cdr =>
          simp only [cell, printList] at printed
          by_cases cut : settings.cuts (printHardCap - (room + 1))
          · rw [if_pos cut] at printed
            cases printed
            simp only [if_pos cut]
            exact ⟨marked, .refl _ _ _⟩
          · rw [if_neg cut, if_neg (by omega)] at printed
            simp only [if_neg cut]
            obtain ⟨last, inner, rfl⟩ := Option.map_eq_some_iff.mp printed
            obtain ⟨middle, first, rest⟩ := Option.bind_eq_some_iff.mp inner
            have visited := follows car ⟨seen, [cdr] ++ lists⟩ _ middle
              (by simpa using marked) first
            obtain ⟨objs, chain, marks, ending⟩ :=
              printRest_follows labelled unlimited follows fuel 1 cdr _ middle last visited.1 rest
            rw [chain.tail_eq, List.foldl_cons]
            refine ⟨by simpa using marks, fun list member => ?_⟩
            rcases visited.2.trans ending list member with known | ends
            · rcases List.mem_cons.mp known with rfl | before
              · exact .inr chain.not_endless
              · exact .inl before
            · exact .inr ends
      | vector elts =>
          simp only [cell, printVector] at printed
          by_cases hidden : settings.array = false
          · rw [if_pos hidden] at printed
            cases printed
            simp only [hidden, true_or, if_true]
            exact ⟨marked, .refl _ _ _⟩
          · by_cases cut : settings.cuts (printHardCap - (room + 1))
            · rw [if_neg hidden, if_pos cut] at printed
              cases printed
              simp only [cut, or_true, if_true]
              exact ⟨marked, .refl _ _ _⟩
            · rw [if_neg hidden, if_neg cut] at printed
              simp only [if_neg (not_or.mpr ⟨hidden, cut⟩)]
              obtain ⟨last, inner, rfl⟩ := Option.map_eq_some_iff.mp printed
              have visited := printElements_follows unlimited follows elts 0 ⟨seen, lists⟩ _ last
                (by simpa using marked) inner
              exact ⟨by simpa using visited.1, visited.2⟩

theorem printObj_follows (labelled : Labelled heap found label) (unlimited : settings.length < 0)
    (fuel room : Nat) :
    Follows heap found label (printObj heap settings fuel room)
      (visit heap settings found.shared room) := by
  induction room with
  | zero =>
      intro obj visits printer after marked printed
      cases printed
      exact ⟨marked, .refl _ _ _⟩
  | succ room induction =>
      intro obj visits printer after marked printed
      rcases printObj_cases labelled fuel room obj printer marked with
        ⟨shared, old, refers⟩ | ⟨enters, start, marks, _, same⟩
      · rw [refers] at printed
        cases printed
        rw [visit, if_pos ⟨shared, old⟩]
        exact ⟨marked, .refl _ _ _⟩
      · rw [same] at printed
        rw [visit_entered enters]
        exact printCell_follows labelled unlimited induction marks printed

end Following

end ClAmiga.Circle
