import ClAmiga.Circle.Written

/-!
# Printing writes a text for the graph

As long as no object is printed at the level of the cap, the printer's text is that of a
datum, which describes the graph below the object printed.
-/

namespace ClAmiga.Circle

open Labels (Datum Rest Items)
open ClAmiga.Graph (Found OnPath Multiple)

variable {heap : Heap} {settings : Settings} {found : Found Obj} {label : Obj → Nat}

def named (found : Found Obj) (label : Obj → Nat) (n : Nat) : Option Obj :=
  found.shared.find? fun obj => label obj = n

theorem named_label (distinct : Labelling found label) {obj : Obj} (shared : obj ∈ found.shared) :
    named found label (label obj) = some obj := by
  rw [named]
  cases search : found.shared.find? fun other => label other = label obj with
  | none =>
      have := List.find?_eq_none.mp search obj shared
      simp at this
  | some other =>
      have same : label other = label obj := by simpa using List.find?_some search
      rw [distinct other (List.mem_of_find?_eq_some search) obj shared same]

/-- The text between two states of the printer. -/
def Shows (before after : Printer) (tokens : List Token) : Prop :=
  shown after.text = shown before.text ++ tokens

theorem Shows.trans {first second third : Printer} {left right : List Token}
    (early : Shows first second left) (late : Shows second third right) :
    Shows first third (left ++ right) := by
  rw [Shows] at early late ⊢
  rw [late, early, List.append_assoc]

theorem shows_put (printer : Printer) {token : Token} (visible : token.visible = true) :
    Shows printer (printer.put heap token) [token] := by
  rw [Shows, text_put, shown_cons, if_pos visible]

theorem shows_separate (printer : Printer) : Shows printer (printer.separate heap settings) [] := by
  obtain ⟨token, invisible, same⟩ := @text_separate heap settings printer
  rw [Shows, same, shown_cons, invisible]
  rfl

theorem shows_open (printer : Printer) {token : Token} (visible : token.visible = true) :
    Shows printer ((printer.put heap token).pushIndent settings) [token] := by
  rw [Shows, text_pushIndent, text_put, shown_cons, if_pos visible]

theorem shows_close (printer : Printer) :
    Shows printer ((printer.popIndent settings).put heap .close) [.close] := by
  rw [Shows, text_put, shown_cons, text_popIndent]
  rfl

structure Seen (found : Found Obj) (label : Obj → Nat) (seen : List Obj) (printer : Printer) : Prop
    where
  marked : Marked found label seen printer.table
  distinct : seen.Nodup
  shared : ∀ obj ∈ seen, obj ∈ found.shared

/-- Printing writes a datum for its object. -/
def PrintsDatum (heap : Heap) (found : Found Obj) (label : Obj → Nat)
    (print : Obj → Printer → Option Printer) : Prop :=
  ∀ obj seen printer after, Seen found label seen printer → print obj printer = some after →
    .ellipsis ∉ after.text →
    ∃ datum nodes, Describes heap (named found label) datum obj nodes ∧
      Shows printer after (datumTokens datum) ∧
      Written heap found label seen [obj] nodes datum.scoped after.table

theorem Written.seen {seen objs nodes : List Obj} {scope : List Nat → Option (List Nat)}
    {before after : Printer} (written : Written heap found label seen objs nodes scope after.table)
    (start : Seen found label seen before) : Seen found label (entered found nodes seen) after where
  marked := written.marked
  distinct := written.distinct
  shared obj member := by
    rcases mem_entered.mp member with ⟨_, shared⟩ | old
    · exact shared
    · exact start.shared obj old

theorem plain_of_cell {obj : Obj} (cell : heap.cell obj = none) :
    heap.circleCompoundP obj = false := by
  rw [Heap.circleCompoundP, cell]
  rfl

theorem compound_of_cell {obj : Obj} {contents : Cell} (cell : heap.cell obj = some contents) :
    heap.circleCompoundP obj = true := by
  rw [Heap.circleCompoundP, cell]
  rfl

theorem next_of_cons {obj car cdr : Obj} (cell : heap.cell obj = some (.cons car cdr)) :
    (heap.next obj).Perm (([car] ++ [cdr]).filter heap.circleCompoundP) := by
  rw [Heap.next, Heap.parts, cell]
  exact (List.Perm.swap car cdr []).filter _

theorem next_of_vector {obj : Obj} {elts : List Obj} (cell : heap.cell obj = some (.vector elts)) :
    (heap.next obj).Perm (elts.filter heap.circleCompoundP) := by
  rw [Heap.next, Heap.parts, cell]

section Loops

variable {print : Obj → Printer → Option Printer}

theorem printRest_describes (labelled : Labelled heap found label)
    (unlimited : settings.length < 0) (prints : PrintsDatum heap found label print)
    (appends : Appends print) (fuel : Nat) :
    ∀ (count : Int) (obj : Obj) (seen : List Obj) (printer after : Printer),
      Seen found label seen printer →
      printRest heap settings print fuel count obj printer = some after →
      .ellipsis ∉ after.text →
      ∃ rest nodes, DescribesRest heap (named found label) rest obj nodes ∧
        Shows printer after (restTokens rest) ∧
        Written heap found label seen [obj] nodes rest.scoped after.table := by
  have stopped : ∀ (fuel : Nat) (count : Int) (obj : Obj) (seen : List Obj)
      (printer after : Printer), Seen found label seen printer →
      ¬ heap.GoesOn found.shared obj →
      printRest heap settings print fuel count obj printer = some after →
      .ellipsis ∉ after.text →
      ∃ rest nodes, DescribesRest heap (named found label) rest obj nodes ∧
        Shows printer after (restTokens rest) ∧
        Written heap found label seen [obj] nodes rest.scoped after.table := by
    intro fuel count obj seen printer after start stops printed uncut
    by_cases nil : obj = 0
    · subst nil
      rw [printRest_nil] at printed
      cases printed
      exact ⟨.close, [], ⟨rfl, rfl⟩, by simp [Shows, restTokens],
        .leaf start.marked start.distinct (plain_of_cell heap.cell_nil)⟩
    · rw [printRest_stops labelled unlimited start.marked stops nil] at printed
      obtain ⟨datum, nodes, describes, shows, written⟩ :=
        prints obj seen (printer.put heap .dot) after ⟨start.marked, start.distinct, start.shared⟩
          printed uncut
      exact ⟨.dot datum, nodes, ⟨nil, describes⟩, (shows_put printer rfl).trans shows, written⟩
  induction fuel with
  | zero =>
      intro count obj seen printer after start printed uncut
      by_cases goesOn : heap.GoesOn found.shared obj
      · obtain ⟨⟨car, cdr, cell⟩, single⟩ := goesOn
        rw [(printRest_goesOn labelled unlimited start.marked cell single 0 count).1] at printed
        cases printed
      · exact stopped 0 count obj seen printer after start goesOn printed uncut
  | succ fuel induction =>
      intro count obj seen printer after start printed uncut
      by_cases goesOn : heap.GoesOn found.shared obj
      · obtain ⟨⟨car, cdr, cell⟩, single⟩ := goesOn
        rw [(printRest_goesOn labelled unlimited start.marked cell single fuel count).2] at printed
        obtain ⟨middle, first, rest⟩ := Option.bind_eq_some_iff.mp printed
        have grown := printRest_appends appends fuel _ _ _ _ rest
        obtain ⟨datum, firsts, describes, shows, written⟩ :=
          prints car seen (printer.separate heap settings) middle
            ⟨by simpa using start.marked, start.distinct, start.shared⟩ first
            (fun member => uncut (grown.subset member))
        obtain ⟨more, others, describesMore, showsMore, writtenMore⟩ :=
          induction (count + 1) cdr _ middle after (written.seen start) rest uncut
        refine ⟨.more datum more, obj :: (firsts ++ others),
          ⟨car, cdr, firsts, others, cell, describes, describesMore, rfl⟩, ?_, ?_⟩
        · exact (shows_separate printer).trans (shows.trans showsMore)
        · exact (written.append writtenMore).single (compound_of_cell cell) single
            (next_of_cons cell)
      · exact stopped (fuel + 1) count obj seen printer after start goesOn printed uncut

theorem printElements_describes (unlimited : settings.length < 0)
    (prints : PrintsDatum heap found label print) (appends : Appends print) (elts : List Obj) :
    ∀ (i : Nat) (seen : List Obj) (printer after : Printer), Seen found label seen printer →
      printElements heap settings print i elts printer = some after → .ellipsis ∉ after.text →
      ∃ items nodes, DescribesItems heap (named found label) items elts nodes ∧
        Shows printer after (itemsTokens items) ∧
        Written heap found label seen elts nodes items.scoped after.table := by
  induction elts with
  | nil =>
      intro i seen printer after start printed uncut
      rw [printElements] at printed
      cases printed
      exact ⟨.none, [], ⟨rfl, rfl⟩, by simp [Shows, itemsTokens], .none start.marked start.distinct⟩
  | cons elt elts induction =>
      intro i seen printer after start printed uncut
      rw [printElements, if_neg (no_limit unlimited i)] at printed
      obtain ⟨middle, first, rest⟩ := Option.bind_eq_some_iff.mp printed
      have grown := printElements_appends appends elts _ _ _ rest
      have moved : Shows printer
          (if 0 < i then printer.separate heap settings else printer) [] := by
        split
        · exact shows_separate printer
        · simp [Shows]
      obtain ⟨datum, firsts, describes, shows, written⟩ :=
        prints elt seen _ middle
          ⟨by split <;> simpa using start.marked, start.distinct, start.shared⟩ first
          (fun member => uncut (grown.subset member))
      obtain ⟨items, others, describesMore, showsMore, writtenMore⟩ :=
        induction (i + 1) _ middle after (written.seen start) rest uncut
      exact ⟨.more datum items, firsts ++ others,
        ⟨elt, elts, firsts, others, rfl, describes, describesMore, rfl⟩,
        moved.trans (shows.trans showsMore), written.append writtenMore⟩

end Loops

theorem datumTokens_atom (obj : Obj) : datumTokens (.atom obj.toNat) = [.atom obj] := by
  rw [datumTokens, UInt32.ofNat_toNat]

theorem scoped_list (first : Datum) (rest : Rest) :
    (Datum.list first rest).scoped = fun defined => (first.scoped defined).bind rest.scoped := by
  funext defined
  rw [Datum.scoped]

theorem scoped_vector (elements : Items) : (Datum.vector elements).scoped = elements.scoped := by
  funext defined
  rw [Datum.scoped]

theorem printCell_describes (labelled : Labelled heap found label)
    (unlimited : settings.length < 0) (deep : settings.level < 0) (array : settings.array = true)
    {fuel room : Nat}
    (prints : PrintsDatum heap found label (printObj heap settings fuel room))
    {obj : Obj} {seen : List Obj} {start after : Printer} (entry : Seen found label seen start)
    (compound : heap.circleCompoundP obj = true)
    (printed : printCell heap settings fuel room obj start = some after)
    (uncut : .ellipsis ∉ after.text) :
    ∃ datum parts nodes, Describes heap (named found label) datum obj (obj :: nodes) ∧
      Shows start after (datumTokens datum) ∧
      (heap.next obj).Perm (parts.filter heap.circleCompoundP) ∧
      Written heap found label seen parts nodes datum.scoped after.table := by
  have appends := @printObj_appends heap settings fuel room
  have noCut : ¬ settings.cuts (printHardCap - (room + 1)) := by
    rw [Settings.cuts]
    omega
  rw [printCell] at printed
  cases cell : heap.cell obj with
  | none => simp [plain_of_cell cell] at compound
  | some contents =>
      cases contents with
      | cons car cdr =>
          simp only [cell, printList] at printed
          rw [if_neg noCut, if_neg (by omega)] at printed
          obtain ⟨last, inner, rfl⟩ := Option.map_eq_some_iff.mp printed
          obtain ⟨middle, first, rest⟩ := Option.bind_eq_some_iff.mp inner
          have uncutLast : .ellipsis ∉ last.text := by
            simpa [text_put] using uncut
          have grown := printRest_appends appends fuel _ _ _ _ rest
          obtain ⟨datum, firsts, describes, shows, written⟩ := prints car seen _ middle
            ⟨by simpa using entry.marked, entry.distinct, entry.shared⟩ first
            (fun member => uncutLast (grown.subset member))
          obtain ⟨more, others, describesMore, showsMore, writtenMore⟩ :=
            printRest_describes labelled unlimited prints appends fuel 1 cdr _ middle last
              (written.seen entry) rest uncutLast
          refine ⟨.list datum more, [car] ++ [cdr], firsts ++ others,
            ⟨car, cdr, firsts, others, cell, describes, describesMore, rfl⟩, ?_,
            next_of_cons cell, ?_⟩
          · exact ((shows_open start rfl).trans (shows.trans showsMore)).trans (shows_close last)
          · rw [scoped_list, Printer.table_put, Printer.table_popIndent]
            exact written.append writtenMore
      | vector elts =>
          simp only [cell, printVector] at printed
          rw [if_neg (by simp [array]), if_neg noCut] at printed
          obtain ⟨last, inner, rfl⟩ := Option.map_eq_some_iff.mp printed
          have uncutLast : .ellipsis ∉ last.text := by
            simpa [text_put] using uncut
          obtain ⟨items, nodes, describes, shows, written⟩ :=
            printElements_describes unlimited prints appends elts 0 seen _ last
              ⟨by simpa using entry.marked, entry.distinct, entry.shared⟩ inner uncutLast
          refine ⟨.vector items, elts, nodes, ⟨elts, nodes, cell, describes, rfl⟩, ?_,
            next_of_vector cell, ?_⟩
          · exact ((shows_open start rfl).trans shows).trans (shows_close last)
          · rw [scoped_vector, Printer.table_put, Printer.table_popIndent]
            exact written

theorem printObj_describes (labelled : Labelled heap found label)
    (unlimited : settings.length < 0) (deep : settings.level < 0) (array : settings.array = true)
    (fuel room : Nat) : PrintsDatum heap found label (printObj heap settings fuel room) := by
  induction room with
  | zero =>
      intro obj seen printer after _ printed uncut
      cases printed
      exact absurd List.mem_cons_self uncut
  | succ room induction =>
      intro obj seen printer after entry printed uncut
      rcases printObj_cases labelled fuel room obj printer entry.marked with
        ⟨shared, old, refers⟩ | ⟨enters, start, marks, text, same⟩
      · rw [refers] at printed
        cases printed
        exact ⟨.reference (label obj), [], ⟨named_label labelled.distinct shared, rfl⟩,
          shows_put printer rfl, .refer entry.marked entry.distinct shared old⟩
      · rw [same] at printed
        by_cases shared : obj ∈ found.shared
        · -- The label is defined and the node written out behind it.
          have new : obj ∉ seen := fun old => enters ⟨shared, old⟩
          have compound := labelled.compound obj (labelled.kept obj shared)
          rw [if_pos shared] at marks text
          have inner : Seen found label (obj :: seen) start := by
            refine ⟨marks, List.nodup_cons.mpr ⟨new, entry.distinct⟩, fun other member => ?_⟩
            rcases List.mem_cons.mp member with rfl | old
            · exact shared
            · exact entry.shared other old
          obtain ⟨datum, parts, nodes, describes, shows, next, written⟩ :=
            printCell_describes labelled unlimited deep array induction inner compound printed uncut
          have opened : Shows printer start [.define (label obj)] := by
            rw [Shows, text]
            simp [Token.visible]
          exact ⟨.label (label obj) datum, obj :: nodes,
            ⟨named_label labelled.distinct shared, rfl, describes⟩, opened.trans shows,
            .shared labelled.distinct entry.shared written compound shared new next⟩
        · rw [if_neg shared] at marks text
          have opened : Shows printer start [] := by
            rw [Shows, text]
            simp
          by_cases compound : heap.circleCompoundP obj = true
          · obtain ⟨datum, parts, nodes, describes, shows, next, written⟩ :=
              printCell_describes labelled unlimited deep array induction
                ⟨marks, entry.distinct, entry.shared⟩ compound printed uncut
            exact ⟨datum, obj :: nodes, describes, opened.trans shows,
              written.single compound shared next⟩
          · have plain : heap.circleCompoundP obj = false := by simpa using compound
            have cell : heap.cell obj = none := by
              rw [Heap.circleCompoundP, Option.isSome_eq_false_iff, Option.isNone_iff_eq_none]
                at plain
              exact plain
            simp only [printCell, cell, Option.some.injEq] at printed
            subst printed
            have shows := opened.trans (@shows_put heap start (.atom obj) rfl)
            by_cases nil : obj = 0
            · subst nil
              exact ⟨.nil, [], ⟨rfl, rfl⟩, shows, .leaf marks entry.distinct plain⟩
            · exact ⟨.atom obj.toNat, [], ⟨nil, cell, rfl, rfl⟩, datumTokens_atom obj ▸ shows,
                .leaf marks entry.distinct plain⟩

end ClAmiga.Circle
