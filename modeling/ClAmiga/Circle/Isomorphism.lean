import ClAmiga.Circle.Termination
import ClAmiga.Circle.PrintDescribes
import Mathlib.Data.Set.Card

/-!
# Printed graphs

Within the limits of the walk every node with more than one reference is shared.  Then no
list runs on forever, and the text describes the whole graph: a node with one reference is
written where that reference is, and the others at their first reference.
-/

namespace ClAmiga.Circle

open Labels (Datum Rest Items)
open ClAmiga.Graph (Found OnPath Multiple Reference Refers Steps)

/-- The graph has fewer nodes than the table takes, and the walk never has more references
pending than there is room for. -/
structure WithinLimits (heap : Heap) (root : Obj) : Prop where
  few : {obj | OnPath heap.next root obj}.ncard < circleLimit
  fits : ∀ state, Relation.ReflTransGen (Steps heap.next) ([], [root]) state →
    state.2.length ≤ stackRoom

variable {heap : Heap} {root : Obj}

theorem WithinLimits.shared_iff (within : WithinLimits heap root)
    (compound : heap.circleCompoundP root = true) (obj : Obj) :
    obj ∈ (heap.found root).shared ↔ Multiple heap.next root obj := by
  have few : ∀ nodes : List Obj, nodes.Nodup → (∀ node ∈ nodes, OnPath heap.next root node) →
      nodes.length ≤ circleLimit := by
    intro nodes distinct reached
    have counted : nodes.length = (nodes.toFinset : Set Obj).ncard := by
      rw [Set.ncard_coe_finset, List.toFinset_card_of_nodup distinct]
    rw [counted]
    refine (Set.ncard_le_ncard ?_ (Set.toFinite _)).trans within.few.le
    intro obj member
    exact reached obj (by simpa using member)
  rw [Heap.found, if_pos compound]
  exact (Graph.boundedWalk_root few within.fits).2 obj

/-- A graph is within the limits when its nodes are few and have few references altogether. -/
theorem WithinLimits.of_finset {nodes : Finset Obj} (start : root ∈ nodes)
    (closed : ∀ obj ∈ nodes, ∀ other ∈ heap.next obj, other ∈ nodes)
    (few : nodes.card < circleLimit)
    (small : (nodes.sum fun obj => (heap.next obj).length) < stackRoom) :
    WithinLimits heap root where
  few := by
    have inside : {obj | OnPath heap.next root obj} ⊆ (nodes : Set Obj) := by
      intro obj path
      induction path with
      | refl => exact start
      | tail _ next member => exact closed _ member _ next
    exact (Set.ncard_le_ncard inside (Set.toFinite _)).trans_lt (by rwa [Set.ncard_coe_finset])
  fits := by
    intro state steps
    -- Each node spends its references once, when it is kept.
    have spent : (∀ obj ∈ state.2, obj ∈ nodes) ∧
        state.2.length + ((nodes \ state.1.toFinset).sum fun obj => (heap.next obj).length) ≤
          1 + nodes.sum fun obj => (heap.next obj).length := by
      induction steps with
      | refl => simp [start]
      | tail _ step induction =>
          obtain ⟨members, bound⟩ := induction
          cases step with
          | again known =>
              refine ⟨fun obj member => members obj (List.mem_cons_of_mem _ member), ?_⟩
              dsimp only [List.length_cons] at bound ⊢
              omega
          | @new kept pending node new =>
              have member := members node List.mem_cons_self
              refine ⟨fun obj at_ => ?_, ?_⟩
              · rcases List.mem_append.mp at_ with next | waiting
                · exact closed node member obj (List.mem_reverse.mp next)
                · exact members obj (List.mem_cons_of_mem _ waiting)
              · have unspent : node ∈ nodes \ kept.toFinset := by simp [member, new]
                have split := Finset.add_sum_erase _ (fun obj => (heap.next obj).length) unspent
                dsimp only [List.length_cons] at bound ⊢
                rw [List.toFinset_cons, Finset.sdiff_insert, List.length_append,
                  List.length_reverse]
                omega
    omega

theorem mem_next_of_cons {obj car cdr : Obj} (cell : heap.cell obj = some (.cons car cdr))
    {part : Obj} :
    part ∈ heap.next obj ↔ (part = car ∨ part = cdr) ∧ heap.circleCompoundP part = true := by
  rw [(next_of_cons cell).mem_iff]
  simp

theorem same_source {obj first second : Obj} (single : ¬ Multiple heap.next root obj)
    (firstPath : OnPath heap.next root first) (firstNext : obj ∈ heap.next first)
    (secondPath : OnPath heap.next root second) (secondNext : obj ∈ heap.next second) :
    first = second := by
  by_contra different
  obtain ⟨one, oneInside, oneLeads⟩ := List.getElem_of_mem firstNext
  obtain ⟨two, twoInside, twoLeads⟩ := List.getElem_of_mem secondNext
  refine single ⟨some (first, one), some (second, two), ?_, ⟨?_, ?_⟩, ⟨?_, ?_⟩⟩
  · intro same
    exact different (Prod.mk.inj (Option.some.inj same)).1
  · exact List.getElem?_eq_some_iff.mpr ⟨oneInside, oneLeads⟩
  · rintro source place same
    obtain ⟨rfl, _⟩ := Prod.mk.inj (Option.some.inj same)
    exact firstPath
  · exact List.getElem?_eq_some_iff.mpr ⟨twoInside, twoLeads⟩
  · rintro source place same
    obtain ⟨rfl, _⟩ := Prod.mk.inj (Option.some.inj same)
    exact secondPath

theorem multiple_root {source : Obj} (path : OnPath heap.next root source)
    (next : root ∈ heap.next source) : Multiple heap.next root root := by
  obtain ⟨place, inside, leads⟩ := List.getElem_of_mem next
  refine ⟨none, some (source, place), by simp, ⟨rfl, fun _ _ same => by cases same⟩, ?_, ?_⟩
  · exact List.getElem?_eq_some_iff.mpr ⟨inside, leads⟩
  · rintro other _ same
    obtain ⟨rfl, _⟩ := Prod.mk.inj (Option.some.inj same)
    exact path

/-- A cycle of cdrs without a shared node would lead back to the root, which then has a
second reference. -/
theorem not_endless {shared : List Obj}
    (complete : ∀ obj, Multiple heap.next root obj → obj ∈ shared) {list : Obj}
    (path : heap.circleCompoundP list = true → OnPath heap.next root list) :
    ¬ heap.Endless shared list := by
  intro endless
  have step : ∀ n, heap.cdr^[n + 1] list ∈ heap.next (heap.cdr^[n] list) := by
    intro n
    obtain ⟨⟨car, cdr, cell⟩, _⟩ := endless n
    obtain ⟨⟨_, _, after⟩, _⟩ := endless (n + 1)
    rw [mem_next_of_cons cell]
    refine ⟨.inr ?_, compound_of_cell after⟩
    rw [Function.iterate_succ_apply', Heap.cdr_of_cell cell]
  have onPath : ∀ n, OnPath heap.next root (heap.cdr^[n] list) := by
    intro n
    induction n with
    | zero =>
        obtain ⟨⟨_, _, cell⟩, _⟩ := endless 0
        exact path (compound_of_cell cell)
    | succ n induction => exact induction.tail (step n)
  obtain ⟨i, j, less, same⟩ := exists_cdrs_eq heap list
  have source : ∀ n, i ≤ n → ∃ m, i ≤ m ∧ heap.cdr^[n] list ∈ heap.next (heap.cdr^[m] list) := by
    intro n later
    rcases Nat.eq_or_lt_of_le later with rfl | after
    · refine ⟨j - 1, by omega, ?_⟩
      have before := step (j - 1)
      rw [Nat.sub_add_cancel (by omega)] at before
      rwa [same]
    · refine ⟨n - 1, by omega, ?_⟩
      have before := step (n - 1)
      rwa [Nat.sub_add_cancel (by omega)] at before
  have single : ∀ n, ¬ Multiple heap.next root (heap.cdr^[n] list) :=
    fun n multiple => (endless n).2 (complete _ multiple)
  have back : ∀ obj, OnPath heap.next root obj → (∃ n, i ≤ n ∧ heap.cdr^[n] list = obj) →
      ∃ n, i ≤ n ∧ heap.cdr^[n] list = root := by
    intro obj reached
    induction reached with
    | refl => exact id
    | tail before next induction =>
        rintro ⟨n, later, rfl⟩
        obtain ⟨m, laterSource, fromSource⟩ := source n later
        exact induction ⟨m, laterSource, same_source (single n) (onPath m) fromSource before next⟩
  obtain ⟨n, later, atRoot⟩ := back _ (onPath i) ⟨i, le_refl i, rfl⟩
  obtain ⟨m, _, fromSource⟩ := source n later
  refine single n ?_
  rw [atRoot] at fromSource ⊢
  exact multiple_root (onPath m) fromSource

theorem Chain.onPath {shared : List Obj} {obj : Obj} {objs : List Obj}
    (chain : Chain heap shared obj objs)
    (path : heap.circleCompoundP obj = true → OnPath heap.next root obj) :
    ∀ part ∈ objs, heap.circleCompoundP part = true → OnPath heap.next root part := by
  induction chain with
  | close => exact fun part member => by cases member
  | dot _ _ =>
      intro part member
      rw [List.mem_singleton.mp member]
      exact path
  | more cell _ _ induction =>
      have reached := path (compound_of_cell cell)
      have parts : ∀ part, (part = _ ∨ part = _) → heap.circleCompoundP part = true →
          OnPath heap.next root part :=
        fun part either compound => reached.tail ((mem_next_of_cons cell).mpr ⟨either, compound⟩)
      intro part member
      rcases List.mem_cons.mp member with rfl | later
      · exact parts part (.inl rfl)
      · exact induction (parts _ (.inr rfl)) part later

theorem contents_onPath {settings : Settings} {shared : List Obj} {depth : Nat} {obj : Obj}
    (path : heap.circleCompoundP obj = true → OnPath heap.next root obj) :
    ∀ part ∈ contents heap settings shared depth obj ++ followed heap settings depth obj,
      heap.circleCompoundP part = true → OnPath heap.next root part := by
  rw [contents, followed]
  cases cell : heap.cell obj with
  | none => exact fun part member => by cases member
  | some contents =>
      have reached := path (compound_of_cell cell)
      cases contents with
      | cons car cdr =>
          by_cases cut : settings.cuts depth
          · simp [cut]
          · simp only [if_neg cut]
            have parts : ∀ part, part = car ∨ part = cdr → heap.circleCompoundP part = true →
                OnPath heap.next root part := fun part either compound =>
              reached.tail ((mem_next_of_cons cell).mpr ⟨either, compound⟩)
            intro part member
            rcases List.mem_append.mp member with inner | last
            · rcases List.mem_cons.mp inner with rfl | later
              · exact parts part (.inl rfl)
              · rw [tail] at later
                split at later
                · next ends =>
                    exact ends.choose_spec.onPath (parts cdr (.inr rfl)) part later
                · cases later
            · rw [List.mem_singleton.mp last]
              exact parts cdr (.inr rfl)
      | vector elts =>
          intro part member compound
          have listed : part ∈ elts := by
            simp only [List.append_nil] at member
            split at member
            · cases member
            · exact member
          exact reached.tail ((next_of_vector cell).mem_iff.mpr
            (List.mem_filter.mpr ⟨listed, compound⟩))

theorem lists_foldl_onPath {f : Visits → Obj → Visits} {P : Obj → Prop} {Q : Obj → Prop}
    (keeps : ∀ visits obj, Q obj → (∀ list ∈ visits.lists, P list) →
      ∀ list ∈ (f visits obj).lists, P list)
    (objs : List Obj) (each : ∀ obj ∈ objs, Q obj) :
    ∀ visits : Visits, (∀ list ∈ visits.lists, P list) →
      ∀ list ∈ (objs.foldl f visits).lists, P list := by
  induction objs with
  | nil => exact fun visits before => before
  | cons obj objs induction =>
      intro visits before
      exact induction (fun other member => each other (List.mem_cons_of_mem _ member)) _
        (keeps visits obj (each obj List.mem_cons_self) before)

theorem visit_onPath {settings : Settings} {shared : List Obj} (room : Nat) :
    ∀ visits obj, (heap.circleCompoundP obj = true → OnPath heap.next root obj) →
      (∀ list ∈ visits.lists, heap.circleCompoundP list = true → OnPath heap.next root list) →
      ∀ list ∈ (visit heap settings shared room visits obj).lists,
        heap.circleCompoundP list = true → OnPath heap.next root list := by
  induction room with
  | zero => exact fun visits obj _ before => before
  | succ room induction =>
      intro visits obj path before
      rw [visit]
      split
      · exact before
      · have parts := @contents_onPath heap root settings shared
          (printHardCap - (room + 1)) obj path
        refine lists_foldl_onPath induction _
          (fun part member => parts part (List.mem_append_left _ member)) _ ?_
        intro list member
        rcases List.mem_append.mp member with here | earlier
        · exact parts list (List.mem_append_right _ here)
        · exact before list earlier

theorem WithinLimits.terminates (within : WithinLimits heap root) (settings : Settings)
    (depth : Nat) : Terminates heap settings depth root := by
  by_cases limited : 0 ≤ settings.length
  · exact terminates_of_limit limited
  · refine terminates_of_ends (by omega) fun list member => ?_
    have path := visit_onPath (printHardCap - depth) ⟨[], []⟩ root (fun _ => .refl)
      (fun list member => by cases member) list member
    by_cases compound : heap.circleCompoundP root = true
    · exact not_endless (fun obj => (within.shared_iff compound obj).mpr) path
    · intro endless
      obtain ⟨⟨_, _, cell⟩, _⟩ := endless 0
      have reached := path (compound_of_cell cell)
      have alone : ∀ obj, OnPath heap.next root obj → obj = root := by
        intro obj reaches
        induction reaches with
        | refl => rfl
        | tail _ next same =>
            rw [same, Heap.next, Heap.parts] at next
            cases rootCell : heap.cell root with
            | none => simp [rootCell] at next
            | some contents => exact absurd (compound_of_cell rootCell) compound
      exact compound (alone list reached ▸ compound_of_cell cell)

/-- No object is printed at the level of the cap, where it would be an ellipsis. -/
def StaysBelowCap (heap : Heap) (settings : Settings) (depth : Nat) (root : Obj) : Prop :=
  ∀ fuel text, clWrite heap settings fuel depth root = some text → Token.ellipsis ∉ text

section Whole

variable {label : Obj → Nat} {nodes : List Obj} {scope : List Nat → Option (List Nat)}
  {table : Table}

theorem Written.covers (written : Written heap (heap.found root) label [] [root] nodes scope table)
    (compound : heap.circleCompoundP root = true) {obj : Obj} (path : OnPath heap.next root obj) :
    obj ∈ nodes := by
  induction path with
  | refl =>
      exact (written.covered root (List.mem_singleton_self root) compound).resolve_right
        List.not_mem_nil
  | @tail source _ _ next member =>
      exact (written.closed _ (List.mem_flatMap.mpr ⟨source, member, next⟩)).resolve_right
        List.not_mem_nil

theorem Written.reached
    (written : Written heap (heap.found root) label [] [root] nodes scope table) {obj : Obj}
    (member : obj ∈ nodes) : heap.circleCompoundP root = true ∧ OnPath heap.next root obj := by
  obtain ⟨start, listed, compound, path⟩ := written.onPath obj member
  rw [List.mem_singleton.mp listed] at compound path
  exact ⟨compound, path⟩

theorem count_flatMap_of_single {obj source : Obj} (single : ¬ Multiple heap.next root obj)
    (path : OnPath heap.next root source) (next : obj ∈ heap.next source) :
    ∀ nodes : List Obj, (∀ other ∈ nodes, OnPath heap.next root other) →
      (nodes.flatMap heap.next).count obj ≤ nodes.count source := by
  have once : (heap.next source).count obj ≤ 1 := by
    by_contra twice
    obtain ⟨first, second, less, firstLeads, secondLeads⟩ :=
      List.duplicate_iff_exists_distinct_get.mp
        (List.duplicate_iff_two_le_count.mpr (Nat.lt_of_not_le twice))
    have refers : ∀ place : Fin (heap.next source).length, obj = (heap.next source).get place →
        Refers heap.next root (some (source, place.1)) obj := by
      intro place leads
      refine ⟨List.getElem?_eq_some_iff.mpr ⟨place.2, leads.symm⟩, ?_⟩
      rintro other _ same
      obtain ⟨rfl, _⟩ := Prod.mk.inj (Option.some.inj same)
      exact path
    refine single ⟨some (source, first.1), some (source, second.1), ?_, refers first firstLeads,
      refers second secondLeads⟩
    intro same
    have := (Prod.mk.inj (Option.some.inj same)).2
    have := Fin.lt_def.mp less
    omega
  intro nodes
  induction nodes with
  | nil => exact fun _ => Nat.le_refl 0
  | cons node nodes induction =>
      intro reached
      have others := induction fun other member => reached other (List.mem_cons_of_mem _ member)
      rw [List.flatMap_cons, List.count_append, List.count_cons]
      by_cases same : node = source
      · subst same
        simp only [BEq.rfl, if_true]
        omega
      · have absent : (heap.next node).count obj = 0 := by
          rw [List.count_eq_zero]
          intro member
          exact same (same_source single (reached node List.mem_cons_self) member path next)
        omega

theorem Written.once (within : WithinLimits heap root)
    (written : Written heap (heap.found root) label [] [root] nodes scope table) :
    nodes.Nodup := by
  rw [List.nodup_iff_count_le_one]
  intro obj
  by_cases member : obj ∈ nodes
  · obtain ⟨compound, path⟩ := written.reached member
    have compoundOf : ∀ {other : Obj}, OnPath heap.next root other →
        heap.circleCompoundP other = true := by
      intro other reaches
      cases reaches with
      | refl => exact compound
      | tail _ next => exact (List.mem_filter.mp next).2
    -- A shared node is written behind its label only.
    have shared : ∀ other ∈ (heap.found root).shared, nodes.count other ≤ 1 := by
      intro other isShared
      have distinct := written.distinct
      rw [entered, List.append_nil, List.nodup_reverse, List.nodup_iff_count_le_one] at distinct
      have bound := distinct other
      rwa [List.count_filter (by simpa using isShared)] at bound
    clear member
    induction path with
    | refl =>
        by_cases isShared : root ∈ (heap.found root).shared
        · exact shared root isShared
        · have single := fun multiple => isShared ((within.shared_iff compound root).mpr multiple)
          have count := written.count root compound isShared
          have none : (nodes.flatMap heap.next).count root = 0 := by
            rw [List.count_eq_zero]
            intro inside
            obtain ⟨source, listed, next⟩ := List.mem_flatMap.mp inside
            exact single (multiple_root (written.reached listed).2 next)
          rw [count, none, List.count_singleton_self]
    | @tail source target before next induction =>
        by_cases isShared : target ∈ (heap.found root).shared
        · exact shared target isShared
        · have single := fun multiple => isShared ((within.shared_iff compound target).mpr multiple)
          have count := written.count target (compoundOf (before.tail next)) isShared
          have different : root ≠ target := by
            rintro rfl
            exact single (multiple_root before next)
          have few := count_flatMap_of_single single before next nodes
            fun other listed => (written.reached listed).2
          rw [List.count_singleton, beq_eq_false_iff_ne.mpr different, if_neg (by simp)] at count
          omega
  · rw [List.count_eq_zero.mpr member]
    exact Nat.zero_le 1

end Whole

theorem textDescribes (within : WithinLimits heap root) {settings : Settings}
    (unlimited : settings.length < 0) (deep : settings.level < 0) (array : settings.array = true)
    {fuel depth : Nat} {text : List Token}
    (written : clWrite heap settings fuel depth root = some text)
    (uncut : Token.ellipsis ∉ text) : TextDescribes heap root text := by
  obtain ⟨label, labelled, marked⟩ := labelled_circleTable heap root
  rw [clWrite] at written
  generalize printHardCap - depth = room at written
  generalize circleTable heap root = table at marked written
  obtain ⟨after, printed, rfl⟩ := Option.map_eq_some_iff.mp written
  have start : Seen (heap.found root) label [] ⟨table, [], 0, []⟩ :=
    ⟨marked, List.nodup_nil, fun obj member => by cases member⟩
  obtain ⟨datum, nodes, describes, shows, wrote⟩ :=
    printObj_describes labelled unlimited deep array fuel room root [] _ after start printed
      (by simpa using uncut)
  have tokens : after.text.reverse.filter Token.visible = datumTokens datum := by
    rw [Shows, shown, shown] at shows
    rw [List.filter_reverse]
    simpa using shows
  have names : ∀ obj, obj ∈ entered (heap.found root) nodes [] ↔
      obj ∈ nodes ∧ obj ∈ (heap.found root).shared := by
    intro obj
    rw [mem_entered]
    simp
  have sharedNodes : ∀ obj ∈ entered (heap.found root) nodes [],
      obj ∈ (heap.found root).shared := fun obj member => ((names obj).mp member).2
  refine ⟨datum, named (heap.found root) label, nodes,
    (entered (heap.found root) nodes []).map label, tokens, describes, wrote.once within, ?_,
    wrote.scoped_eq, ?_, ?_, ?_, ?_⟩
  · exact fun obj => ⟨wrote.reached, fun reached => wrote.covers reached.1 reached.2⟩
  · refine List.Nodup.map_on ?_ wrote.distinct
    exact fun first firstIn second secondIn =>
      labelled.distinct first (sharedNodes first firstIn) second (sharedNodes second secondIn)
  · intro n member
    obtain ⟨obj, listed, rfl⟩ := List.mem_map.mp member
    exact ⟨obj, named_label labelled.distinct (sharedNodes obj listed)⟩
  · intro first firstIn second secondIn same
    obtain ⟨one, oneListed, rfl⟩ := List.mem_map.mp firstIn
    obtain ⟨two, twoListed, rfl⟩ := List.mem_map.mp secondIn
    rw [named_label labelled.distinct (sharedNodes one oneListed),
      named_label labelled.distinct (sharedNodes two twoListed)] at same
    rw [Option.some.inj same]
  · intro obj
    constructor
    · rintro ⟨n, member, name⟩
      obtain ⟨one, listed, rfl⟩ := List.mem_map.mp member
      rw [named_label labelled.distinct (sharedNodes one listed)] at name
      obtain rfl := Option.some.inj name
      obtain ⟨node, isShared⟩ := (names one).mp listed
      exact ⟨node, (within.shared_iff (wrote.reached node).1 one).mp isShared⟩
    · rintro ⟨node, multiple⟩
      have isShared := (within.shared_iff (wrote.reached node).1 obj).mpr multiple
      exact ⟨label obj, List.mem_map_of_mem ((names obj).mpr ⟨node, isShared⟩),
        named_label labelled.distinct isShared⟩

/-- Within the limits of the walk and below the cap, and with no limit on levels and lengths,
the graph is printed, and the text describes it. -/
theorem printed_graph_described (heap : Heap) (settings : Settings) (depth : Nat) (root : Obj)
    (within : WithinLimits heap root) (below : StaysBelowCap heap settings depth root)
    (unlimited : settings.length < 0) (deep : settings.level < 0)
    (array : settings.array = true) :
    (∃ fuel text, clWrite heap settings fuel depth root = some text) ∧
      ∀ fuel text, clWrite heap settings fuel depth root = some text →
        TextDescribes heap root text :=
  ⟨within.terminates settings depth, fun fuel text written =>
    textDescribes within unlimited deep array written (below fuel text written)⟩

theorem circleLoop_new {heap : Heap} {table : Table} {count : Nat} {obj : Obj} {stack : List Obj}
    (compound : heap.circleCompoundP obj = true) (new : circleVal table obj = none)
    (free : count < circleLimit) :
    circleLoop heap table count (obj :: stack) =
      circleLoop heap (setCircleVal table obj 0) (count + 1)
        ((heap.parts obj).foldl (pushCompound heap) stack) := by
  rw [circleLoop, if_neg (by simp [compound]), new]
  exact if_neg (Nat.not_le.mpr free)

theorem circleLoop_again {heap : Heap} {table : Table} {count : Nat} {obj : Obj} {stack : List Obj}
    (compound : heap.circleCompoundP obj = true) (once : circleVal table obj = some 0) :
    circleLoop heap table count (obj :: stack) =
      circleLoop heap (setCircleVal table obj 1) count stack := by
  rw [circleLoop, if_neg (by simp [compound]), once]
  exact congrArg (circleLoop heap · count stack) (if_pos rfl)

/-- The conses 16 and 32, and the vector 48 of a fixnum and the second cons, which is the car of
both; each cons is the cdr of the other. -/
def mesh : Heap where
  cell obj :=
    if obj = 16 then some (.cons 48 32)
    else if obj = 32 then some (.cons 48 16)
    else if obj = 48 then some (.vector [3, 32])
    else none
  text _ := "1"
  cell_nil := by decide

/-- The table after the walk over the mesh. -/
def meshTable : Table :=
  [48, 16, 32].foldl (setCircleVal · · 1) ([16, 48, 32].foldl (setCircleVal · · 0) circleClear)

theorem mesh_circleWalk : circleWalk mesh 16 circleClear = meshTable := by
  rw [circleWalk, if_pos (by decide), circleLoop_new (by decide) (by decide +kernel) (by decide)]
  change circleLoop mesh _ 1 [48, 32] = _
  rw [circleLoop_new (by decide) (by decide +kernel) (by decide)]
  change circleLoop mesh _ 2 [32, 32] = _
  rw [circleLoop_new (by decide) (by decide +kernel) (by decide)]
  change circleLoop mesh _ 3 [48, 16, 32] = _
  rw [circleLoop_again (by decide) (by decide +kernel),
    circleLoop_again (by decide) (by decide +kernel),
    circleLoop_again (by decide) (by decide +kernel), circleLoop]
  rfl

/-- The mesh is printed as `#0=(#1=#(1 #2=(#1# . #0#)) . #2#)`. -/
theorem mesh_clWrite : clWrite mesh ⟨-1, -1, false, 72, true⟩ 1 0 16 =
    some [.define 0, .openList, .define 1, .openVector, .atom 3, .space, .define 2, .openList,
      .refer 1, .dot, .refer 0, .close, .close, .dot, .refer 2, .close] := by
  rw [clWrite, circleTable, mesh_circleWalk]
  decide +kernel

theorem mesh_withinLimits : WithinLimits mesh 16 := by
  have next : mesh.next 16 = [32, 48] ∧ mesh.next 32 = [16, 48] ∧ mesh.next 48 = [32] := by
    decide
  have closed : ∀ obj ∈ ({16, 32, 48} : Finset Obj), ∀ other ∈ mesh.next obj,
      other ∈ ({16, 32, 48} : Finset Obj) := by simp [next]
  exact .of_finset (by decide) closed (by decide) (by decide)

theorem mesh_staysBelowCap : StaysBelowCap mesh ⟨-1, -1, false, 72, true⟩ 0 16 := by
  intro fuel text written
  rw [clWrite_unique written mesh_clWrite]
  decide

/-- A graph of conses and a vector that share nodes through car and cdr. -/
theorem printed_graph_described_mesh :
    (∃ fuel text, clWrite mesh ⟨-1, -1, false, 72, true⟩ fuel 0 16 = some text) ∧
      ∀ fuel text, clWrite mesh ⟨-1, -1, false, 72, true⟩ fuel 0 16 = some text →
        TextDescribes mesh 16 text :=
  printed_graph_described mesh ⟨-1, -1, false, 72, true⟩ 0 16 mesh_withinLimits mesh_staysBelowCap
    (by decide) (by decide) rfl

/-- `#0=(1 . #0#)`, with the fixnum 1 as the object 3. -/
def ring : Heap where
  cell obj := if obj = 16 then some (.cons 3 16) else none
  text _ := "1"
  cell_nil := by decide

theorem ring_withinLimits : WithinLimits ring 16 := by
  have next : ring.next 16 = [16] := by decide
  have closed : ∀ obj ∈ ({16} : Finset Obj), ∀ other ∈ ring.next obj,
      other ∈ ({16} : Finset Obj) := by simp [next]
  exact .of_finset (by decide) closed (by decide) (by decide)

theorem ring_clWrite : clWrite ring ⟨-1, 1, false, 72, true⟩ 0 0 16 =
    some [.define 0, .openList, .atom 3, .spaceEllipsis, .close] := by
  have walked : circleWalk ring 16 circleClear =
      setCircleVal (setCircleVal circleClear 16 0) 16 1 := by
    rw [circleWalk, if_pos (by decide), circleLoop_new (by decide) (by decide +kernel) (by decide)]
    change circleLoop ring _ 1 [16] = _
    rw [circleLoop_again (by decide) (by decide +kernel), circleLoop]
  rw [clWrite, circleTable, walked]
  decide +kernel

/-- With `*print-length*` 1 the ring is printed as `#0=(1 ...)`, which describes no graph. -/
theorem cut_graph_not_described :
    WithinLimits ring 16 ∧ StaysBelowCap ring ⟨-1, 1, false, 72, true⟩ 0 16 ∧
      ∃ fuel text, clWrite ring ⟨-1, 1, false, 72, true⟩ fuel 0 16 = some text ∧
        ¬ TextDescribes ring 16 text := by
  refine ⟨ring_withinLimits, fun fuel text written => ?_, 0, _, ring_clWrite, ?_⟩
  · rw [clWrite_unique written ring_clWrite]
    decide
  · rintro ⟨datum, _, _, _, tokens, _⟩
    have absent := not_mem_datumTokens datum
    rw [← tokens] at absent
    exact absent (by simp [Token.visible])

end ClAmiga.Circle
