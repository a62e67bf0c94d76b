import Mathlib.Algebra.Order.Ring.Nat
import ClAmiga.Circle.Walk
import ClAmiga.Graph.BoundedWalk

/-!
# What the walk leaves in the table

The walk is a depth-first walk that keeps 192 nodes at most and has 511 references
pending at most: its table holds the nodes kept, with the value one for those met again.
Labels keep the keys and give different numbers to different shared nodes.
-/

namespace ClAmiga.Circle

open Probe (Slots Slot Target WellProbed Holds Fits)
open ClAmiga.Graph (Found boundedWalk)

def Heap.next (heap : Heap) (obj : Obj) : List Obj :=
  (heap.parts obj).filter heap.circleCompoundP

/-- The nodes that a walk over the graph of an object keeps, and those it meets again. -/
def Heap.found (heap : Heap) (root : Obj) : Found Obj :=
  boundedWalk heap.next circleLimit stackRoom [] []
    (if heap.circleCompoundP root then [root] else [])

/-- A table without two slots for an object and without an unused slot before its slot. -/
abbrev Sound (table : Table) : Prop :=
  WellProbed table circleHtSize circleHash

abbrev Has (table : Table) (obj : Obj) (val : Int) : Prop :=
  Holds table circleHtSize obj val

variable {table : Table} {obj : Obj} {val : Int}

theorem circleHash_lt (obj : Obj) : circleHash obj < circleHtSize := by
  have below : (255 : Nat) < circleHtSize := by decide
  refine Nat.lt_of_le_of_lt ?_ below
  rw [circleHash, UInt32.toNat_and]
  exact Nat.and_le_right

theorem circleVal_eq_some_iff (sound : Sound table) :
    circleVal table obj = some val ↔ Has table obj val := by
  have spec : Probe.TargetSpec table circleHtSize (circleHash obj) obj _ := Probe.target_spec sound
  rw [circleVal, circleFind]
  cases target : Probe.target table circleHtSize (circleHash obj) obj 0 circleHtSize none with
  | found slot =>
      rw [target] at spec
      obtain ⟨inside, held, here⟩ := spec
      have holds : Has table obj held := ⟨slot, inside, here⟩
      simp only [here, if_true, Option.some.injEq]
      exact ⟨fun same => same ▸ holds, fun other => holds.unique sound other⟩
  | vacant slot =>
      rw [target] at spec
      obtain ⟨_, free, absent, _⟩ := spec
      cases here : table slot with
      | entry => simp [here, Slot.isEntry] at free
      | empty => simp [absent val]
      | deleted => simp [absent val]
  | full =>
      rw [target] at spec
      obtain ⟨absent, full⟩ := spec
      refine ⟨fun same => ?_, fun holds => absurd holds (absent val)⟩
      cases here : table (circleHash obj) with
      | entry key held =>
          simp only [here] at same
          split at same
          · next equal =>
              subst equal
              exact absurd ⟨_, circleHash_lt key, here⟩ (absent held)
          · cases same
      | empty => simp [here] at same
      | deleted => simp [here] at same

theorem circleVal_eq_none_iff (sound : Sound table) :
    circleVal table obj = none ↔ ∀ val, ¬ Has table obj val := by
  rw [Option.eq_none_iff_forall_ne_some]
  exact forall_congr' fun val => not_congr (circleVal_eq_some_iff sound)

theorem circleFind_fits (sound : Sound table)
    (room : (∃ val, Has table obj val) ∨ ∃ a < circleHtSize, (table a).isEntry = false) :
    Fits table circleHtSize circleHash obj (circleFind table obj) := by
  have spec : Probe.TargetSpec table circleHtSize (circleHash obj) obj _ := Probe.target_spec sound
  rw [circleFind]
  cases target : Probe.target table circleHtSize (circleHash obj) obj 0 circleHtSize none with
  | found slot =>
      rw [target] at spec
      obtain ⟨inside, held, here⟩ := spec
      exact .of_found sound inside here
  | vacant slot =>
      rw [target] at spec
      obtain ⟨inside, free, absent, path⟩ := spec
      exact .of_vacant inside free absent path
  | full =>
      rw [target] at spec
      rcases room with ⟨held, holds⟩ | ⟨a, inside, free⟩
      · exact absurd holds (spec.1 held)
      · rw [spec.2 a inside] at free
        cases free

theorem sound_setCircleVal (sound : Sound table)
    (room : (∃ val, Has table obj val) ∨ ∃ a < circleHtSize, (table a).isEntry = false)
    (val : Int) : Sound (setCircleVal table obj val) :=
  (circleFind_fits sound room).wellProbed sound val

theorem has_setCircleVal (sound : Sound table)
    (room : (∃ val, Has table obj val) ∨ ∃ a < circleHtSize, (table a).isEntry = false)
    (val : Int) (other : Obj) (found : Int) :
    Has (setCircleVal table obj val) other found ↔
      (other = obj ∧ found = val) ∨ (other ≠ obj ∧ Has table other found) :=
  (circleFind_fits sound room).holds val other found

/-- The table holds the nodes kept, with the value one for the shared ones. -/
structure Records (table : Table) (kept shared : List Obj) : Prop where
  sound : Sound table
  holds : ∀ obj val, Has table obj val ↔ obj ∈ kept ∧ val = if obj ∈ shared then 1 else 0
  subset : ∀ obj ∈ shared, obj ∈ kept

namespace Records

variable {kept shared : List Obj}

theorem clear : Records circleClear [] [] where
  sound := .empty _ _
  holds obj val := by
    constructor
    · rintro ⟨_, _, here⟩
      cases here
    · rintro ⟨member, _⟩
      cases member
  subset obj member := by cases member

theorem circleVal_of_mem (records : Records table kept shared) (member : obj ∈ kept) :
    circleVal table obj = some (if obj ∈ shared then 1 else 0) :=
  (circleVal_eq_some_iff records.sound).mpr ((records.holds _ _).mpr ⟨member, rfl⟩)

theorem circleVal_of_not_mem (records : Records table kept shared) (absent : obj ∉ kept) :
    circleVal table obj = none :=
  (circleVal_eq_none_iff records.sound).mpr fun _ holds =>
    absent ((records.holds _ _).mp holds).1

theorem again (records : Records table kept shared) (member : obj ∈ kept) :
    Records (if (if obj ∈ shared then (1 : Int) else 0) = 0 then
      setCircleVal table obj 1 else table)
      kept (obj :: shared) := by
  have subset : ∀ other ∈ obj :: shared, other ∈ kept := by
    intro other listed
    rcases List.mem_cons.mp listed with rfl | earlier
    · exact member
    · exact records.subset other earlier
  by_cases known : obj ∈ shared
  · rw [if_pos known, if_neg (by decide)]
    refine ⟨records.sound, fun other val => ?_, subset⟩
    have same : other ∈ obj :: shared ↔ other ∈ shared := by
      rw [List.mem_cons]
      exact or_iff_right_of_imp fun equal => equal ▸ known
    simp only [records.holds, same]
  · rw [if_neg known, if_pos rfl]
    have room : (∃ val, Has table obj val) ∨ ∃ a < circleHtSize, (table a).isEntry = false :=
      .inl ⟨_, (records.holds _ _).mpr ⟨member, rfl⟩⟩
    refine ⟨sound_setCircleVal records.sound room 1, fun other val => ?_, subset⟩
    rw [has_setCircleVal records.sound room, records.holds]
    by_cases equal : other = obj
    · simp [equal, member]
    · simp [equal]

theorem keep (records : Records table kept shared) (absent : obj ∉ kept)
    (free : kept.length < circleLimit) :
    Records (setCircleVal table obj 0) (obj :: kept) shared := by
  have room : ∃ a < circleHtSize, (table a).isEntry = false := by
    by_contra full
    push Not at full
    have all := Probe.card_entries_eq_size_iff.mpr fun a inside => by
      simpa using full a inside
    have few := Probe.card_entries_le records.sound kept fun key value held =>
      ((records.holds key value).mp held).1
    have : circleLimit < circleHtSize := by decide
    omega
  refine ⟨sound_setCircleVal records.sound (.inr room) 0, fun other val => ?_,
    fun other member => List.mem_cons_of_mem _ (records.subset other member)⟩
  rw [has_setCircleVal records.sound (.inr room), records.holds, List.mem_cons]
  by_cases equal : other = obj
  · subst equal
    have unshared : other ∉ shared := fun member => absent (records.subset other member)
    simp [unshared]
  · simp [equal]

end Records

theorem foldl_pushCompound (heap : Heap) (parts stack : List Obj) :
    parts.foldl (pushCompound heap) stack =
      (parts.filter heap.circleCompoundP).foldl (Graph.push stackRoom) stack := by
  rw [List.foldl_filter]
  congr 1
  funext pending obj
  rw [pushCompound, Graph.push]
  by_cases compound : heap.circleCompoundP obj = true
  · simp [compound]
  · simp [compound]

theorem circleLoop_records (heap : Heap) (kept shared stack : List Obj) :
    ∀ table, Records table kept shared → (∀ obj ∈ stack, heap.circleCompoundP obj = true) →
      let found := boundedWalk heap.next circleLimit stackRoom kept shared stack
      Records (circleLoop heap table kept.length stack) found.kept found.shared := by
  fun_induction boundedWalk heap.next circleLimit stackRoom kept shared stack with
  | case1 kept shared =>
      intro table records _
      rw [circleLoop]
      exact records
  | case2 kept shared obj stack known induction =>
      intro table records compound
      rw [circleLoop, if_neg (by simp [compound obj List.mem_cons_self]),
        records.circleVal_of_mem known]
      exact induction _ (records.again known) fun other member =>
        compound other (List.mem_cons_of_mem _ member)
  | case3 kept shared obj stack unknown full induction =>
      intro table records compound
      rw [circleLoop, if_neg (by simp [compound obj List.mem_cons_self]),
        records.circleVal_of_not_mem unknown]
      simp only [if_pos full]
      exact induction _ records fun other member =>
        compound other (List.mem_cons_of_mem _ member)
  | case4 kept shared obj stack unknown free induction =>
      intro table records compound
      rw [circleLoop, if_neg (by simp [compound obj List.mem_cons_self]),
        records.circleVal_of_not_mem unknown]
      simp only [if_neg free, foldl_pushCompound]
      refine induction _ (records.keep unknown (Nat.lt_of_not_le free)) ?_
      intro other member
      rcases Graph.mem_foldl_push _ _ other member with part | pending
      · exact (List.mem_filter.mp part).2
      · exact compound other (List.mem_cons_of_mem _ pending)

theorem circleWalk_records (heap : Heap) (root : Obj) :
    Records (circleWalk heap root circleClear) (heap.found root).kept (heap.found root).shared := by
  rw [circleWalk, Heap.found]
  split
  · next compound => exact circleLoop_records heap [] [] [root] _ .clear (by simpa using compound)
  · rw [Graph.boundedWalk_nil]
    exact .clear
theorem compound_of_kept (heap : Heap) (root : Obj) :
    ∀ obj ∈ (heap.found root).kept, heap.circleCompoundP obj = true := by
  have inherits : ∀ obj, ∀ part ∈ heap.next obj, heap.circleCompoundP part = true :=
    fun obj part member => (List.mem_filter.mp member).2
  rw [Heap.found]
  refine Graph.boundedWalk_kept inherits [] [] _ (fun obj member => by cases member) ?_
  split
  · next compound => simpa using compound
  · exact fun obj member => by cases member

theorem kept_of_shared (heap : Heap) (root : Obj) :
    ∀ obj ∈ (heap.found root).shared, obj ∈ (heap.found root).kept :=
  Graph.boundedWalk_shared [] [] _ fun obj member => by cases member

/-- Labels before some slot are assigned. -/
structure Assigning (found : Found Obj) (slot : Nat) (state : Table × Int) : Prop where
  sound : Sound state.1
  next : 0 ≤ state.2
  held : ∀ obj ∈ found.kept, ∃ val, Has state.1 obj val
  kept : ∀ obj val, Has state.1 obj val → obj ∈ found.kept
  single : ∀ obj val, Has state.1 obj val → obj ∉ found.shared → val = 0
  shared : ∀ obj val, Has state.1 obj val → obj ∈ found.shared →
    val = 1 ∨ (2 ≤ val ∧ val < state.2 + 2)
  distinct : ∀ first second val, Has state.1 first val → Has state.1 second val → 2 ≤ val →
    first = second
  assigned : ∀ earlier < slot, ∀ key, state.1 earlier ≠ .entry key 1

variable {found : Found Obj} {state : Table × Int}

theorem Records.assigning (records : Records table found.kept found.shared) :
    Assigning found 0 (table, 0) where
  sound := records.sound
  next := le_refl 0
  held obj member := ⟨_, (records.holds _ _).mpr ⟨member, rfl⟩⟩
  kept obj val has := ((records.holds _ _).mp has).1
  single obj val has unshared := by
    rw [((records.holds _ _).mp has).2, if_neg unshared]
  shared obj val has member := by
    rw [((records.holds _ _).mp has).2, if_pos member]
    exact .inl rfl
  distinct first second val has _ large := by
    have value := ((records.holds _ _).mp has).2
    split at value <;> omega
  assigned earlier below := absurd below (Nat.not_lt_zero _)

theorem Assigning.skip {slot : Nat}
    (assigning : Assigning found slot state) (other : ∀ key, state.1 slot ≠ .entry key 1) :
    Assigning found (slot + 1) state where
  sound := assigning.sound
  next := assigning.next
  held := assigning.held
  kept := assigning.kept
  single := assigning.single
  shared := assigning.shared
  distinct := assigning.distinct
  assigned earlier below := by
    rcases Nat.lt_succ_iff_lt_or_eq.mp below with before | rfl
    · exact assigning.assigned earlier before
    · exact other

theorem Assigning.assign {slot : Nat} {key : Obj}
    (assigning : Assigning found slot state) (inside : slot < circleHtSize)
    (here : state.1 slot = .entry key 1) :
    Assigning found (slot + 1)
      (Probe.put state.1 slot (.entry key (state.2 + 2)), state.2 + 1) := by
  have fits : Fits state.1 circleHtSize circleHash key slot :=
    .of_found assigning.sound inside here
  have hadOne : Has state.1 key 1 := ⟨slot, inside, here⟩
  have next := assigning.next
  have has : ∀ obj val, Has (Probe.put state.1 slot (.entry key (state.2 + 2))) obj val ↔
      (obj = key ∧ val = state.2 + 2) ∨ (obj ≠ key ∧ Has state.1 obj val) :=
    fun obj val => fits.holds _ obj val
  have member : key ∈ found.shared := by
    by_contra unshared
    have := assigning.single key 1 hadOne unshared
    omega
  have fresh : ∀ obj, ¬ Has state.1 obj (state.2 + 2) := by
    intro obj held
    by_cases shared : obj ∈ found.shared
    · rcases assigning.shared obj _ held shared with one | label <;> omega
    · have := assigning.single obj _ held shared
      omega
  exact {
    sound := fits.wellProbed assigning.sound _
    next := by
      change 0 ≤ state.2 + 1
      omega
    held := by
      intro obj kept
      by_cases same : obj = key
      · exact ⟨_, (has _ _).mpr (.inl ⟨same, rfl⟩)⟩
      · obtain ⟨val, old⟩ := assigning.held obj kept
        exact ⟨val, (has _ _).mpr (.inr ⟨same, old⟩)⟩
    kept := by
      intro obj val held
      rcases (has _ _).mp held with ⟨rfl, _⟩ | ⟨_, old⟩
      · exact assigning.kept obj 1 hadOne
      · exact assigning.kept obj val old
    single := by
      intro obj val held unshared
      rcases (has _ _).mp held with ⟨rfl, _⟩ | ⟨_, old⟩
      · exact absurd member unshared
      · exact assigning.single obj val old unshared
    shared := by
      intro obj val held shared
      change val = 1 ∨ (2 ≤ val ∧ val < state.2 + 1 + 2)
      rcases (has _ _).mp held with ⟨rfl, rfl⟩ | ⟨_, old⟩
      · omega
      · have := assigning.shared obj val old shared
        omega
    distinct := by
      intro first second val firstHas secondHas large
      rcases (has _ _).mp firstHas with ⟨rfl, rfl⟩ | ⟨_, firstOld⟩
      · rcases (has _ _).mp secondHas with ⟨rfl, _⟩ | ⟨_, secondOld⟩
        · rfl
        · exact absurd secondOld (fresh second)
      · rcases (has _ _).mp secondHas with ⟨rfl, rfl⟩ | ⟨_, secondOld⟩
        · exact absurd firstOld (fresh first)
        · exact assigning.distinct first second val firstOld secondOld large
    assigned := by
      intro earlier below other
      change Probe.put state.1 slot (.entry key (state.2 + 2)) earlier ≠ .entry other 1
      by_cases same : earlier = slot
      · subst same
        rw [Probe.put_self]
        intro equal
        have := (Slot.entry.inj equal).2
        omega
      · rw [Probe.put_of_ne _ _ same]
        exact assigning.assigned earlier (by omega) other }

theorem Assigning.slot {slot : Nat}
    (assigning : Assigning found slot state) (inside : slot < circleHtSize) :
    Assigning found (slot + 1) (assignSlot state slot) := by
  rw [assignSlot]
  cases here : state.1 slot with
  | entry key val =>
      by_cases one : val = 1
      · subst one
        simpa using assigning.assign inside here
      · simp only [if_neg one]
        exact assigning.skip fun other => by simp [here, one]
  | empty => exact assigning.skip fun other => by simp [here]
  | deleted => exact assigning.skip fun other => by simp [here]

theorem Assigning.slots
    (assigning : Assigning found 0 state) (slots : Nat) (inside : slots ≤ circleHtSize) :
    Assigning found slots ((List.range slots).foldl assignSlot state) := by
  induction slots with
  | zero => exact assigning
  | succ slots induction =>
      rw [List.range_succ, List.foldl_append]
      exact (induction (Nat.le_of_succ_le inside)).slot inside

/-- The value of a node: zero for a node that is not shared, and for a shared one its label
and whether it is printed already. -/
def mark (found : Found Obj) (label : Obj → Nat) (seen : List Obj) (obj : Obj) : Int :=
  if obj ∈ found.shared then
    if obj ∈ seen then -(label obj + 2) else label obj + 2
  else
    0

/-- The table while some nodes are printed already. -/
structure Marked (found : Found Obj) (label : Obj → Nat) (seen : List Obj) (table : Table) :
    Prop where
  sound : Sound table
  holds : ∀ obj val, Has table obj val ↔ obj ∈ found.kept ∧ val = mark found label seen obj

def Labelling (found : Found Obj) (label : Obj → Nat) : Prop :=
  ∀ first ∈ found.shared, ∀ second ∈ found.shared, label first = label second → first = second

theorem Assigning.marked (assigning : Assigning found circleHtSize state)
    (subset : ∀ obj ∈ found.shared, obj ∈ found.kept) :
    ∃ label, Labelling found label ∧ Marked found label [] state.1 := by
  have large : ∀ obj val, Has state.1 obj val → obj ∈ found.shared → 2 ≤ val := by
    rintro obj val ⟨slot, inside, here⟩ member
    rcases assigning.shared obj val ⟨slot, inside, here⟩ member with rfl | label
    · exact absurd here (assigning.assigned slot inside obj)
    · exact label.1
  let label : Obj → Nat := fun obj => ((circleVal state.1 obj).getD 2 - 2).toNat
  have labelled : ∀ obj val, Has state.1 obj val → obj ∈ found.shared →
      val = (label obj : Int) + 2 := by
    intro obj val has member
    have found := (circleVal_eq_some_iff assigning.sound).mpr has
    have := large obj val has member
    simp only [label, found, Option.getD_some]
    omega
  have marks : ∀ obj val, Has state.1 obj val → val = mark found label [] obj := by
    intro obj val has
    rw [mark]
    split
    · next member => simpa using labelled obj val has member
    · next unshared => exact assigning.single obj val has unshared
  refine ⟨label, ?_, assigning.sound, fun obj val => ⟨fun has => ?_, ?_⟩⟩
  · intro first firstIn second secondIn same
    obtain ⟨one, firstHas⟩ := assigning.held first (subset first firstIn)
    obtain ⟨two, secondHas⟩ := assigning.held second (subset second secondIn)
    have left := labelled first one firstHas firstIn
    have right := labelled second two secondHas secondIn
    obtain rfl : one = two := by rw [left, right, same]
    exact assigning.distinct first second one firstHas secondHas (large first one firstHas firstIn)
  · exact ⟨assigning.kept obj val has, marks obj val has⟩
  · rintro ⟨kept, rfl⟩
    obtain ⟨val, has⟩ := assigning.held obj kept
    rwa [← marks obj val has]

theorem circleTable_marked (heap : Heap) (root : Obj) : ∃ label, Labelling (heap.found root) label ∧
      Marked (heap.found root) label [] (circleTable heap root) := by
  have records := circleWalk_records heap root
  exact (records.assigning.slots circleHtSize (le_refl _)).marked records.subset

end ClAmiga.Circle
