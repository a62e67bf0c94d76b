import ClAmiga.Condition.HandlerStack

/-!
# The nesting behind the handler stack

The open constructs determine the handler stack and the active mask: each one
stores both as they were at its entry and says what it changed since.  What is
eligible while a handler runs, what a signal has tried, and which mask an exit
restores are read off that nesting.
-/

namespace ClAmiga.Condition

theorem getLsbD_low_ones (count index : Nat) (bound : count < 64) :
    ((1#64 <<< count) - 1#64).getLsbD index = decide (index < count) := by
  have powerBound : 2 ^ count < 2 ^ 64 := Nat.pow_lt_pow_right (by omega) bound
  have positive := Nat.two_pow_pos count
  have toNatEq : ((1#64 <<< count) - 1#64).toNat = 2 ^ count - 1 := by
    rw [BitVec.toNat_sub_of_le]
    · simp [Nat.shiftLeft_eq]
      omega
    · rw [BitVec.le_def]
      simp [Nat.shiftLeft_eq]
      omega
  rw [BitVec.getLsbD, toNatEq, Nat.testBit_two_pow_sub_one]

theorem getLsbD_bandMask {lo hi : Nat} {band : Mask}
    (defined : bandMask lo hi = some band) {index : Nat}
    (indexBound : index < 64) :
    band.getLsbD index = decide (lo ≤ index ∧ index < hi) := by
  unfold bandMask at defined
  split at defined
  · rename_i loBound
    obtain rfl := Option.some.inj defined
    rw [BitVec.getLsbD_and, BitVec.getLsbD_not, getLsbD_low_ones lo index loBound]
    rw [Bool.eq_iff_iff]
    split
    · rw [BitVec.getLsbD_allOnes]
      simp [indexBound]
      omega
    · rw [getLsbD_low_ones hi index (by omega)]
      simp [indexBound]
      omega
  · simp at defined

theorem getLsbD_or_bit (mask : Mask) {top index : Nat} (topBound : top < 64) :
    (mask ||| (1#64 <<< top)).getLsbD index = (mask.getLsbD index || decide (index = top)) := by
  rw [BitVec.getLsbD_or]
  congr 1
  simp only [BitVec.getLsbD_shiftLeft, BitVec.getLsbD_one]
  by_cases same : index = top
  · simp [same, topBound]
  · simp [same]
    omega

variable {Ty Cond : Type} (typeMatches : Cond → Ty → Bool)

/-- The positions from `bound` on whose bindings are active in `mask` and match
`condition`. -/
def eligibleMatches (handlers : List (Binding Ty)) (mask : Mask)
    (condition : Cond) (bound : Nat) : List Nat :=
  (List.range' bound (handlers.length - bound)).filter fun index =>
    mask.getLsbD index && (handlers[index]?).any fun binding =>
      typeMatches condition binding.typeName

/-- The bindings above the mark belong to the construct and are active; below
the mark nothing has changed since its entry. -/
structure Extends (owns : Handler → Prop) (mark : Nat) (entry : Mask)
    (handlers : List (Binding Ty)) (mask : Mask) : Prop where
  below : ∀ index, index < mark → mask.getLsbD index = entry.getLsbD index
  above : ∀ index, mark ≤ index → ∀ binding,
    handlers[index]? = some binding → mask.getLsbD index = true ∧
      binding.formMark = mark ∧ binding.formMask = entry ∧ owns binding.handler

/-- The handlers a `HANDLER-CASE` at `position` pushes. -/
def IsClauseOf (position : Nat) (handler : Handler) : Prop :=
  ∃ index, handler = .clause index position

/-- What a construct has made of stack and mask, as long as it is the
innermost one; `position` constructs are open around it. -/
def Region.Opens (region : Region Cond) (position : Nat)
    (handlers : List (Binding Ty)) (mask : Mask) : Prop :=
  match region.kind with
  | .bind count => handlers.length = region.mark + count ∧
      Extends (· = .function) region.mark region.entry handlers mask
  | .caseForm => region.mark ≤ handlers.length ∧
      Extends (IsClauseOf position) region.mark region.entry handlers mask
  | .frame _ | .boundary => handlers.length = region.mark ∧
      Extends (fun _ => False) region.mark region.entry handlers mask
  | .search condition bound tried => handlers.length = region.mark ∧
      Extends (fun _ => False) region.mark region.entry handlers mask ∧
      bound ≤ region.mark ∧
      tried = eligibleMatches typeMatches handlers region.entry condition bound
  | .run index => handlers.length = region.mark ∧ index < region.mark ∧
      region.entry.getLsbD index = true ∧
      (∀ binding, handlers[index]? = some binding → binding.formMark = index) ∧
      ∀ other, other < region.mark →
        mask.getLsbD other =
          (region.entry.getLsbD other && decide (other < index))

/-- Stack and mask are what the open constructs say, from the inside out. -/
def Nested : List (Region Cond) → List (Binding Ty) → Mask → Prop
  | [], handlers, _ => handlers = []
  | region :: rest, handlers, mask =>
      region.Opens typeMatches rest.length handlers mask ∧
        Nested rest (handlers.take region.mark) region.entry

variable {typeMatches}
variable {handlers : List (Binding Ty)} {mask : Mask}

namespace Region

variable {region : Region Cond} {position : Nat}

theorem Opens.mark_le (opens : region.Opens typeMatches position handlers mask) :
    region.mark ≤ handlers.length := by
  unfold Opens at opens
  split at opens <;> omega

theorem Opens.entry_of_mask (opens : region.Opens typeMatches position handlers mask) {index : Nat}
    (low : index < region.mark)
    (active : mask.getLsbD index = true) :
    region.entry.getLsbD index = true := by
  unfold Opens at opens
  split at opens
  · rwa [opens.2.below index low] at active
  · rwa [opens.2.below index low] at active
  · rwa [opens.2.below index low] at active
  · rwa [opens.2.below index low] at active
  · rwa [opens.2.1.below index low] at active
  · rw [opens.2.2.2.2 index low, Bool.and_eq_true] at active
    exact active.1

end Region

variable {above rest : List (Region Cond)} {region : Region Cond} {control : List (Region Cond)}

theorem nested_suffix (nested : Nested typeMatches (above ++ region :: rest) handlers mask) :
    region.mark ≤ handlers.length ∧
      Nested typeMatches rest (handlers.take region.mark) region.entry := by
  induction above generalizing handlers mask with
  | nil => exact ⟨nested.1.mark_le, nested.2⟩
  | cons outer above induction =>
      obtain ⟨opens, nested⟩ := nested
      obtain ⟨markLe, suffix⟩ := induction nested
      rw [List.length_take] at markLe
      rw [List.take_take, Nat.min_eq_left (by omega)] at suffix
      exact ⟨by omega, suffix⟩

theorem nested_opens (nested : Nested typeMatches control handlers mask)
    (member : region ∈ control) :
    ∃ position count entry, region.Opens typeMatches position (handlers.take count) entry := by
  induction control generalizing handlers mask with
  | nil => simp at member
  | cons head rest induction =>
      rcases List.mem_cons.mp member with rfl | later
      · refine ⟨rest.length, handlers.length, mask, ?_⟩
        rw [List.take_length]
        exact nested.1
      · obtain ⟨position, count, entry, opens⟩ := induction nested.2 later
        rw [List.take_take] at opens
        exact ⟨position, _, entry, opens⟩

/-- Only the bits of existing bindings matter. -/
theorem nested_congr {other : Mask}
    (agree : ∀ index, index < handlers.length → mask.getLsbD index = other.getLsbD index)
    (nested : Nested typeMatches control handlers mask) :
    Nested typeMatches control handlers other := by
  cases control with
  | nil => exact nested
  | cons region rest =>
      obtain ⟨opens, outside⟩ := nested
      refine ⟨?_, outside⟩
      have markLe := opens.mark_le
      have extends_congr {owns : Handler → Prop}
          (extension : Extends owns region.mark region.entry handlers mask) :
          Extends owns region.mark region.entry handlers other := by
        constructor
        · intro index low
          rw [← agree index (by omega)]
          exact extension.below index low
        · intro index high binding found
          have inside := (List.getElem?_eq_some_iff.mp found).1
          rw [← agree index inside]
          exact extension.above index high binding found
      unfold Region.Opens at opens ⊢
      split at opens
      · exact ⟨opens.1, extends_congr opens.2⟩
      · exact ⟨opens.1, extends_congr opens.2⟩
      · exact ⟨opens.1, extends_congr opens.2⟩
      · exact ⟨opens.1, extends_congr opens.2⟩
      · exact ⟨opens.1, extends_congr opens.2.1, opens.2.2⟩
      · refine ⟨opens.1, opens.2.1, opens.2.2.1, opens.2.2.2.1, ?_⟩
        intro index low
        rw [← agree index (by omega)]
        exact opens.2.2.2.2 index low

theorem getElem?_take_of_some {Item : Type} {items : List Item} {count index : Nat}
    (low : index < count) : (items.take count)[index]? = items[index]? := by
  rw [List.getElem?_take, if_pos low]

/-- An active binding sees below its form what was active when the form was
entered. -/
theorem nested_coherent (nested : Nested typeMatches control handlers mask) {index : Nat}
    {binding : Binding Ty} (found : handlers[index]? = some binding) :
    binding.formMark ≤ index ∧ (mask.getLsbD index = true → ∀ other, other < binding.formMark →
        mask.getLsbD other = binding.formMask.getLsbD other) := by
  induction control generalizing handlers mask with
  | nil =>
      rw [Nested] at nested
      simp [nested] at found
  | cons region rest induction =>
      obtain ⟨opens, outside⟩ := nested
      have extended {owns : Handler → Prop}
          (extension : Extends owns region.mark region.entry handlers mask) :
          binding.formMark ≤ index ∧ (mask.getLsbD index = true →
            ∀ other, other < binding.formMark →
              mask.getLsbD other = binding.formMask.getLsbD other) := by
        rcases Nat.lt_or_ge index region.mark with low | high
        · obtain ⟨markLe, coherent⟩ := induction outside
            (by rw [getElem?_take_of_some low]; exact found)
          refine ⟨markLe, ?_⟩
          intro active other otherLow
          rw [extension.below index low] at active
          rw [extension.below other (by omega)]
          exact coherent active other otherLow
        · obtain ⟨_, markEq, maskEq, _⟩ := extension.above index high binding found
          refine ⟨by omega, ?_⟩
          intro _ other otherLow
          rw [maskEq, extension.below other (by omega)]
      unfold Region.Opens at opens
      split at opens
      · exact extended opens.2
      · exact extended opens.2
      · exact extended opens.2
      · exact extended opens.2
      · exact extended opens.2.1
      · -- While a handler runs, an active binding lies below it.
        obtain ⟨lengthEq, _, _, _, bits⟩ := opens
        have inside := (List.getElem?_eq_some_iff.mp found).1
        obtain ⟨markLe, coherent⟩ := induction outside
          (by rw [getElem?_take_of_some (by omega)]; exact found)
        refine ⟨markLe, ?_⟩
        intro active other otherLow
        rw [bits index (by omega), Bool.and_eq_true, decide_eq_true_eq] at active
        rw [bits other (by omega), decide_eq_true (by omega), Bool.and_true]
        exact coherent active.1 other otherLow

/-- What may be eligible while the handler at `index` runs, called with
`region.mark` bindings in place. -/
def ConfinedTo (handlers : List (Binding Ty)) (mask : Mask)
    (region : Region Cond) (index : Nat) : Prop :=
  ∀ other, other < handlers.length → mask.getLsbD other = true →
    region.mark ≤ other ∨ ∃ binding, handlers[index]? = some binding ∧
      other < binding.formMark ∧ binding.formMask.getLsbD other = true

theorem nested_confined {index : Nat} (nested : Nested typeMatches control handlers mask)
    (member : region ∈ control) (running : region.kind = .run index) :
    ConfinedTo handlers mask region index := by
  induction control generalizing handlers mask with
  | nil => simp at member
  | cons head rest induction =>
      obtain ⟨opens, outside⟩ := nested
      intro other inside active
      rcases List.mem_cons.mp member with rfl | later
      · unfold Region.Opens at opens
        rw [running] at opens
        obtain ⟨lengthEq, indexLow, indexActive, lastClause, bits⟩ := opens
        rw [bits other (by omega), Bool.and_eq_true, decide_eq_true_eq] at active
        obtain ⟨binding, found⟩ : ∃ binding, handlers[index]? = some binding :=
          ⟨_, List.getElem?_eq_getElem (show index < handlers.length by omega)⟩
        have markEq := lastClause binding found
        right
        refine ⟨binding, found, by omega, ?_⟩
        obtain ⟨_, coherent⟩ := nested_coherent outside
          (by rw [getElem?_take_of_some indexLow]; exact found)
        rw [← coherent indexActive other (by omega)]
        exact active.1
      · rcases Nat.lt_or_ge other head.mark with low | high
        · have confined := induction outside later other
            (by rw [List.length_take]; omega) (opens.entry_of_mask low active)
          rcases confined with own | ⟨binding, found, rest⟩
          · exact Or.inl own
          · right
            refine ⟨binding, ?_, rest⟩
            rw [List.getElem?_take] at found
            split at found
            · exact found
            · simp at found
        · left
          obtain ⟨above, below, rfl⟩ := List.append_of_mem later
          have markLe := (nested_suffix outside).1
          rw [List.length_take] at markLe
          omega

def isRun (region : Region Cond) : Prop :=
  ∃ index, region.kind = .run index

theorem nested_same_mask (noRun : ∀ inner ∈ above, ¬ isRun inner) (frame : ¬ isRun region)
    (nested : Nested typeMatches (above ++ region :: rest) handlers mask)
    {index : Nat} (low : index < region.mark) :
    mask.getLsbD index = region.entry.getLsbD index := by
  have unchanged {handlers : List (Binding Ty)} {mask : Mask}
      {inner : Region Cond} {position : Nat} (notRun : ¬ isRun inner)
      (opens : inner.Opens typeMatches position handlers mask)
      (below : index < inner.mark) :
      mask.getLsbD index = inner.entry.getLsbD index := by
    unfold Region.Opens at opens
    split at opens
    · exact opens.2.below index below
    · exact opens.2.below index below
    · exact opens.2.below index below
    · exact opens.2.below index below
    · exact opens.2.1.below index below
    · rename_i runIndex running
      exact (notRun ⟨runIndex, running⟩).elim
  induction above generalizing handlers mask with
  | nil => exact unchanged frame nested.1 low
  | cons inner above induction =>
      obtain ⟨opens, outside⟩ := nested
      have markLe := (nested_suffix outside).1
      rw [List.length_take] at markLe
      rw [unchanged (noRun inner List.mem_cons_self) opens (by omega)]
      exact induction (fun other member =>
        noRun other (List.mem_cons_of_mem _ member)) outside

/-- A clause binding belongs to an open `HANDLER-CASE`, and every construct
inside that form was entered above the binding. -/
theorem nested_clause (nested : Nested typeMatches control handlers mask) {index : Nat}
    {binding : Binding Ty} (found : handlers[index]? = some binding)
    {clause nlxIndex : Nat} (owner : binding.handler = .clause clause nlxIndex) :
    ∃ above region rest, control = above ++ region :: rest ∧
      rest.length = nlxIndex ∧ region.kind = .caseForm ∧
      ∀ inner ∈ above, index < inner.mark := by
  induction control generalizing handlers mask with
  | nil =>
      rw [Nested] at nested
      simp [nested] at found
  | cons region rest induction =>
      obtain ⟨opens, outside⟩ := nested
      rcases Nat.lt_or_ge index region.mark with low | high
      · obtain ⟨above, target, outer, rfl, position, kind, inside⟩ :=
          induction outside (by rw [getElem?_take_of_some low]; exact found)
        refine ⟨region :: above, target, outer, rfl, position, kind, ?_⟩
        intro inner member
        rcases List.mem_cons.mp member with rfl | later
        · exact low
        · exact inside inner later
      · have inRange := (List.getElem?_eq_some_iff.mp found).1
        unfold Region.Opens at opens
        split at opens
        · obtain ⟨_, _, _, isFunction⟩ := opens.2.above index high binding found
          rw [owner] at isFunction
          cases isFunction
        · rename_i kind
          obtain ⟨_, _, _, number, isClause⟩ := opens.2.above index high binding found
          rw [owner] at isClause
          cases isClause
          exact ⟨[], region, rest, rfl, rfl, kind, by simp⟩
        all_goals omega

/-- The floor is the mark of the innermost boundary; a search never looks below
the floor it started with. -/
def Floors : Nat → List (Region Cond) → Prop
  | floor, [] => floor = 0
  | floor, region :: rest =>
      (match region.kind with
        | .boundary => floor = region.mark
        | .search _ bound _ => floor = region.floor ∧ floor ≤ bound
        | _ => floor = region.floor) ∧ Floors region.floor rest

/-- Leaving a construct without restoring the floor is harmless where the
construct did not raise it. -/
def Region.KeepsFloor (region : Region Cond) : Prop :=
  region.kind = .boundary → region.mark = region.floor

theorem Floors.tail {rest : List (Region Cond)}
    {floor : Nat} (floors : Floors floor (region :: rest))
    (keeps : region.KeepsFloor) : floor = region.floor ∧ Floors floor rest := by
  obtain ⟨head, outside⟩ := floors
  split at head
  · rename_i kind
    rw [head, keeps kind]
    exact ⟨rfl, outside⟩
  · exact ⟨head.1, head.1 ▸ outside⟩
  · exact ⟨head, head ▸ outside⟩

theorem Floors.drop {floor : Nat} (floors : Floors floor (above ++ rest))
    (keeps : ∀ inner ∈ above, inner.KeepsFloor) : Floors floor rest := by
  induction above with
  | nil => exact floors
  | cons inner above induction =>
      exact induction (floors.tail (keeps inner List.mem_cons_self)).2
        fun other member => keeps other (List.mem_cons_of_mem _ member)

theorem Floors.of_boundary {floor : Nat}
    (floors : Floors floor (above ++ rest)) {boundary : Region Cond}
    (member : boundary ∈ above) (isBoundary : boundary.kind = .boundary) :
    ∃ inner ∈ above, floor = inner.mark := by
  induction above with
  | nil => simp at member
  | cons inner above induction =>
      by_cases kind : inner.kind = .boundary
      · obtain ⟨head, _⟩ := floors
        rw [kind] at head
        exact ⟨inner, List.mem_cons_self, head⟩
      · have later : boundary ∈ above := by
          rcases List.mem_cons.mp member with rfl | later
          · exact absurd isBoundary kind
          · exact later
        obtain ⟨other, otherMember, floorEq⟩ :=
          induction (floors.tail (absurd · kind)).2 later
        exact ⟨other, List.mem_cons_of_mem _ otherMember, floorEq⟩

theorem Floors.le_length {floor : Nat} (floors : Floors floor control)
    (nested : Nested typeMatches control handlers mask) :
    floor ≤ handlers.length := by
  by_cases inside : ∃ boundary ∈ control, boundary.kind = Kind.boundary
  · obtain ⟨boundary, member, isBoundary⟩ := inside
    rw [← List.append_nil control] at floors
    obtain ⟨inner, innerMember, rfl⟩ := floors.of_boundary member isBoundary
    obtain ⟨above, rest, rfl⟩ := List.append_of_mem innerMember
    exact (nested_suffix nested).1
  · rw [← List.append_nil control] at floors
    have zero : floor = 0 := floors.drop fun inner member isBoundary =>
      absurd ⟨inner, member, isBoundary⟩ inside
    omega

theorem eligibleMatches_top (handlers : List (Binding Ty)) (mask : Mask) (condition : Cond) :
    eligibleMatches typeMatches handlers mask condition handlers.length = [] := by
  simp [eligibleMatches]

theorem eligibleMatches_succ {handlers : List (Binding Ty)} {mask : Mask}
    {condition : Cond} {index : Nat} {binding : Binding Ty}
    (found : handlers[index]? = some binding) :
    eligibleMatches typeMatches handlers mask condition index =
      if mask.getLsbD index && typeMatches condition binding.typeName then
        index :: eligibleMatches typeMatches handlers mask condition (index + 1)
      else eligibleMatches typeMatches handlers mask condition (index + 1) := by
  have inside := (List.getElem?_eq_some_iff.mp found).1
  have count : handlers.length - index = handlers.length - (index + 1) + 1 := by
    omega
  unfold eligibleMatches
  rw [count, List.range'_succ, List.filter_cons, found, Option.any_some]

theorem Extends.self {owns : Handler → Prop} : Extends owns handlers.length mask handlers mask := by
  constructor
  · intro index _
    rfl
  · intro index high binding found
    have inside := (List.getElem?_eq_some_iff.mp found).1
    exact absurd inside (Nat.not_lt_of_le high)

theorem Extends.pushBinding {owns : Handler → Prop} {mark : Nat} {entry : Mask}
    (extension : Extends owns mark entry handlers mask)
    (markLe : mark ≤ handlers.length) (room : handlers.length < 64)
    (typeName : Ty) {handler : Handler} (owned : owns handler) :
    Extends owns mark entry (handlers ++ [⟨typeName, handler, mark, entry⟩])
      (mask ||| (1#64 <<< handlers.length)) := by
  constructor
  · intro index low
    rw [getLsbD_or_bit mask room, decide_eq_false (by omega), Bool.or_false]
    exact extension.below index low
  · intro index high binding found
    rw [getLsbD_or_bit mask room]
    rw [List.getElem?_append] at found
    split at found
    · obtain ⟨active, owner⟩ := extension.above index high binding found
      exact ⟨by rw [active, Bool.true_or], owner⟩
    · rw [List.getElem?_singleton] at found
      split at found
      · cases found
        exact ⟨by rw [decide_eq_true (by omega), Bool.or_true], rfl, rfl, owned⟩
      · simp at found

theorem Extends.clear {owns : Handler → Prop} {mark : Nat} {entry band : Mask}
    (extension : Extends owns mark entry handlers mask)
    (room : handlers.length ≤ 64)
    (defined : bandMask mark handlers.length = some band) {index : Nat}
    (low : index < (handlers.take mark).length) :
    entry.getLsbD index = (mask &&& ~~~band).getLsbD index := by
  rw [List.length_take, Nat.lt_min] at low
  have small : index < 64 := by omega
  rw [BitVec.getLsbD_and, BitVec.getLsbD_not, decide_eq_true small, getLsbD_bandMask defined small,
    decide_eq_false (p := mark ≤ index ∧ index < handlers.length) (by omega),
    extension.below index low.1]
  simp

end ClAmiga.Condition
