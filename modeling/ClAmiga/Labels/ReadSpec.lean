import ClAmiga.Labels.Growth

/-!
# What one read makes

`ReadSpec` is what is kept along a read: a placeholder in a new cell belongs to a label
that is still being read and that the text refers to, and the cell is reached from the
objects read so far, so that the walk at the end of the label will find it.
-/

namespace ClAmiga.Labels

mutual

/-- The text has `#m#`. -/
def Datum.mentions (m : Nat) : Datum → Bool
  | .nil => false
  | .atom _ => false
  | .list first rest => first.mentions m || rest.mentions m
  | .vector elements => elements.mentions m
  | .struct arguments => arguments.mentions m
  | .label _ datum => datum.mentions m
  | .reference n => n = m

def Rest.mentions (m : Nat) : Rest → Bool
  | .close => false
  | .dot datum => datum.mentions m
  | .more datum rest => datum.mentions m || rest.mentions m

def Items.mentions (m : Nat) : Items → Bool
  | .none => false
  | .more datum items => datum.mentions m || items.mentions m

end

def Datum.bare : Datum → Option Nat
  | .label _ datum => datum.bare
  | .reference n => some n
  | _ => none

mutual

/-- No label's datum is only a reference to a label that is still being read, and no
structure refers to a label that was being read when it began. -/
def Datum.plain (opened : List Nat) : Datum → Bool
  | .nil => true
  | .atom _ => true
  | .list first rest => first.plain opened && rest.plain opened
  | .vector elements => elements.plain opened
  | .struct arguments => arguments.plain opened && opened.all fun m => !arguments.mentions m
  | .label n datum => datum.plain (n :: opened) && (n :: opened).all fun m => datum.bare ≠ some m
  | .reference _ => true

def Rest.plain (opened : List Nat) : Rest → Bool
  | .close => true
  | .dot datum => datum.plain opened
  | .more datum rest => datum.plain opened && rest.plain opened

def Items.plain (opened : List Nat) : Items → Bool
  | .none => true
  | .more datum items => datum.plain opened && items.plain opened

end

/-- An object is that of a label still being read which the text refers to. -/
def Owes (opened : List Nat) (state : ReadState) (mentions : Nat → Bool) (obj : Obj) : Prop :=
  ∃ m ∈ opened, state.env m = some obj ∧ mentions m = true

theorem Owes.extend {opened : List Nat} {upTo : Nat} {before after : ReadState}
    {mentions more : Nat → Bool} {obj : Obj} (ext : Extends upTo before after)
    (weaker : ∀ m, mentions m = true → more m = true)
    (owes : Owes opened before mentions obj) : Owes opened after more obj := by
  obtain ⟨m, member, value, mentioned⟩ := owes
  exact ⟨m, member, ext.labels m obj value, weaker m mentioned⟩

/-- What reading some text with certain objects as its result keeps. -/
structure ReadSpec (opened : List Nat) (upTo : Nat) (before : ReadState)
    (mentions : Nat → Bool) (roots : List Obj) (after : ReadState) : Prop where
  grows : Extends upTo before after
  good : Good opened after
  inside : ∀ b, Obj.ref b ∈ roots → b < after.heap.length
  owed : ∀ root ∈ roots, isPlaceholder after.heap root = true → Owes opened after mentions root
  held : ∀ (c : Nat) (cell : Cell) (slot : Obj), before.heap.length ≤ c →
    after.heap[c]? = some cell → slot ∈ cell.slots → isPlaceholder after.heap slot = true →
      (∃ root ∈ roots, Reach after.heap root c) ∧ Owes opened after mentions slot
  counted : ∀ m ∈ opened, mentions m = true → before.backrefs < after.backrefs

namespace ReadSpec

variable {opened : List Nat} {upTo : Nat} {before mid after : ReadState} {f g : Nat → Bool}
  {roots others : List Obj}

theorem old_slot {later : Nat} (good : Good opened mid) (ext : Extends later mid after)
    {c : Nat} {cell : Cell} {slot : Obj} (found : mid.heap[c]? = some cell)
    (member : slot ∈ cell.slots) :
    isPlaceholder after.heap slot = isPlaceholder mid.heap slot := by
  apply ext.isPlaceholder
  rintro b rfl
  exact good.slots c cell b found member

theorem root_inside (spec : ReadSpec opened upTo before f roots after) {root : Obj}
    (member : root ∈ roots) : ∀ b, root = .ref b → b < after.heap.length := by
  rintro b rfl
  exact spec.inside b member

theorem found_before {later : Nat} (ext : Extends later mid after) {c : Nat} {cell : Cell}
    (below : c < later) (inside : c < mid.heap.length) (found : after.heap[c]? = some cell) :
    mid.heap[c]? = some cell := by
  have old := List.getElem?_eq_getElem inside
  rw [old, ← ext.cells c _ below old, found]

theorem unchanged (good : Good opened after) (heap : after.heap = before.heap)
    (labels : after.labels = before.labels) (backrefs : before.backrefs ≤ after.backrefs)
    (inside : ∀ b, Obj.ref b ∈ roots → b < after.heap.length)
    (owed : ∀ root ∈ roots, isPlaceholder after.heap root = true → Owes opened after f root)
    (counted : ∀ m ∈ opened, f m = true → before.backrefs < after.backrefs) :
    ReadSpec opened upTo before f roots after where
  grows :=
    { cells := fun a cell _ found => by rwa [heap]
      gained := fun a cell found => ⟨cell, by rwa [heap], .refl cell⟩
      labels := fun n obj value => by rwa [ReadState.env, labels]
      backrefs := backrefs }
  good := good
  inside := inside
  owed := owed
  held c cell slot above found := by
    rw [heap] at found
    exact absurd (List.getElem?_eq_some_iff.mp found).1 (Nat.not_lt_of_ge above)
  counted := counted

theorem append (first : ReadSpec opened upTo before f roots mid)
    (second : ReadSpec opened mid.heap.length mid g others after)
    (order : upTo ≤ mid.heap.length) :
    ReadSpec opened upTo before (fun m => f m || g m) (roots ++ others) after where
  grows := first.grows.trans second.grows order
  good := second.good
  inside b member := by
    rcases List.mem_append.mp member with old | new
    · exact second.grows.lt_length (first.inside b old)
    · exact second.inside b new
  owed root member placeholder := by
    rcases List.mem_append.mp member with old | new
    · rw [second.grows.isPlaceholder (first.root_inside old)] at placeholder
      exact (first.owed root old placeholder).extend second.grows (by simp_all)
    · exact (second.owed root new placeholder).extend (.refl 0 after) (by simp_all)
  held c cell slot above found member placeholder := by
    by_cases old : c < mid.heap.length
    · have here := found_before second.grows old old found
      rw [old_slot first.good second.grows here member] at placeholder
      obtain ⟨⟨root, inRoots, reached⟩, owes⟩ :=
        first.held c cell slot above here member placeholder
      exact ⟨⟨root, List.mem_append_left _ inRoots, second.grows.reach reached⟩,
        owes.extend second.grows (by simp_all)⟩
    · obtain ⟨⟨root, inOthers, reached⟩, owes⟩ :=
        second.held c cell slot (Nat.le_of_not_lt old) found member placeholder
      exact ⟨⟨root, List.mem_append_right _ inOthers, reached⟩,
        owes.extend (.refl 0 after) (by simp_all)⟩
  counted m member mentioned := by
    have grown := first.grows.backrefs
    have grownLater := second.grows.backrefs
    rcases (by simpa using mentioned : f m = true ∨ g m = true) with left | right
    · exact Nat.lt_of_lt_of_le (first.counted m member left) grownLater
    · exact Nat.lt_of_le_of_lt grown (second.counted m member right)

theorem alloc (spec : ReadSpec opened upTo before f roots mid) (order : upTo ≤ mid.heap.length)
    (cell : Cell) (proper : cell.isPlaceholder = false)
    (slots : ∀ slot ∈ cell.slots, slot ∈ roots ∨ slot = .nil)
    (covers : cell.isContainer = true ∧ (∀ root ∈ roots, root ∈ cell.slots) ∨
      ∀ m ∈ opened, f m = false) :
    ReadSpec opened upTo before f [.ref mid.heap.length] (mid.alloc cell).2 := by
  have ext := Extends.alloc mid cell
  have slotsInside : ∀ b, Obj.ref b ∈ cell.slots → b < mid.heap.length := by
    intro b member
    rcases slots _ member with root | none
    · exact spec.inside b root
    · cases none
  have new := getElem?_alloc_new mid cell
  refine
    { grows := spec.grows.trans ext order
      good := spec.good.alloc slotsInside
      inside := ?_
      owed := ?_
      held := ?_
      counted := spec.counted }
  · intro b member
    obtain rfl : b = mid.heap.length := by simpa using member
    rw [length_alloc]
    exact Nat.lt_succ_self _
  · intro root member placeholder
    obtain rfl : root = .ref mid.heap.length := by simpa using member
    obtain ⟨found, here, kind⟩ := isPlaceholder_ref.mp placeholder
    obtain rfl := Option.some.inj (new.symm.trans here)
    simp [proper] at kind
  · intro c found slot above here member placeholder
    rcases getElem?_alloc_cases here with old | ⟨rfl, rfl⟩
    · rw [old_slot spec.good ext old member] at placeholder
      obtain ⟨⟨root, inRoots, reached⟩, owes⟩ := spec.held c found slot above old member placeholder
      refine ⟨⟨_, List.mem_singleton_self _, ?_⟩, owes.extend ext fun _ mentioned => mentioned⟩
      rcases covers with ⟨container, covered⟩ | silent
      · exact .of_slot new container (covered root inRoots) (ext.reach reached)
      · obtain ⟨m, opens, _, mentioned⟩ := owes
        simp [silent m opens] at mentioned
    · have root : slot ∈ roots := by
        rcases slots slot member with root | rfl
        · exact root
        · simp [isPlaceholder] at placeholder
      rw [ext.isPlaceholder (spec.root_inside root)] at placeholder
      have owes := spec.owed slot root placeholder
      refine ⟨⟨_, List.mem_singleton_self _, ?_⟩, owes.extend ext fun _ mentioned => mentioned⟩
      rcases covers with ⟨container, _⟩ | silent
      · exact .root rfl (readerPatchContainerP_ref.mpr ⟨found, new, container⟩)
      · obtain ⟨m, opens, _, mentioned⟩ := owes
        simp [silent m opens] at mentioned

theorem link (spec : ReadSpec opened upTo before f roots mid) {tail : Nat} {car obj : Obj}
    (found : mid.heap[tail]? = some (.cons car .nil)) (below : tail < before.heap.length)
    (order : tail ≤ upTo) (member : obj ∈ roots) :
    ReadSpec opened tail before f roots (mid.link tail obj) := by
  have ext := Extends.link found obj
  refine
    { grows := (spec.grows.weaken order).trans ext (Nat.le_refl _)
      good := spec.good.link found (spec.root_inside member)
      inside := fun b inRoots => ext.lt_length (spec.inside b inRoots)
      owed := ?_
      held := ?_
      counted := spec.counted }
  · intro root inRoots placeholder
    rw [ext.isPlaceholder (spec.root_inside inRoots)] at placeholder
    exact (spec.owed root inRoots placeholder).extend ext fun _ mentioned => mentioned
  · intro c cell slot above here inside placeholder
    rw [getElem?_link found obj (Nat.ne_of_gt (Nat.lt_of_lt_of_le below above))] at here
    rw [old_slot spec.good ext here inside] at placeholder
    obtain ⟨⟨root, inRoots, reached⟩, owes⟩ := spec.held c cell slot above here inside placeholder
    exact ⟨⟨root, inRoots, ext.reach reached⟩, owes.extend ext fun _ mentioned => mentioned⟩

theorem chain {last : Nat} {car cdr : Obj}
    (first : ReadSpec opened upTo before f [.ref last] mid) (order : upTo ≤ last)
    (found : mid.heap[last]? = some (.cons car .nil)) (length : mid.heap.length = last + 1)
    (second : ReadSpec opened last mid g [cdr] after)
    (tail : after.heap[last]? = some (.cons car cdr)) :
    ReadSpec opened upTo before (fun m => f m || g m) [.ref last] after where
  grows := first.grows.trans second.grows order
  good := second.good
  inside b member := second.grows.lt_length (first.inside b member)
  owed root member placeholder := by
    rw [second.grows.isPlaceholder (first.root_inside member)] at placeholder
    exact (first.owed root member placeholder).extend second.grows (by simp_all)
  held c cell slot above here member placeholder := by
    have start : Reach after.heap (.ref last) last :=
      .root rfl (readerPatchContainerP_ref.mpr ⟨_, tail, rfl⟩)
    have fromFirst : ∀ cell', mid.heap[c]? = some cell' → slot ∈ cell'.slots →
        (∃ root ∈ [Obj.ref last], Reach after.heap root c) ∧
          Owes opened after (fun m => f m || g m) slot := by
      intro cell' old inside
      rw [old_slot first.good second.grows old inside] at placeholder
      obtain ⟨⟨root, inRoots, reached⟩, owes⟩ :=
        first.held c cell' slot above old inside placeholder
      exact ⟨⟨root, inRoots, second.grows.reach reached⟩, owes.extend second.grows (by simp_all)⟩
    rcases Nat.lt_trichotomy c last with older | rfl | newer
    · exact fromFirst cell (found_before second.grows older (by omega) here) member
    · obtain rfl := Option.some.inj (tail.symm.trans here)
      rcases (by simpa [Cell.slots] using member : slot = car ∨ slot = cdr) with rfl | rfl
      · exact fromFirst _ found (by simp [Cell.slots])
      · exact ⟨⟨_, List.mem_singleton_self _, start⟩,
          (second.owed _ (List.mem_singleton_self _) placeholder).extend (.refl 0 after)
            (by simp_all)⟩
    · obtain ⟨⟨root, inRoots, reached⟩, owes⟩ :=
        second.held c cell slot (by omega) here member placeholder
      obtain rfl : root = cdr := by simpa using inRoots
      exact ⟨⟨_, List.mem_singleton_self _, .of_slot tail rfl (by simp [Cell.slots]) reached⟩,
        owes.extend (.refl 0 after) (by simp_all)⟩
  counted m member mentioned := by
    have grown := first.grows.backrefs
    have grownLater := second.grows.backrefs
    rcases (by simpa using mentioned : f m = true ∨ g m = true) with left | right
    · exact Nat.lt_of_lt_of_le (first.counted m member left) grownLater
    · exact Nat.lt_of_le_of_lt grown (second.counted m member right)

end ReadSpec

end ClAmiga.Labels
