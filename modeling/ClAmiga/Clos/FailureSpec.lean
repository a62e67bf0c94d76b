import ClAmiga.Clos.Failure
import ClAmiga.Clos.Consistency

/-!
# What a failed definition leaves behind

A definition of a new name is atomic.  A redefinition has unlinked the class and
replaced its direct superclasses before a merge can fail; the rest of the graph is
as it was, but for the subclasses finalized before the failure.
-/

namespace ClAmiga.Clos.Registry

open ClAmiga.Signals

variable {registry after : Registry}

/-- The registries that bootstrap classes and definitions lead to; a program may
handle the error of a definition and go on. -/
inductive Reachable : Registry → Prop
  | empty : Reachable Registry.empty
  | bootstrap {registry after : Registry} {name : Name} {supers : List Id}
      (reachable : Reachable registry)
      (makes : registry.makeBootstrapClass name supers = some after) : Reachable after
  | defined {registry after : Registry} {definition : Definition}
      (reachable : Reachable registry)
      (returns : registry.ensureClassRun definition = .ok after) : Reachable after
  | failed {registry after : Registry} {definition : Definition}
      (reachable : Reachable registry)
      (signals : registry.ensureClassRun definition = .error (.signalled after)) :
      Reachable after

/-- The class table holds allocated metaobjects. -/
def Inside (registry : Registry) : Prop :=
  ∀ id, registry.Registered id → id < registry.count

/-- The same class table and, for every class, the same direct superclasses, direct
subclasses, precedence list and finalized flag. -/
structure SameGraph (registry after : Registry) : Prop where
  findClass : after.findClass = registry.findClass
  supers : ∀ id < registry.count, after.supers id = registry.supers id
  subs : ∀ id < registry.count, after.subs id = registry.subs id
  cpl : ∀ id < registry.count, (after.object id).cpl = (registry.object id).cpl
  finalizedP : ∀ id < registry.count,
    (after.object id).finalizedP = (registry.object id).finalizedP

/-- Only the classes of `nodes` are finalized again. -/
def Confined (nodes : Id → Prop) (registry after : Registry) : Prop :=
  SameFrame registry after ∧
    ∀ other, ¬ nodes other → after.object other = registry.object other

theorem Confined.refl (nodes : Id → Prop) (registry : Registry) :
    Confined nodes registry registry :=
  ⟨.refl registry, fun _ _ => rfl⟩

variable {nodes : Id → Prop} {definition : Definition}

theorem Confined.trans {first second third : Registry}
    (early : Confined nodes first second) (late : Confined nodes second third) :
    Confined nodes first third :=
  ⟨early.1.trans late.1, fun other outside =>
    (late.2 other outside).trans (early.2 other outside)⟩

theorem unfinalizeClass_confined {id : Id} (inside : nodes id) :
    Confined nodes registry (registry.unfinalizeClass id) := by
  refine ⟨registry.unfinalizeClass_sameFrame id, fun other outside => ?_⟩
  refine modify_object_other _ _ ?_
  rintro rfl
  exact outside inside

theorem finalizeInheritance_confined {id : Id} (inside : nodes id)
    (finalizes : registry.finalizeInheritance id = some after) :
    Confined nodes registry after ∧ ((registry.object id).finalizedP = false →
        registry.computeClassPrecedenceList id ≠ none) := by
  unfold finalizeInheritance at finalizes
  split at finalizes
  next done =>
    cases finalizes
    exact ⟨.refl nodes registry, fun flag => absurd (done.symm.trans flag) (by decide)⟩
  · simp only [Option.bind_eq_bind, Option.bind_eq_some_iff, Option.some.injEq] at finalizes
    obtain ⟨cpl, computed, rfl⟩ := finalizes
    refine ⟨⟨⟨rfl, rfl, fun other => ?_⟩, fun other outside => ?_⟩, fun _ => by simp [computed]⟩
    · by_cases same : other = id
      · subst same
        rw [modify_object_self]
        rfl
      · rw [modify_object_other _ _ same]
    · refine modify_object_other _ _ ?_
      rintro rfl
      exact outside inside

/-- An error leaves the registry as it was, with the class not finalized and
without a precedence list. -/
theorem finalizeInheritanceRun_ends {id : Id} (inside : nodes id) :
    Ends (registry.finalizeInheritanceRun id)
      (fun after => Confined nodes registry after ∧
        ((registry.object id).finalizedP = false → registry.computeClassPrecedenceList id ≠ none))
      (fun after => after = registry ∧ (registry.object id).finalizedP = false ∧
        registry.computeClassPrecedenceList id = none) := by
  unfold finalizeInheritanceRun
  cases finalizes : registry.finalizeInheritance id with
  | some after => exact finalizeInheritance_confined inside finalizes
  | none =>
      unfold finalizeInheritance at finalizes
      split at finalizes
      · cases finalizes
      next open_ =>
        refine ⟨rfl, by simpa using open_, ?_⟩
        cases computed : registry.computeClassPrecedenceList id with
        | none => rfl
        | some cpl =>
            rw [computed] at finalizes
            cases finalizes

/-- `sub` is a subclass of `id`, at any depth. -/
def Below (registry : Registry) (id sub : Id) : Prop :=
  Relation.TransGen (fun super sub => sub ∈ registry.subs super) id sub

/-- A closed set of classes that are finalized again stays the only one touched, and
an error leaves one of them unfinalized. -/
theorem refinalizeSubclassRun_ends (fuel : Nat)
    (state : Registry × List Id) {sub : Id} (inside : nodes sub)
    (closed : ∀ super, nodes super → ∀ sub ∈ state.1.subs super, nodes sub) :
    Ends (refinalizeSubclassRun fuel state sub)
      (fun after => Confined nodes state.1 after.1)
      (fun after => Confined nodes state.1 after ∧
        ∃ failed, nodes failed ∧ (after.object failed).finalizedP = false) := by
  induction fuel generalizing state sub with
  | zero => exact trivial
  | succ fuel induction =>
      obtain ⟨registry, visited⟩ := state
      unfold refinalizeSubclassRun
      split
      · exact .refl nodes registry
      · have unfinalized := @unfinalizeClass_confined registry nodes sub inside
        have finalization : Ends ((registry.unfinalizeClass sub).finalizeInheritanceRun sub)
            (Confined nodes registry)
            (fun after => Confined nodes registry after ∧
              ∃ failed, nodes failed ∧ (after.object failed).finalizedP = false) := by
          refine (finalizeInheritanceRun_ends inside).imp
            (fun after confined => unfinalized.trans confined.1) ?_
          rintro _ ⟨rfl, flag, _⟩
          exact ⟨unfinalized, sub, inside, flag⟩
        refine finalization.bind fun next kept => ?_
        refine @ends_foldlM _ _ _ _ _
          (fun state : Registry × List Id => Confined nodes registry state.1) _
          (fun state confined node member => ?_) _ kept
        have nodeInside : nodes node := by
          refine closed sub inside node ?_
          rw [← kept.1.subs]
          exact member
        have subsKept := confined.1.subs
        refine (induction state nodeInside (by rw [subsKept]; exact closed)).imp
          (fun after later => confined.trans later)
          (fun after later => ⟨confined.trans later.1, later.2⟩)

theorem refinalizeSubclassesRun_ends (registry : Registry) (id : Id) :
    Ends (registry.refinalizeSubclassesRun id) (Confined (registry.Below id) registry)
      (fun after => Confined (registry.Below id) registry after ∧
        ∃ failed, registry.Below id failed ∧ (after.object failed).finalizedP = false) := by
  have closed : ∀ super, registry.Below id super → ∀ sub ∈ registry.subs super,
      registry.Below id sub := fun _ below _ member => .tail below member
  have loop : Ends ((registry.object id).directSubclasses.foldlM
      (refinalizeSubclassRun (registry.count + 1)) (registry, []))
      (fun state => Confined (registry.Below id) registry state.1)
      (fun after => Confined (registry.Below id) registry after ∧
        ∃ failed, registry.Below id failed ∧ (after.object failed).finalizedP = false) := by
    refine ends_foldlM (fun state confined node member => ?_) (.refl _ registry)
    refine (refinalizeSubclassRun_ends _ state (Relation.TransGen.single member)
      (by rw [confined.1.subs]; exact closed)).imp
        (fun after later => confined.trans later)
        (fun after later => ⟨confined.trans later.1, later.2⟩)
  refine loop.bind fun state confined => ?_
  obtain ⟨after, visited⟩ := state
  exact confined

/-- What holds of a registry in which `id` is finalized, registered and linked, but
no subclass is finalized again. -/
structure Placed (started : Registry) (id : Id) (name : Name) (supers : List Id)
    (placed : Registry) : Prop where
  findClass : placed.findClass = Function.update started.findClass name (some id)
  count : placed.count = started.count
  superclasses : placed.supers = started.supers
  mem_subs : ∀ super sub, sub ∈ placed.subs super ↔
    sub ∈ started.subs super ∨ (sub = id ∧ super ∈ supers)
  cpl : ∀ other, other ≠ id → (placed.object other).cpl = (started.object other).cpl
  finalizedP : ∀ other, other ≠ id →
    (placed.object other).finalizedP = (started.object other).finalizedP

theorem placed_of_finalized {started finalized : Registry} {id : Id} (name : Name)
    (supers : List Id) (confined : Confined (· = id) started finalized) :
    Placed started id name supers
      (supers.foldl (linkSubclass id) (finalized.setFindClass name id)) := by
  obtain ⟨frame, others⟩ := confined
  have links := foldl_linkSubclass_sameButLinks id supers (finalized.setFindClass name id)
  have kept {Field : Type} (field : Metaobject → Field) (unlinked : ∀ metaobject : Metaobject,
        field { metaobject with directSubclasses := [] } = field metaobject) (other : Id) :
      field ((supers.foldl (linkSubclass id) (finalized.setFindClass name id)).object other) =
        field (finalized.object other) := links.field field unlinked other
  refine ⟨?_, links.count.trans frame.count, ?_, fun super sub => ?_, fun other apart => ?_,
    fun other apart => ?_⟩
  · rw [links.findClass, setFindClass, frame.findClass]
  · rw [← frame.supers]
    funext other
    exact kept Metaobject.directSuperclasses (fun _ => rfl) other
  · rw [mem_foldl_linkSubclass, ← frame.subs]
    exact Iff.rfl
  · rw [kept Metaobject.cpl (fun _ => rfl), others other apart]
  · rw [kept Metaobject.finalizedP (fun _ => rfl), others other apart]

theorem finalizeAndRegisterClassRun_ends {started : Registry} {id : Id}
    (unfinalized : (started.object id).finalizedP = false) (name : Name)
    (supers : List Id) :
    Ends (started.finalizeAndRegisterClassRun id name supers)
      (fun after => after.count = started.count ∧
        after.findClass = Function.update started.findClass name (some id))
      (fun after =>
        (after = started ∧ started.computeClassPrecedenceList id = none) ∨
        started.computeClassPrecedenceList id ≠ none ∧
        ∃ placed, Placed started id name supers placed ∧ Confined (placed.Below id) placed after ∧
          ∃ failed, placed.Below id failed ∧ (after.object failed).finalizedP = false) := by
  unfold finalizeAndRegisterClassRun
  have finalization := @finalizeInheritanceRun_ends started (· = id) id rfl
  refine (finalization.imp (fun _ returned => returned)
    fun _ signalled => Or.inl ⟨signalled.1, signalled.2.2⟩).bind fun finalized returned => ?_
  have placed := placed_of_finalized name supers returned.1
  refine (refinalizeSubclassesRun_ends _ id).imp (fun after later => ?_)
    fun after later => Or.inr ⟨returned.2 unfinalized, _, placed, later⟩
  exact ⟨later.1.count.trans placed.count, later.1.findClass.trans placed.findClass⟩

/-- The registry in which a definition starts to finalize its class. -/
structure Started (registry : Registry) (definition : Definition) (supers : List Id)
    (id : Id) (started : Registry) : Prop where
  findClass : started.findClass = registry.findClass
  count : registry.count ≤ started.count
  place : (registry.findClass definition.name = some id ∧ started.count = registry.count) ∨
    (id = registry.count ∧ started.count = registry.count + 1)
  unfinalized : (started.object id).finalizedP = false
  superclasses : started.supers id = supers
  supers : ∀ other, other ≠ id → started.supers other = registry.supers other
  finalizedP : ∀ other, other ≠ id →
    (started.object other).finalizedP = (registry.object other).finalizedP
  cpl : ∀ other, other ≠ registry.count →
    (started.object other).cpl = (registry.object other).cpl
  subs : ∀ super, super ≠ registry.count →
    started.subs super = (registry.unlinkOld definition.name).subs super
  noSubs : id = registry.count → started.subs id = []

/-- What a definition has stored before it computes a precedence list. -/
theorem startDefinition_spec (inside : registry.Inside) (definition : Definition)
    (supers : List Id) :
    Started registry definition supers (registry.startDefinition definition supers).1
      (registry.startDefinition definition supers).2 := by
  obtain ⟨links, _⟩ := registry.unlinkOld_spec definition.name
  have kept {Field : Type} (field : Metaobject → Field) (unlinked : ∀ metaobject : Metaobject,
        field { metaobject with directSubclasses := [] } = field metaobject) (other : Id) :
      field ((registry.unlinkOld definition.name).object other) =
        field (registry.object other) := links.field field unlinked other
  unfold startDefinition
  cases reuse : registry.reusable definition with
  | some id =>
      dsimp only
      obtain ⟨found, _⟩ := Option.filter_eq_some_iff.mp reuse
      have old : id < registry.count := inside id ⟨_, found⟩
      refine
        { findClass := links.findClass
          count := Nat.le_of_eq links.count.symm
          place := Or.inl ⟨found, links.count⟩
          unfinalized := by rw [modify_object_self]
          superclasses := by rw [Registry.supers, modify_object_self]
          supers := fun other apart => ?_
          finalizedP := fun other apart => ?_
          cpl := fun other _ => ?_
          subs := fun super _ => ?_
          noSubs := fun same => absurd same (Nat.ne_of_lt old) }
      · rw [Registry.supers, modify_object_other _ _ apart]
        exact kept Metaobject.directSuperclasses (fun _ => rfl) other
      · rw [modify_object_other _ _ apart]
        exact kept Metaobject.finalizedP (fun _ => rfl) other
      · by_cases same : other = id
        · subst same
          rw [modify_object_self]
          exact kept Metaobject.cpl (fun _ => rfl) other
        · rw [modify_object_other _ _ same]
          exact kept Metaobject.cpl (fun _ => rfl) other
      · rw [modify_subs]
        exact fun _ => rfl
  | none =>
      dsimp only
      rw [← links.count]
      refine
        { findClass := links.findClass
          count := Nat.le_trans (Nat.le_of_eq links.count.symm) (Nat.le_succ _)
          place := Or.inr ⟨links.count, congrArg (· + 1) links.count⟩
          unfinalized := by rw [allocate_object_self]
          superclasses := by rw [Registry.supers, allocate_object_self]
          supers := fun other apart => ?_
          finalizedP := fun other apart => ?_
          cpl := fun other apart => ?_
          subs := fun super apart => ?_
          noSubs := fun _ => by rw [Registry.subs, allocate_object_self] }
      · rw [Registry.supers, allocate_object_other _ _ apart]
        exact kept Metaobject.directSuperclasses (fun _ => rfl) other
      · rw [allocate_object_other _ _ apart]
        exact kept Metaobject.finalizedP (fun _ => rfl) other
      · rw [allocate_object_other _ _ (links.count ▸ apart)]
        exact kept Metaobject.cpl (fun _ => rfl) other
      · rw [Registry.subs, allocate_object_other _ _ (links.count ▸ apart)]
        rfl

theorem defineRun_ends {supers : List Id}
    (start : Started registry definition supers (registry.startDefinition definition supers).1
      (registry.startDefinition definition supers).2) :
    let id := (registry.startDefinition definition supers).1
    let started := (registry.startDefinition definition supers).2
    Ends (registry.defineRun definition supers)
      (fun after => after.count = started.count ∧
        after.findClass = Function.update started.findClass definition.name (some id))
      (fun after =>
        (after = started ∧ started.computeClassPrecedenceList id = none) ∨
        started.computeClassPrecedenceList id ≠ none ∧
        ∃ placed, Placed started id definition.name supers placed ∧
          Confined (placed.Below id) placed after ∧
          ∃ failed, placed.Below id failed ∧ (after.object failed).finalizedP = false) :=
  finalizeAndRegisterClassRun_ends start.unfinalized definition.name supers

/-- A redefinition of a class by `definition` that a merge stops: `id` is the class
and `started` the registry in which its own merge is tried. -/
structure FailedMerge (registry : Registry) (definition : Definition) (id : Id)
    (started after : Registry) : Prop where
  supers : ∀ other < registry.count, other ≠ id → after.supers other = registry.supers other
  mem_subs : ∀ super < registry.count, ∀ sub, sub ≠ id →
    registry.findClass definition.name ≠ some sub →
      (sub ∈ after.subs super ↔ sub ∈ registry.subs super)
  own : started.computeClassPrecedenceList id = none →
    after.findClass = registry.findClass ∧
    (after.object id).finalizedP = false ∧
    ∀ other < registry.count,
      (after.object other).cpl = (registry.object other).cpl ∧
      (other ≠ id → (after.object other).finalizedP = (registry.object other).finalizedP)
  subclass : started.computeClassPrecedenceList id ≠ none →
    after.findClass = Function.update registry.findClass definition.name (some id) ∧
    (∃ failed, after.Below id failed ∧ (after.object failed).finalizedP = false) ∧
    ∀ other < registry.count, other ≠ id → ¬ after.Below id other →
      (after.object other).cpl = (registry.object other).cpl ∧
      (after.object other).finalizedP = (registry.object other).finalizedP

theorem Confined.below (confined : Confined nodes registry after) (id : Id) :
    after.Below id = registry.Below id := by
  unfold Below
  rw [confined.1.subs]

theorem defineRun_failedMerge (inside : registry.Inside) {supers : List Id}
    (failed : registry.defineRun definition supers = .error (.signalled after)) :
    FailedMerge registry definition (registry.startDefinition definition supers).1
      (registry.startDefinition definition supers).2 after := by
  have started := startDefinition_spec inside definition supers
  have ends := defineRun_ends started
  rw [failed] at ends
  dsimp only at ends
  generalize (registry.startDefinition definition supers).1 = id at started ends ⊢
  generalize (registry.startDefinition definition supers).2 = start at started ends ⊢
  obtain ⟨_, mem_unlinked, _⟩ := registry.unlinkOld_spec definition.name
  have mem_start : ∀ super < registry.count, ∀ sub, registry.findClass definition.name ≠ some sub →
        (sub ∈ start.subs super ↔ sub ∈ registry.subs super) := by
    intro super old sub other
    rw [started.subs super (Nat.ne_of_lt old), mem_unlinked]
    exact and_iff_left fun both => other both.1
  rcases ends with ⟨rfl, computed⟩ | ⟨computed, placed, place, confined, unfinished⟩
  · exact
      { supers := fun other _ apart => started.supers other apart
        mem_subs := fun super old sub _ other => mem_start super old sub other
        own := fun _ => ⟨started.findClass, started.unfinalized, fun other old =>
          ⟨started.cpl other (Nat.ne_of_lt old), started.finalizedP other⟩⟩
        subclass := fun computes => absurd computed computes }
  · refine
      { supers := fun other _ apart => ?_
        mem_subs := fun super old sub apart other => ?_
        own := fun fails => absurd fails computed
        subclass := fun _ => ⟨?_, ?_, fun other old apart outside => ?_⟩ }
    · rw [confined.1.supers, place.superclasses]
      exact started.supers other apart
    · rw [confined.1.subs, place.mem_subs, ← mem_start super old sub other]
      exact or_iff_left fun both => apart both.1
    · rw [confined.1.findClass, place.findClass, started.findClass]
    · rw [confined.below]
      exact unfinished
    · rw [confined.below] at outside
      rw [confined.2 other outside, place.cpl other apart, place.finalizedP other apart]
      exact ⟨started.cpl other (Nat.ne_of_lt old), started.finalizedP other apart⟩

theorem defineRun_fresh (inside : registry.Inside)
    {supers : List Id} (resolved : registry.supersOf definition = some supers)
    (fresh : registry.findClass definition.name = none)
    (failed : registry.defineRun definition supers = .error (.signalled after)) :
    SameGraph registry after := by
  have started := startDefinition_spec inside definition supers
  have ends := defineRun_ends started
  rw [failed] at ends
  dsimp only at ends
  generalize (registry.startDefinition definition supers).1 = id at started ends
  generalize (registry.startDefinition definition supers).2 = start at started ends
  have new : id = registry.count := by
    rcases started.place with ⟨found, _⟩ | ⟨new, _⟩
    · rw [fresh] at found
      cases found
    · exact new
  rcases ends with ⟨rfl, _⟩ | ⟨_, placed, place, _, failed, below, _⟩
  · have apart {other : Id} (old : other < registry.count) : other ≠ id :=
      new ▸ Nat.ne_of_lt old
    refine
      { findClass := started.findClass
        supers := fun other old => started.supers other (apart old)
        subs := fun super old => ?_
        cpl := fun other old => started.cpl other (Nat.ne_of_lt old)
        finalizedP := fun other old => started.finalizedP other (apart old) }
    rw [started.subs super (Nat.ne_of_lt old), unlinkOld, fresh]
  · -- The new class has no subclasses, so no merge below it can fail.
    exfalso
    obtain ⟨sub, direct, _⟩ := Relation.TransGen.head'_iff.mp below
    rcases (place.mem_subs id sub).mp direct with old | ⟨_, selfSuper⟩
    · rw [started.noSubs new] at old
      cases old
    · exact absurd new (Nat.ne_of_lt (inside id (supersOf_registered resolved id selfSuper)))

theorem Inside.of_findClass (inside : registry.Inside) (name : Name) {id : Id}
    (count : registry.count ≤ after.count) (idInside : id < after.count)
    (findClass : after.findClass = registry.findClass ∨
      after.findClass = Function.update registry.findClass name (some id)) :
    after.Inside := by
  rintro other ⟨otherName, found⟩
  have old : registry.findClass otherName = some other → other < after.count :=
    fun found => Nat.lt_of_lt_of_le (inside other ⟨_, found⟩) count
  rcases findClass with same | updated
  · exact old (same ▸ found)
  · rw [updated] at found
    by_cases here : otherName = name
    · subst here
      rw [Function.update_self, Option.some.injEq] at found
      exact found ▸ idInside
    · rw [Function.update_of_ne here] at found
      exact old found

theorem defineRun_inside (inside : registry.Inside) (definition : Definition) (supers : List Id) :
    Ends (registry.defineRun definition supers) Inside Inside := by
  have started := startDefinition_spec inside definition supers
  have ends := defineRun_ends started
  dsimp only at ends
  generalize (registry.startDefinition definition supers).1 = id at started ends
  generalize (registry.startDefinition definition supers).2 = start at started ends
  have idInside : id < start.count := by
    rcases started.place with ⟨found, _⟩ | ⟨rfl, count⟩
    · exact Nat.lt_of_lt_of_le (inside id ⟨_, found⟩) started.count
    · rw [count]
      exact Nat.lt_succ_self _
  have startInside : start.Inside :=
    inside.of_findClass definition.name started.count idInside (Or.inl started.findClass)
  refine ends.imp (fun after returned => ?_) fun after signalled => ?_
  · exact startInside.of_findClass definition.name (Nat.le_of_eq returned.1.symm)
      (returned.1 ▸ idInside)
      (Or.inr returned.2)
  · rcases signalled with ⟨rfl, _⟩ | ⟨_, placed, place, confined, _⟩
    · exact startInside
    · have count := confined.1.count.trans place.count
      exact startInside.of_findClass definition.name (Nat.le_of_eq count.symm) (count ▸ idInside)
        (Or.inr (confined.1.findClass.trans place.findClass))

theorem ensureClassRun_inside (inside : registry.Inside) (definition : Definition) :
    Ends (registry.ensureClassRun definition) Inside Inside := by
  unfold ensureClassRun
  split
  · cases registry.supersOf definition with
    | none => exact inside
    | some supers => exact defineRun_inside inside definition supers
  · split
    · exact inside
    · cases registry.supersOf definition with
      | some supers => exact defineRun_inside inside definition supers
      | none =>
          obtain ⟨links, _⟩ := registry.unlinkOld_spec definition.name
          have unlinked : (registry.unlinkOld definition.name).Inside := by
            rintro id ⟨name, found⟩
            rw [links.count]
            exact inside id ⟨name, links.findClass ▸ found⟩
          cases registry.reusable definition with
          | some _ => exact unlinked
          | none => exact fun id registered => Nat.lt_succ_of_lt (unlinked id registered)

theorem Reachable.inside (reachable : Reachable registry) : registry.Inside := by
  induction reachable with
  | empty =>
      rintro id ⟨_, found⟩
      cases found
  | @bootstrap registry after name supers _ makes inside =>
      simp only [makeBootstrapClass, Option.bind_eq_bind, Option.bind_eq_some_iff,
        Option.some.injEq] at makes
      obtain ⟨cpl, _, rfl⟩ := makes
      have links := foldl_pushSubclass_sameButLinks registry.count supers (((registry.allocate
          { name := name, directSuperclasses := supers, finalizedP := true }).setFindClass
            name registry.count).modify registry.count fun metaobject =>
              { metaobject with cpl := cpl })
      have count := Nat.le_of_eq links.count.symm
      exact inside.of_findClass name (Nat.le_trans (Nat.le_succ _) count)
        (Nat.lt_of_lt_of_le (Nat.lt_succ_self _) count) (Or.inr links.findClass)
  | @defined registry after definition _ returns inside =>
      have ends := ensureClassRun_inside inside definition
      rw [returns] at ends
      exact ends
  | @failed registry after definition _ signals inside =>
      have ends := ensureClassRun_inside inside definition
      rw [signals] at ends
      exact ends

/-- The definitions that fail before anything is stored: a superclass is unknown to
the path of `STANDARD-CLASS`, or the metaclass is unknown. -/
def FailsEarly (registry : Registry) (definition : Definition) : Prop :=
  if definition.metaclass = "STANDARD-CLASS" then registry.supersOf definition = none
  else registry.findClass definition.metaclass = none

theorem SameGraph.refl (registry : Registry) : SameGraph registry registry :=
  ⟨rfl, fun _ _ => rfl, fun _ _ => rfl, fun _ _ => rfl, fun _ _ => rfl⟩

theorem ensureClassRun_of_failsEarly (early : registry.FailsEarly definition) :
    registry.ensureClassRun definition = .error (.signalled registry) := by
  unfold FailsEarly at early
  unfold ensureClassRun
  split at early
  next standard => rw [if_pos standard, early]
  next other => rw [if_neg other, if_pos early]

theorem ensureClassRun_of_resolved {supers : List Id} (late : ¬ registry.FailsEarly definition)
    (resolved : registry.supersOf definition = some supers) :
    registry.ensureClassRun definition = registry.defineRun definition supers := by
  unfold FailsEarly at late
  unfold ensureClassRun
  split at late
  next standard => rw [if_pos standard, resolved]
  next other => rw [if_neg other, if_neg late, resolved]

theorem ensureClassRun_fresh (inside : registry.Inside)
    (fresh : registry.findClass definition.name = none)
    (failed : registry.ensureClassRun definition = .error (.signalled after)) :
    SameGraph registry after := by
  by_cases early : registry.FailsEarly definition
  · rw [ensureClassRun_of_failsEarly early] at failed
    cases failed
    exact .refl registry
  · cases resolved : registry.supersOf definition with
    | some supers =>
        rw [ensureClassRun_of_resolved early resolved] at failed
        exact defineRun_fresh inside resolved fresh failed
    | none =>
        have reusable : registry.reusable definition = none := by
          rw [reusable, fresh]
          rfl
        unfold FailsEarly at early
        unfold ensureClassRun at failed
        rw [resolved] at failed early
        split at early
        · exact absurd rfl early
        next other =>
          rw [if_neg other, if_neg early] at failed
          simp only [reusable, unlinkOld, fresh, Except.error.injEq, Stop.signalled.injEq]
            at failed
          subst failed
          have apart {id : Id} (old : id < registry.count) :
              (registry.allocate { structType := definition.metaclass }).object id =
                registry.object id := allocate_object_other _ _ (Nat.ne_of_lt old)
          exact
            { findClass := rfl
              supers := fun id old => congrArg Metaobject.directSuperclasses (apart old)
              subs := fun id old => congrArg Metaobject.directSubclasses (apart old)
              cpl := fun id old => congrArg Metaobject.cpl (apart old)
              finalizedP := fun id old => congrArg Metaobject.finalizedP (apart old) }

/-- A failed definition is atomic unless it redefines a class; a redefinition that a
merge stops leaves the graph as `FailedMerge` says. -/
theorem failed_definition (reachable : Reachable registry) {definition : Definition}
    (failed : registry.ensureClassRun definition = .error (.signalled after)) :
    (registry.findClass definition.name = none ∨ registry.FailsEarly definition →
      SameGraph registry after) ∧
    ∀ supers, registry.supersOf definition = some supers → ¬ registry.FailsEarly definition →
      FailedMerge registry definition (registry.startDefinition definition supers).1
        (registry.startDefinition definition supers).2 after := by
  constructor
  · rintro (fresh | early)
    · exact ensureClassRun_fresh reachable.inside fresh failed
    · rw [ensureClassRun_of_failsEarly early] at failed
      cases failed
      exact .refl registry
  · intro supers resolved late
    rw [ensureClassRun_of_resolved late resolved] at failed
    exact defineRun_failedMerge reachable.inside failed

/-- The first bootstrap classes, `X`, and `A` below it. -/
def twoClasses : Option Registry := do
  let registry ← [("T", []), ("STANDARD-OBJECT", [0]), ("CLASS", [1]),
    ("STANDARD-CLASS", [2])].foldlM
      (fun registry (entry : Name × List Id) =>
        registry.makeBootstrapClass entry.1 entry.2) Registry.empty
  [{ name := "X" }, { name := "A", directSuperNames := ["X"] }].foldlM
    (fun registry (definition : Definition) =>
      (registry.ensureClassRun definition).toOption) registry

/-- `STANDARD-OBJECT` before `X`, which is below it. -/
def crossed : Definition :=
  { name := "A", directSuperNames := ["STANDARD-OBJECT", "X"] }

def leftBehind (run : Run Registry) : Option Registry :=
  match run with
  | .error (.signalled after) => some after
  | _ => none

theorem leftBehind_eq_some {run : Run Registry} (left : leftBehind run = some after) :
    run = .error (.signalled after) := by
  unfold leftBehind at left
  split at left
  · rw [Option.some.injEq] at left
    rw [left]
  · cases left

theorem Reachable.foldlM {Item : Type} {step : Registry → Item → Option Registry}
    (each : ∀ {registry after : Registry} {item : Item}, Reachable registry →
      step registry item = some after → Reachable after)
    {items : List Item} (reachable : Reachable registry)
    (run : items.foldlM step registry = some after) : Reachable after := by
  induction items generalizing registry with
  | nil =>
      cases run
      exact reachable
  | cons item later induction =>
      rw [List.foldlM_cons, Option.bind_eq_bind, Option.bind_eq_some_iff] at run
      obtain ⟨middle, first, rest⟩ := run
      exact induction (each reachable first) rest

theorem reachable_twoClasses (run : twoClasses = some registry) : Reachable registry := by
  unfold twoClasses at run
  rw [Option.bind_eq_bind, Option.bind_eq_some_iff] at run
  obtain ⟨bootstrapped, bootstraps, defines⟩ := run
  refine Reachable.foldlM (fun {registry after definition} reachable returns => ?_)
    (Reachable.foldlM (fun reachable makes => .bootstrap reachable makes) .empty bootstraps)
    defines
  cases run : registry.ensureClassRun definition with
  | error stop =>
      rw [run] at returns
      cases returns
  | ok returned =>
      rw [run] at returns
      exact .defined reachable (run.trans (congrArg Except.ok (Option.some.inj returns)))

theorem crossed_fails : ∃ registry after, twoClasses = some registry ∧
    registry.ensureClassRun crossed = .error (.signalled after) := by
  obtain ⟨registry, run⟩ := Option.isSome_iff_exists.mp
    (show twoClasses.isSome = true by decide +kernel)
  have left := view_eq (fun registry => (leftBehind (registry.ensureClassRun crossed)).isSome)
    true run (by decide +kernel)
  obtain ⟨after, left⟩ := Option.isSome_iff_exists.mp left
  exact ⟨registry, after, run, leftBehind_eq_some left⟩

/-- What the failed redefinition leaves of the other classes. -/
theorem failed_definition_crossed : ∃ registry after, Reachable registry ∧
    registry.ensureClassRun crossed = .error (.signalled after) ∧
    FailedMerge registry crossed (registry.startDefinition crossed [1, 4]).1
      (registry.startDefinition crossed [1, 4]).2 after := by
  obtain ⟨registry, after, run, failed⟩ := crossed_fails
  have reachable := reachable_twoClasses run
  have resolved := view_eq (fun registry => registry.supersOf crossed) (some [1, 4]) run
    (by decide +kernel)
  refine ⟨registry, after, reachable, failed,
    (failed_definition reachable failed).2 [1, 4] resolved ?_⟩
  intro early
  have standard : crossed.metaclass = "STANDARD-CLASS" := rfl
  rw [FailsEarly, if_pos standard] at early
  rw [show registry.supersOf crossed = _ from resolved] at early
  cases early

/-- `A` is taken off the direct subclasses of `X` and not linked again. -/
theorem crossed_not_atomic : ∃ registry after, Reachable registry ∧
    registry.ensureClassRun crossed = .error (.signalled after) ∧
    registry.subs 4 = [5] ∧ after.subs 4 = [] ∧ ¬ SameGraph registry after := by
  obtain ⟨registry, after, run, failed⟩ := crossed_fails
  have before := view_eq (fun registry => registry.subs 4) [5] run (by decide +kernel)
  have count := view_eq Registry.count 6 run (by decide +kernel)
  have left := view_eq
    (fun registry => (leftBehind (registry.ensureClassRun crossed)).map (Registry.subs · 4))
    (some []) run (by decide +kernel)
  rw [failed] at left
  have gone : after.subs 4 = [] := Option.some.inj left
  refine ⟨registry, after, reachable_twoClasses run, failed, before, gone, fun same => ?_⟩
  have kept := same.subs 4 (by rw [count]; decide)
  rw [gone, show registry.subs 4 = [5] from before] at kept
  cases kept

end ClAmiga.Clos.Registry
