import ClAmiga.Arrays.Heap
import Mathlib.Tactic.Ring

/-!
# Every access stays inside the storage

`Valid` is the invariant of a heap of arrays: fill pointers and dimensions fit the
length, a displaced array lies inside its target, and no chain of displacements
closes.  Making an array, moving a fill pointer and displacing a vector in place to
fresh storage keep it, when the fill pointers and offsets that are asked for fit and
no array is cut below a view of it.
-/

namespace ClAmiga.Arrays

/-- A fill pointer, where there is one, is at most the length. -/
def FillFits (fillPtr length : Nat) : Prop :=
  fillPtr = noFillPointer ∨ fillPtr ≤ length

structure Arr.Shaped (a : Arr) : Prop where
  fill : FillFits a.fillPointer a.length
  dims : a.dimensions.prod = a.length
  short : a.length ≤ arrayDimensionLimit
  stored : a.displaced = none → a.length ≤ a.slots

def Inside (a target : Arr) (offset : Nat) : Prop :=
  a.length = 0 ∨ offset + a.length ≤ target.length

structure Valid (h : Heap) : Prop where
  shaped : ∀ (id : Nat) (a : Arr), h[id]? = some a → a.Shaped
  inside : ∀ (id : Nat) (a : Arr) (target offset : Nat), h[id]? = some a →
    a.displaced = some (target, offset) →
    ∃ t, h[target]? = some t ∧ Inside a t offset
  /-- displacements lead downwards -/
  acyclic : ∃ depth : Nat → Nat, ∀ (id : Nat) (a : Arr) (target offset : Nat),
    h[id]? = some a → a.displaced = some (target, offset) → depth target < depth id

theorem valid_nil : Valid [] :=
  ⟨by simp, by simp, fun _ => 0, by simp⟩

def Resolves (h : Heap) (id i : Nat) : Prop :=
  ∃ fuel base offset backing, vectorData h fuel id = some (base, offset) ∧
    h[base]? = some backing ∧ offset + i < backing.length ∧ backing.length ≤ backing.slots

variable {id : Nat} {h h' : Heap}

theorem Valid.resolves {h : Heap} (valid : Valid h) {a : Arr}
    (here : h[id]? = some a) {i : Nat} (below : i < a.length) : Resolves h id i := by
  obtain ⟨depth, down⟩ := valid.acyclic
  induction n : depth id using Nat.strong_induction_on generalizing id a i with
  | _ n induction =>
      cases displaced : a.displaced with
      | none =>
          refine ⟨1, id, 0, a, ?_, here, by omega, (valid.shaped id a here).stored displaced⟩
          simp only [vectorData, here, displaced]
      | some view =>
          obtain ⟨target, offset⟩ := view
          obtain ⟨t, there, inside⟩ := valid.inside id a target offset here displaced
          have within : offset + i < t.length := by
            rcases inside with empty | fits
            · omega
            · omega
          obtain ⟨fuel, base, rest, backing, found, holds, room, stored⟩ :=
            induction (depth target) (n ▸ down id a target offset here displaced) there within rfl
          have short := (valid.shaped base backing holds).short
          have noWrap : (offset + rest) % 2 ^ 32 = offset + rest := by
            apply Nat.mod_eq_of_lt
            simp only [arrayDimensionLimit] at short
            omega
          refine ⟨fuel + 1, base, offset + rest, backing, ?_, holds, by omega, stored⟩
          simp only [vectorData, here, displaced, found, Option.map_some, noWrap]

theorem getElem?_make {h : Heap} {fresh : Arr} {a : Arr} (here : (h ++ [fresh])[id]? = some a) :
    h[id]? = some a ∨ (id = h.length ∧ a = fresh) := by
  rcases Nat.lt_trichotomy id h.length with before | last | after
  · rw [List.getElem?_append_left before] at here
    exact .inl here
  · subst last
    rw [List.getElem?_append_right le_rfl, Nat.sub_self] at here
    exact .inr ⟨rfl, (Option.some.inj here).symm⟩
  · rw [List.getElem?_eq_none (by simp; omega)] at here
    cases here

theorem getElem?_make_old {h : Heap} (fresh : Arr) {a : Arr} (here : h[id]? = some a) :
    (h ++ [fresh])[id]? = some a := by
  rw [List.getElem?_append_left (List.getElem?_eq_some_iff.mp here).1]
  exact here

theorem Valid.make {h : Heap} (valid : Valid h) {fresh : Arr} (shaped : fresh.Shaped)
    (inside : ∀ target offset, fresh.displaced = some (target, offset) →
      ∃ t, h[target]? = some t ∧ Inside fresh t offset) : Valid (h.make fresh).1 := by
  obtain ⟨depth, down⟩ := valid.acyclic
  refine ⟨?_, ?_, ?_⟩
  · intro id a here
    rcases getElem?_make here with old | ⟨rfl, rfl⟩
    · exact valid.shaped id a old
    · exact shaped
  · intro id a target offset here displaced
    rcases getElem?_make here with old | ⟨rfl, rfl⟩
    · obtain ⟨t, there, fits⟩ := valid.inside id a target offset old displaced
      exact ⟨t, getElem?_make_old fresh there, fits⟩
    · obtain ⟨t, there, fits⟩ := inside target offset displaced
      exact ⟨t, getElem?_make_old a there, fits⟩
  · refine ⟨fun id => if id = h.length then
      match fresh.displaced with
      | some (target, _) => depth target + 1
      | none => 0
      else depth id, ?_⟩
    intro id a target offset here displaced
    rcases getElem?_make here with old | ⟨rfl, rfl⟩
    · have idOld : id ≠ h.length := (List.getElem?_eq_some_iff.mp old).1.ne
      obtain ⟨t, there, -⟩ := valid.inside id a target offset old displaced
      have targetOld : target ≠ h.length := (List.getElem?_eq_some_iff.mp there).1.ne
      dsimp only
      rw [if_neg idOld, if_neg targetOld]
      exact down id a target offset old displaced
    · obtain ⟨t, there, -⟩ := inside target offset displaced
      have targetOld : target ≠ h.length := (List.getElem?_eq_some_iff.mp there).1.ne
      dsimp only
      rw [if_pos rfl, if_neg targetOld, displaced]
      exact Nat.lt_succ_self _

theorem getElem?_set_cases {h : Heap} {id other : Nat} {a b : Arr}
    (here : (h.set id a)[other]? = some b) :
    (other = id ∧ b = a) ∨ (other ≠ id ∧ h[other]? = some b) := by
  rw [List.getElem?_set] at here
  by_cases same : id = other
  · rw [if_pos same] at here
    split at here
    · exact .inl ⟨same.symm, (Option.some.inj here).symm⟩
    · cases here
  · rw [if_neg same] at here
    exact .inr ⟨fun equal => same equal.symm, here⟩

theorem getElem?_set_self' {h : Heap} {a b : Arr} (here : h[id]? = some b) :
    (h.set id a)[id]? = some a := by
  rw [List.getElem?_set_self (List.getElem?_eq_some_iff.mp here).1]

theorem Valid.set {h : Heap} (valid : Valid h) {a b : Arr} (here : h[id]? = some a)
    (shaped : b.Shaped)
    (inside : ∀ target offset, b.displaced = some (target, offset) → target ≠ id ∧
      ∃ t, h[target]? = some t ∧ Inside b t offset)
    (views : ∀ (other : Nat) (c : Arr) (offset : Nat), h[other]? = some c →
      c.displaced = some (id, offset) →
      Inside c b offset)
    (acyclic : ∃ depth : Nat → Nat, ∀ (other : Nat) (c : Arr) (target offset : Nat),
      (h.set id b)[other]? = some c → c.displaced = some (target, offset) →
        depth target < depth other) :
    Valid (h.set id b) := by
  refine ⟨?_, ?_, acyclic⟩
  · intro other c there
    rcases getElem?_set_cases there with ⟨rfl, rfl⟩ | ⟨-, old⟩
    · exact shaped
    · exact valid.shaped other c old
  · intro other c target offset there displaced
    rcases getElem?_set_cases there with ⟨rfl, rfl⟩ | ⟨apart, old⟩
    · obtain ⟨notSelf, t, found, fits⟩ := inside target offset displaced
      refine ⟨t, ?_, fits⟩
      rw [List.getElem?_set_ne (fun equal => notSelf equal.symm)]
      exact found
    · by_cases toChanged : target = id
      · subst toChanged
        exact ⟨b, getElem?_set_self' here, views other c offset old displaced⟩
      · obtain ⟨t, found, fits⟩ := valid.inside other c target offset old displaced
        refine ⟨t, ?_, fits⟩
        rw [List.getElem?_set_ne (fun equal => toChanged equal.symm)]
        exact found

theorem Valid.setFill {h : Heap} (valid : Valid h) {a : Arr} (here : h[id]? = some a)
    {fillPtr : Nat} (fits : FillFits fillPtr a.length) : Valid (h.setFill id a fillPtr) := by
  have shaped := valid.shaped id a here
  obtain ⟨depth, down⟩ := valid.acyclic
  refine valid.set here ⟨fits, shaped.dims, shaped.short, shaped.stored⟩ ?_ ?_ ⟨depth, ?_⟩
  · intro target offset displaced
    have lower := down id a target offset here displaced
    exact ⟨fun equal => by subst equal; exact lower.false,
      valid.inside id a target offset here displaced⟩
  · intro other c offset there displaced
    obtain ⟨t, found, inside⟩ := valid.inside other c id offset there displaced
    rw [here] at found
    obtain rfl := Option.some.inj found
    exact inside
  · intro other c target offset there displaced
    rcases getElem?_set_cases there with ⟨rfl, rfl⟩ | ⟨-, old⟩
    · exact down other a target offset here displaced
    · exact down other c target offset old displaced

theorem Valid.displace {h : Heap} (valid : Valid h) {a : Arr} (here : h[id]? = some a)
    {backing : Arr} {newLen fillPtr : Nat} (vector : ¬ 1 < a.rank) (backed : backing.Shaped)
    (plain : backing.displaced = none) (sized : backing.length = newLen)
    (fits : FillFits fillPtr newLen)
    (views : ∀ (other : Nat) (c : Arr) (offset : Nat), h[other]? = some c →
      c.displaced = some (id, offset) → c.length = 0 ∨ offset + c.length ≤ newLen) :
    Valid ((h.make backing).1.set id (a.displace h.length newLen fillPtr)) := by
  have made : Valid (h.make backing).1 := valid.make backed (by simp [plain])
  have stillHere : (h.make backing).1[id]? = some a := getElem?_make_old backing here
  have idOld : id ≠ h.length := (List.getElem?_eq_some_iff.mp here).1.ne
  have fresh : (h.make backing).1[h.length]? = some backing := by
    simp [Heap.make]
  obtain ⟨depth, down⟩ := valid.acyclic
  refine made.set stillHere ⟨fits, ?_, ?_, by simp [Arr.displace]⟩ ?_ ?_
    ⟨fun n => if n = h.length then 0 else depth n + 1, ?_⟩
  · simp [Arr.dimensions, Arr.displace, vector]
  · change newLen ≤ arrayDimensionLimit
    rw [← sized]
    exact backed.short
  · intro target offset displaced
    simp only [Arr.displace, Option.some.injEq, Prod.mk.injEq] at displaced
    obtain ⟨rfl, rfl⟩ := displaced
    exact ⟨idOld.symm, backing, fresh, .inr (by simp [Arr.displace, sized])⟩
  · intro other c offset there displaced
    rcases getElem?_make there with old | ⟨-, rfl⟩
    · exact views other c offset old displaced
    · rw [plain] at displaced
      cases displaced
  · intro other c target offset there displaced
    dsimp only
    rcases getElem?_set_cases there with ⟨rfl, rfl⟩ | ⟨-, old⟩
    · simp only [Arr.displace, Option.some.injEq, Prod.mk.injEq] at displaced
      rw [if_pos displaced.1.symm, if_neg idOld]
      exact Nat.succ_pos _
    · rcases getElem?_make old with older | ⟨-, rfl⟩
      · obtain ⟨t, found, -⟩ := valid.inside other c target offset older displaced
        rw [if_neg (List.getElem?_eq_some_iff.mp found).1.ne,
          if_neg (List.getElem?_eq_some_iff.mp older).1.ne]
        exact Nat.succ_lt_succ (down other c target offset older displaced)
      · rw [plain] at displaced
        cases displaced

theorem Outcome.bind_ok {α β : Type} {first : Outcome α} {next : α → Outcome β} {b : β}
    (succeeds : (first >>= next) = .ok b) : ∃ a, first = .ok a ∧ next a = .ok b := by
  cases first with
  | error failure => cases succeeds
  | ok a => exact ⟨a, rfl, succeeds⟩

theorem Outcome.map_ok {α β : Type} {f : α → β} {first : Outcome α} {b : β}
    (succeeds : first.map f = .ok b) : ∃ a, first = .ok a ∧ f a = b := by
  cases first with
  | error failure => cases succeeds
  | ok a => exact ⟨a, rfl, Except.ok.inj succeeds⟩

theorem shaped_packed {kind : Kind} {length fillPtr : Nat} {flags : Flags}
    (fits : FillFits fillPtr length) (short : length ≤ arrayDimensionLimit) :
    (makePacked kind length flags fillPtr).Shaped :=
  ⟨fits, by simp [Arr.dimensions, makePacked], short, fun _ => le_rfl⟩

theorem shaped_clMakeArray {total fillPtr : Nat} {flags : Flags} (fits : FillFits fillPtr total)
    (short : total ≤ arrayDimensionLimit) : (clMakeArray total 0 [] flags fillPtr).Shaped := by
  refine ⟨fits, by simp [Arr.dimensions, clMakeArray], short, fun _ => ?_⟩
  simp only [clMakeArray, elementSlots]
  split
  · omega
  · split <;> omega

theorem shaped_multidim {total rank fillPtr : Nat} {dims : List Nat} {flags : Flags}
    (several : 1 < rank) (product : dims.prod = total) (short : total ≤ arrayDimensionLimit)
    (fits : FillFits fillPtr total) : (clMakeArray total rank dims flags fillPtr).Shaped := by
  refine ⟨fits, ?_, short, fun _ => ?_⟩
  · simp [Arr.dimensions, clMakeArray, several, product]
  · simp [clMakeArray, several]

theorem parseDims_ok {dims : List Val} {rank total : Nat} {parsed : List Nat} {product : Nat}
    (accepted : parseDims dims rank total = .ok (parsed, product))
    (small : total ≤ arrayTotalSizeLimit) :
    parsed.length = dims.length ∧ product = total * parsed.prod ∧
      product ≤ arrayTotalSizeLimit := by
  induction dims generalizing rank total parsed product with
  | nil =>
      simp only [parseDims, Except.ok.injEq, Prod.mk.injEq] at accepted
      obtain ⟨rfl, rfl⟩ := accepted
      simp [small]
  | cons dim rest induction =>
      unfold parseDims at accepted
      split at accepted
      · cases accepted
      · split at accepted
        · next word =>
            dsimp only at accepted
            split at accepted
            · cases accepted
            · split at accepted
              · cases accepted
              · split at accepted
                · cases accepted
                · next fits =>
                    obtain ⟨⟨dims, prod⟩, later, made⟩ := Outcome.bind_ok accepted
                    simp only [Except.ok.injEq, Prod.mk.injEq] at made
                    obtain ⟨rfl, rfl⟩ := made
                    have step : total * toU32 word ≤ arrayTotalSizeLimit := by
                      by_cases zero : toU32 word = 0
                      · simp [zero]
                      · rw [not_and, not_lt] at fits
                        exact (Nat.le_div_iff_mul_le (Nat.pos_of_ne_zero zero)).mp (fits zero)
                    obtain ⟨count, product, bound⟩ := induction later step
                    refine ⟨by simp [count], ?_, bound⟩
                    rw [product, List.prod_cons]
                    ring
        · cases accepted

/-- The length of the vector that `bi_make_array` would make. -/
def DimArg.vectorLength : DimArg → Option Nat
  | .fixnum word => some (toU32 word)
  | .list [.fixnum word] => some (toU32 word)
  | .list [] => some 1
  | _ => none

/-- The fill pointer that is asked for fits the vector to be made, and the offset of a
view is not negative. -/
def CarefulMake (h : Heap) (dims : DimArg) (args : List Arg) : Prop :=
  let o := parseArgs args
  (∀ length, dims.vectorLength = some length →
    o.fillPointerIsT ∨ FillFits o.fillPtr length) ∧
  ∀ (id : Nat) (target : Arr), o.displacedTo = .array id → h[id]? = some target →
    target.kind = .vector → o.displacedOffset < 2 ^ 31

/-- The fill pointer that is asked for fits the new length, and an array that is
adjusted in place keeps every view of it inside. -/
def CarefulAdjust (h : Heap) (id : Nat) (dims : DimArg) (args : List Arg) : Prop :=
  ∀ newLen, adjustLength dims = .ok newLen →
    (∀ fill, adjustFill newLen args = some fill → FillFits fill newLen) ∧
    ∀ a, h[id]? = some a → a.flags.adjustable = true →
      ∀ (other : Nat) (c : Arr) (offset : Nat), h[other]? = some c →
        c.displaced = some (id, offset) → c.length = 0 ∨ offset + c.length ≤ newLen

def Careful (h : Heap) : Op → Prop
  | .makeArray dims args => CarefulMake h dims args
  | .adjustArray id dims args => CarefulAdjust h id dims args
  | _ => True

theorem make_valid {fresh : Arr} (valid : Valid h)
    (made : (.ok (h.make fresh) : Outcome (Heap × Nat)) = .ok (h', id)) (shaped : fresh.Shaped)
    (plain : fresh.displaced = none) : Valid h' := by
  obtain rfl : h' = (h.make fresh).1 := by rw [Except.ok.inj made]
  exact valid.make shaped (by simp [plain])

theorem displaceVector_valid {o : Options} {length fillPtr made : Nat}
    (valid : Valid h) (short : length ≤ arrayDimensionLimit) (fits : FillFits fillPtr length)
    (offsetFits : ∀ (id : Nat) (target : Arr), o.displacedTo = .array id → h[id]? = some target →
      target.kind = .vector → o.displacedOffset < 2 ^ 31)
    (accepted : displaceVector h o length fillPtr = .ok (h', made)) : Valid h' := by
  unfold displaceVector at accepted
  split at accepted
  · next id isArray =>
      split at accepted
      · cases accepted
      · next target there =>
          split at accepted
          · cases accepted
          · next bounds =>
              split at accepted
              · split at accepted
                · exact make_valid valid accepted (shaped_clMakeArray fits short) rfl
                · exact make_valid valid accepted (shaped_packed (.inl rfl) short) rfl
              · next isVector =>
                  have offsetSmall := offsetFits id target isArray there isVector
                  simp only [arrayDimensionLimit] at short
                  rw [Nat.mod_eq_of_lt (by omega), not_lt] at bounds
                  dsimp only at accepted
                  obtain rfl : h' = _ := (congrArg Prod.fst (Except.ok.inj accepted)).symm
                  apply valid.make
                  · exact ⟨fits, by simp [Arr.dimensions, makeDisplaced], short,
                      by simp [makeDisplaced]⟩
                  · intro target' offset displaced
                    simp only [makeDisplaced, Option.some.injEq, Prod.mk.injEq] at displaced
                    obtain ⟨rfl, rfl⟩ := displaced
                    exact ⟨target, there, .inr bounds⟩
              · exact make_valid valid accepted (shaped_packed fits short) rfl
              · exact make_valid valid accepted (shaped_packed fits short) rfl
  · cases accepted

theorem makeVector_valid {o : Options} {word : BitVec 31} {made : Nat}
    (valid : Valid h) (fits : o.fillPointerIsT ∨ FillFits o.fillPtr (toU32 word))
    (offsetFits : ∀ (id : Nat) (target : Arr), o.displacedTo = .array id → h[id]? = some target →
      target.kind = .vector → o.displacedOffset < 2 ^ 31)
    (accepted : makeVector h o word = .ok (h', made)) : Valid h' := by
  unfold makeVector at accepted
  dsimp only at accepted
  have chosen : FillFits (if o.fillPointerIsT then toU32 word else o.fillPtr) (toU32 word) := by
    split
    · exact .inr le_rfl
    · next notT => exact fits.resolve_left notT
  split at accepted
  · cases accepted
  · split at accepted
    · cases accepted
    · next short =>
        rw [not_lt] at short
        split at accepted
        · exact displaceVector_valid valid short chosen offsetFits accepted
        · split at accepted
          · split at accepted
            · exact make_valid valid accepted (shaped_packed chosen short) rfl
            · cases accepted
          · split at accepted
            · split at accepted
              · exact make_valid valid accepted (shaped_packed chosen short) rfl
              · cases accepted
            · split at accepted
              · split at accepted
                · cases accepted
                · split at accepted
                  · exact make_valid valid accepted (shaped_clMakeArray chosen short) rfl
                  · exact make_valid valid accepted (shaped_packed (.inl rfl) short) rfl
              · exact make_valid valid accepted (shaped_clMakeArray chosen short) rfl

theorem makeMultidim_valid {o : Options} {dims : List Val} {made : Nat}
    (valid : Valid h) (several : dims.length ≠ 1)
    (fits : dims = [] → o.fillPointerIsT ∨ FillFits o.fillPtr 1)
    (offsetFits : ∀ (id : Nat) (target : Arr), o.displacedTo = .array id → h[id]? = some target →
      target.kind = .vector → o.displacedOffset < 2 ^ 31)
    (accepted : makeMultidim h o dims = .ok (h', made)) : Valid h' := by
  obtain ⟨⟨parsed, total⟩, dimsParsed, accepted⟩ := Outcome.bind_ok accepted
  obtain ⟨count, product, short⟩ := parseDims_ok dimsParsed (by decide)
  rw [Nat.one_mul] at product
  dsimp only at accepted
  split at accepted
  · next none =>
      have empty : dims = [] := by
        rw [← List.length_eq_zero_iff]
        omega
      refine make_valid valid accepted (shaped_clMakeArray ?_ (by decide)) rfl
      split
      · exact .inr le_rfl
      · next notT => exact (fits empty).resolve_left notT
  · next some =>
      have many : 1 < parsed.length := by omega
      split at accepted
      · cases accepted
      · split at accepted
        · split at accepted
          · next id isArray =>
              split at accepted
              · cases accepted
              · next target there =>
                  split at accepted
                  · cases accepted
                  · next kinds =>
                      split at accepted
                      · cases accepted
                      · next bounds =>
                          split at accepted
                          · exact make_valid valid accepted
                              (shaped_multidim many product.symm short (.inl rfl)) rfl
                          · next notBytes =>
                              have isVector : target.kind = .vector := by
                                by_contra notVector
                                exact kinds ⟨notBytes, notVector⟩
                              have offsetSmall := offsetFits id target isArray there isVector
                              have shortTotal : total ≤ 2 ^ 20 := short
                              rw [Nat.mod_eq_of_lt (by omega), not_lt] at bounds
                              obtain rfl : h' = _ :=
                                (congrArg Prod.fst (Except.ok.inj accepted)).symm
                              apply valid.make
                              · exact ⟨.inl rfl, by simp [Arr.dimensions, makeDisplaced, many,
                                  product], short, by simp [makeDisplaced]⟩
                              · intro target' offset displaced
                                simp only [makeDisplaced, Option.some.injEq, Prod.mk.injEq]
                                  at displaced
                                obtain ⟨rfl, rfl⟩ := displaced
                                exact ⟨target, there, .inr bounds⟩
          · cases accepted
        · exact make_valid valid accepted (shaped_multidim many product.symm short (.inl rfl)) rfl

theorem makeArray_valid {dims : DimArg} {args : List Arg} {made : Nat}
    (valid : Valid h) (careful : CarefulMake h dims args)
    (accepted : makeArray h dims args = .ok (h', made)) : Valid h' := by
  obtain ⟨fits, offsetFits⟩ := careful
  unfold makeArray at accepted
  dsimp only at accepted
  split at accepted
  · cases accepted
  · split at accepted
    · cases accepted
    · split at accepted
      · exact makeVector_valid valid (fits _ rfl) offsetFits accepted
      · exact makeVector_valid valid (fits _ rfl) offsetFits accepted
      · next dims notSingle =>
          refine makeMultidim_valid valid ?_ ?_ offsetFits accepted
          · intro single
            obtain ⟨dim, rfl⟩ := List.length_eq_one_iff.mp single
            cases dim with
            | fixnum word => exact notSingle word rfl
            | nil | t | array | other => cases accepted
          · rintro rfl
            exact fits 1 rfl
      · cases accepted

theorem adjustLength_le {dims : DimArg} {newLen : Nat} (accepted : adjustLength dims = .ok newLen) :
    newLen ≤ arrayDimensionLimit := by
  have check : ∀ word : BitVec 31,
      (if word.toInt < 0 then (.error .negativeDimension : Outcome Nat)
        else if arrayDimensionLimit < toU32 word then .error .dimensionLimit
        else .ok (toU32 word)) = .ok newLen → newLen ≤ arrayDimensionLimit := by
    intro word accepted
    split at accepted
    · cases accepted
    · split at accepted
      · cases accepted
      · next short =>
          obtain rfl := Except.ok.inj accepted
          omega
  unfold adjustLength at accepted
  dsimp only at accepted
  split at accepted
  · exact check _ accepted
  · exact check _ accepted
  · cases accepted
  · cases accepted

theorem adjustedFill_fits {a : Arr} {newLen : Nat} {args : List Arg}
    (fits : ∀ fill, adjustFill newLen args = some fill → FillFits fill newLen) :
    FillFits (adjustedFill a newLen args) newLen := by
  unfold adjustedFill
  split
  · next fill given => exact fits fill given
  · split
    · exact .inr (min_le_right _ _)
    · exact .inl rfl

theorem adjustArray_valid {id made : Nat} {dims : DimArg} {args : List Arg}
    (valid : Valid h) (careful : CarefulAdjust h id dims args)
    (accepted : adjustArray h id dims args = .ok (h', made)) : Valid h' := by
  unfold adjustArray at accepted
  split at accepted
  · cases accepted
  · next a here =>
      split at accepted
      · cases accepted
      · next kinds =>
          split at accepted
          · cases accepted
          · next notMultidim =>
              obtain ⟨newLen, parsed, accepted⟩ := Outcome.bind_ok accepted
              obtain ⟨fillGiven, views⟩ := careful newLen parsed
              have short := adjustLength_le parsed
              have fits := adjustedFill_fits (a := a) fillGiven
              split at accepted
              · split at accepted
                · cases accepted
                · exact make_valid valid accepted (shaped_packed fits short) rfl
              · next notBytes =>
                  have isVector : a.kind = .vector := by
                    by_contra notVector
                    exact kinds ⟨notBytes, notVector⟩
                  dsimp only at accepted
                  split at accepted
                  · next adjustable =>
                      obtain rfl : h' = _ := (congrArg Prod.fst (Except.ok.inj accepted)).symm
                      exact valid.displace here (fun several => notMultidim ⟨isVector, several⟩)
                        (shaped_clMakeArray fits short) rfl rfl fits (views a here adjustable)
                  · exact make_valid valid accepted (shaped_clMakeArray fits short) rfl

theorem fillPointerArray_ok {h : Heap} {kinds : List Kind} {a : Arr}
    (found : fillPointerArray h id kinds = .ok a) :
    h[id]? = some a ∧ a.kind ∈ kinds ∧ a.fillPointer ≠ noFillPointer := by
  unfold fillPointerArray at found
  split at found
  · cases found
  · next a' here =>
      split at found
      · cases found
      · next known =>
          split at found
          · cases found
          · next some =>
              obtain rfl := Except.ok.inj found
              exact ⟨here, not_not.mp known, some⟩

theorem setfFillPointer_valid {v : Val} (valid : Valid h)
    (accepted : setfFillPointer h id v = .ok h') : Valid h' := by
  obtain ⟨a, found, accepted⟩ := Outcome.bind_ok accepted
  obtain ⟨here, -, -⟩ := fillPointerArray_ok found
  split at accepted
  · split at accepted
    · cases accepted
    · next range =>
        obtain rfl := Except.ok.inj accepted
        exact valid.setFill here (.inr (by omega))
  · cases accepted

theorem vectorPush_valid {fits : Bool} (valid : Valid h)
    (accepted : vectorPush h id fits = .ok h') : Valid h' := by
  obtain ⟨a, found, accepted⟩ := Outcome.bind_ok accepted
  obtain ⟨here, -, -⟩ := fillPointerArray_ok found
  split at accepted
  · obtain rfl := Except.ok.inj accepted
    exact valid
  · next room =>
      split at accepted
      · cases accepted
      · obtain rfl := Except.ok.inj accepted
        exact valid.setFill here (.inr (by omega))

theorem newCapacity_ok {oldLen newCap : Nat} {ext : Option (BitVec 31)}
    (accepted : newCapacity oldLen ext = .ok newCap) :
    oldLen < newCap ∧ newCap ≤ arrayDimensionLimit := by
  unfold newCapacity at accepted
  split at accepted
  · cases accepted
  · dsimp only at accepted
    split at accepted
    · obtain rfl := Except.ok.inj accepted
      omega
    · split at accepted
      · cases accepted
      · split at accepted
        · cases accepted
        · obtain rfl := Except.ok.inj accepted
          omega

theorem vectorPushExtend_valid {fits : Bool} {ext : Option (BitVec 31)}
    (valid : Valid h) (accepted : vectorPushExtend h id fits ext = .ok h') : Valid h' := by
  obtain ⟨a, found, accepted⟩ := Outcome.bind_ok accepted
  obtain ⟨here, -, some⟩ := fillPointerArray_ok found
  have fill := (valid.shaped id a here).fill.resolve_left some
  split at accepted
  · split at accepted
    · cases accepted
    · split at accepted
      · cases accepted
      · obtain rfl := Except.ok.inj accepted
        exact valid.setFill here (.inr (by omega))
  · split at accepted
    · obtain rfl := Except.ok.inj accepted
      exact valid.setFill here (.inr (by omega))
    · obtain ⟨newCap, grown, accepted⟩ := Outcome.bind_ok accepted
      obtain ⟨larger, short⟩ := newCapacity_ok grown
      dsimp only at accepted
      split at accepted
      · cases accepted
      · next vector =>
          obtain rfl := Except.ok.inj accepted
          refine valid.displace here vector (shaped_clMakeArray (.inl rfl) short) rfl rfl
            (.inr (by omega)) ?_
          -- a view of the vector was inside its old length
          intro other c offset there displaced
          obtain ⟨t, target, inside⟩ := valid.inside other c id offset there displaced
          rw [here] at target
          obtain rfl := Option.some.inj target
          exact inside.imp_right fun fitting => fitting.trans larger.le

theorem vectorPop_valid (valid : Valid h) (accepted : vectorPop h id = .ok h') : Valid h' := by
  obtain ⟨a, found, accepted⟩ := Outcome.bind_ok accepted
  obtain ⟨here, -, some⟩ := fillPointerArray_ok found
  have fill := (valid.shaped id a here).fill.resolve_left some
  split at accepted
  · cases accepted
  · obtain rfl := Except.ok.inj accepted
    exact valid.setFill here (.inr (by omega))

theorem step_valid {op : Op} (valid : Valid h) (careful : Careful h op)
    (accepted : step h op = .ok h') : Valid h' := by
  cases op with
  | makeArray dims args =>
      obtain ⟨⟨h'', made⟩, returned, rfl⟩ := Outcome.map_ok accepted
      exact makeArray_valid valid careful returned
  | adjustArray id dims args =>
      obtain ⟨⟨h'', made⟩, returned, rfl⟩ := Outcome.map_ok accepted
      exact adjustArray_valid valid careful returned
  | setfFillPointer id v => exact setfFillPointer_valid valid accepted
  | vectorPush id fits => exact vectorPush_valid valid accepted
  | vectorPushExtend id fits ext => exact vectorPushExtend_valid valid accepted
  | vectorPop id => exact vectorPop_valid valid accepted

inductive Reachable : Heap → Prop
  | start : Reachable []
  | call {h h' : Heap} (op : Op) (before : Reachable h) (careful : Careful h op)
      (returns : step h op = .ok h') : Reachable h'

theorem Reachable.valid {h : Heap} (reached : Reachable h) : Valid h := by
  induction reached with
  | start => exact valid_nil
  | call op _ careful returns valid => exact step_valid valid careful returns

/-- An index that AREF, an access by active length or ROW-MAJOR-AREF accepts. -/
def Accepts (a : Arr) (i : Nat) : Prop :=
  (∃ subscripts, arefIndex a subscripts = .ok i) ∨ (∃ v, eltIndex a v = .ok i) ∨
    ∃ v, rowMajorArefIndex a v = .ok i

theorem checkIndex_lt {bound i : Nat} {v : Val} (accepted : checkIndex bound v = .ok i) :
    i < bound := by
  unfold checkIndex at accepted
  split at accepted
  · split at accepted
    · cases accepted
    · next range =>
        obtain rfl := Except.ok.inj accepted
        omega
  · cases accepted

theorem rowMajor_lt {subscripts : List Val} {dims : List Nat} {acc before i : Nat}
    (below : acc < before) (accepted : rowMajor subscripts dims acc = .ok i) :
    i < before * dims.prod := by
  induction subscripts generalizing dims acc before with
  | nil =>
      cases dims with
      | nil =>
          obtain rfl := Except.ok.inj accepted
          simpa using below
      | cons dim dims => cases accepted
  | cons v rest induction =>
      cases dims with
      | nil => cases accepted
      | cons dim dims =>
          obtain ⟨j, checked, later⟩ := Outcome.bind_ok accepted
          have inDim := checkIndex_lt checked
          have next : (acc * dim + j) % 2 ^ 32 < before * dim := by
            calc (acc * dim + j) % 2 ^ 32 ≤ acc * dim + j := Nat.mod_le _ _
              _ < (acc + 1) * dim := by rw [Nat.add_mul]; omega
              _ ≤ before * dim := Nat.mul_le_mul_right _ below
          have inside := induction next later
          rwa [List.prod_cons, ← Nat.mul_assoc]

theorem Accepts.lt {a : Arr} {i : Nat} (accepts : Accepts a i) (shaped : a.Shaped) :
    i < a.length := by
  rcases accepts with ⟨subscripts, accepted⟩ | ⟨v, accepted⟩ | ⟨v, accepted⟩
  · unfold arefIndex at accepted
    split at accepted
    · next multidim =>
        split at accepted
        · cases accepted
        · have inside := rowMajor_lt (Nat.zero_lt_one) accepted
          have product := shaped.dims
          rw [Arr.dimensions, if_pos multidim.2] at product
          rwa [Nat.one_mul, product] at inside
    · split at accepted
      · cases accepted
      · exact checkIndex_lt accepted
  · have inside := checkIndex_lt accepted
    rw [Arr.activeLength] at inside
    split at inside
    · next some =>
        have fill := shaped.fill.resolve_left some
        omega
    · exact inside
  · exact checkIndex_lt accepted

/-- The contract of an array: its fill pointer and its dimensions fit its length, and
every index it accepts is found in a slot of the storage that it ends in. -/
structure InBounds (h : Heap) (id : Nat) (a : Arr) : Prop where
  fill : FillFits a.fillPointer a.length
  dims : a.dimensions.prod = a.length
  slot : ∀ i, Accepts a i → ∃ fuel base offset backing,
    vectorData h fuel id = some (base, offset) ∧ h[base]? = some backing ∧
      offset + i < backing.slots

/-- In every run of careful calls every array keeps its contract. -/
theorem arrays_in_bounds {h : Heap} (reached : Reachable h) (id : Nat) (a : Arr)
    (here : h[id]? = some a) : InBounds h id a := by
  have valid := reached.valid
  have shaped := valid.shaped id a here
  refine ⟨shaped.fill, shaped.dims, ?_⟩
  intro i accepts
  obtain ⟨fuel, base, offset, backing, found, holds, room, stored⟩ :=
    valid.resolves here (accepts.lt shaped)
  exact ⟨fuel, base, offset, backing, found, holds, room.trans_le stored⟩

/-- An adjustable vector of two elements, a view of the last one, and a push that
moves the vector to new storage. -/
theorem arrays_in_bounds_view :
    ∃ h a, Reachable h ∧ h[1]? = some a ∧ a.displaced = some (0, 1) ∧ InBounds h 1 a := by
  have first : Reachable [clMakeArray 2 0 [] ⟨true, true, false, false⟩ 2] := by
    refine .call (.makeArray (.fixnum 2) [.fillPointer .t, .adjustable .t]) .start ?_ rfl
    refine ⟨fun length _ => .inl rfl, ?_⟩
    intro id target isArray
    cases isArray
  have second : Reachable [clMakeArray 2 0 [] ⟨true, true, false, false⟩ 2,
      makeDisplaced 1 0 [] noFlags noFillPointer 0 1] := by
    refine .call (.makeArray (.fixnum 1)
      [.displacedTo (.array 0), .displacedIndexOffset (.fixnum 1)]) first ?_ rfl
    refine ⟨fun length _ => .inr (.inl rfl), ?_⟩
    intro id target _ _ _
    decide
  have third : Reachable ((step [clMakeArray 2 0 [] ⟨true, true, false, false⟩ 2,
      makeDisplaced 1 0 [] noFlags noFillPointer 0 1]
      (.vectorPushExtend 0 true none)).toOption.getD []) :=
    .call (.vectorPushExtend 0 true none) second trivial rfl
  exact ⟨_, _, third, rfl, rfl, arrays_in_bounds third 1 _ rfl⟩

def run : Heap → List Op → Outcome Heap
  | h, [] => .ok h
  | h, op :: rest => do
      let h ← step h op
      run h rest

/-- Three runs that break the contract: a fill pointer past the length, a view with a
negative offset, and a view of a vector that is cut afterwards. -/
theorem arrays_out_of_bounds :
    (∃ h a, run [] [.makeArray (.fixnum 3) [.fillPointer (.fixnum 10)]] = .ok h ∧
      h[0]? = some a ∧ ¬ FillFits a.fillPointer a.length) ∧
    (∃ h a backing, run [] [.makeArray (.fixnum 4) [],
        .makeArray (.fixnum 2) [.displacedTo (.array 0), .displacedIndexOffset (.fixnum (-1))]] =
          .ok h ∧
      h[1]? = some a ∧ Accepts a 0 ∧ vectorData h 2 1 = some (0, 2 ^ 32 - 1) ∧
      h[0]? = some backing ∧ ¬ 2 ^ 32 - 1 + 0 < backing.slots) ∧
    (∃ h a backing, run [] [.makeArray (.fixnum 4) [.adjustable .t],
        .makeArray (.fixnum 2) [.displacedTo (.array 0), .displacedIndexOffset (.fixnum 2)],
        .adjustArray 0 (.fixnum 1) []] = .ok h ∧
      h[1]? = some a ∧ Accepts a 1 ∧ vectorData h 3 1 = some (2, 2) ∧
      h[2]? = some backing ∧ ¬ 2 + 1 < backing.slots) := by
  refine ⟨⟨_, _, rfl, rfl, ?_⟩, ⟨_, _, _, rfl, rfl, .inl ⟨[.fixnum 0], ?_⟩, ?_, rfl, ?_⟩,
    ⟨_, _, _, rfl, rfl, .inl ⟨[.fixnum 1], ?_⟩, ?_, rfl, ?_⟩⟩
  · unfold FillFits
    decide
  · rfl
  · rfl
  · decide
  · rfl
  · rfl
  · decide

end ClAmiga.Arrays
