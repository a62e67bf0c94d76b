import Mathlib.Data.List.GetD
import Mathlib.Data.List.Perm.Basic
import Mathlib.Data.List.Nodup
import Mathlib.Data.List.Flatten
import Mathlib.Data.List.Pairwise
import Mathlib.Data.Set.Basic

/-!
# Tables of chains as finite maps

A table is a list of chains, and each entry stands in the chain its place names.
The contents of a table are the concatenation of its chains, up to order: a push
onto one chain adds one entry to them and an erasure from the right chain takes
one away.  They are a finite map whose keys are taken modulo a relation `same`: a
list of pairs, no two of which have the same key.  Lookup, update and removal see
at most one pair, so that they respect permutations.
-/

namespace ClAmiga.Chain

universe u v

section Contents

variable {α : Type*}

def chain (table : List (List α)) (place : Nat) : List α :=
  table.getD place []

def Placed (place : α → Nat) (table : List (List α)) : Prop :=
  ∀ i x, x ∈ chain table i → place x = i

def empty (size : Nat) : List (List α) :=
  List.replicate size []

@[simp] theorem length_empty (size : Nat) : (empty size : List (List α)).length = size := by
  simp [empty]

@[simp] theorem flatten_empty (size : Nat) : (empty size : List (List α)).flatten = [] := by
  simp [empty]

@[simp] theorem chain_empty (size i : Nat) : chain (empty size : List (List α)) i = [] := by
  by_cases inside : i < size <;> simp [chain, empty, inside]

theorem placed_empty (place : α → Nat) (size : Nat) : Placed place (empty size) := by
  intro i x member
  simp at member

variable {table : List (List α)}

theorem mem_flatten_of_mem_chain {i : Nat} {x : α}
    (member : x ∈ chain table i) : x ∈ table.flatten := by
  unfold chain at member
  by_cases inside : i < table.length
  · rw [List.getD_eq_getElem _ _ inside] at member
    exact List.mem_flatten.mpr ⟨_, List.getElem_mem inside, member⟩
  · rw [List.getD_eq_default _ _ (Nat.le_of_not_lt inside)] at member
    simp at member

theorem Placed.mem_flatten_iff {place : α → Nat} (placed : Placed place table) (x : α) :
    x ∈ table.flatten ↔ x ∈ chain table (place x) := by
  constructor
  · intro member
    obtain ⟨bucket, inside, found⟩ := List.mem_flatten.mp member
    obtain ⟨i, bound, rfl⟩ := List.getElem_of_mem inside
    have atIndex : x ∈ chain table i := by
      rw [chain, List.getD_eq_getElem _ _ bound]
      exact found
    rw [placed i x atIndex]
    exact atIndex
  · exact mem_flatten_of_mem_chain

theorem chain_modify (table : List (List α)) (i j : Nat) (f : List α → List α)
    (inside : i < table.length) :
    chain (table.modify i f) j = if i = j then f (chain table j) else chain table j := by
  unfold chain
  by_cases bound : j < table.length
  · rw [List.getD_eq_getElem _ _ (by simpa using bound), List.getD_eq_getElem _ _ bound,
      List.getElem_modify]
  · rw [List.getD_eq_default _ _ (by simpa using bound),
      List.getD_eq_default _ _ (Nat.le_of_not_lt bound), if_neg]
    omega

theorem flatten_push (table : List (List α)) (i : Nat) (x : α) (inside : i < table.length) :
    (table.modify i (x :: ·)).flatten.Perm (x :: table.flatten) := by
  induction table generalizing i with
  | nil => simp at inside
  | cons head rest induction =>
      cases i with
      | zero => simp
      | succ i =>
          have smaller := induction i (by simpa using inside)
          simp only [List.modify_succ_cons, List.flatten_cons]
          exact (smaller.append_left head).trans List.perm_middle

theorem flatten_erase [DecidableEq α] (table : List (List α)) (i : Nat) (x : α)
    (member : x ∈ chain table i) :
    table.flatten.Perm (x :: (table.modify i (·.erase x)).flatten) := by
  induction table generalizing i with
  | nil => simp [chain] at member
  | cons head rest induction =>
      cases i with
      | zero =>
          have found : x ∈ head := by simpa [chain] using member
          simpa using (List.perm_cons_erase found).append_right rest.flatten
      | succ i =>
          have found : x ∈ chain rest i := by simpa [chain] using member
          simp only [List.modify_succ_cons, List.flatten_cons]
          exact ((induction i found).append_left head).trans List.perm_middle

theorem Placed.push {place : α → Nat} (placed : Placed place table)
    (x : α) (inside : place x < table.length) : Placed place (table.modify (place x) (x :: ·)) := by
  intro i y member
  rw [chain_modify _ _ _ _ inside] at member
  split at member
  case isTrue same =>
    rcases List.mem_cons.mp member with rfl | member
    · exact same
    · exact placed i y member
  case isFalse => exact placed i y member

theorem Placed.erase [DecidableEq α] {place : α → Nat}
    (placed : Placed place table) (i : Nat) (x : α) (inside : i < table.length) :
    Placed place (table.modify i (·.erase x)) := by
  intro j y member
  rw [chain_modify _ _ _ _ inside] at member
  split at member
  · exact placed j y (List.mem_of_mem_erase member)
  · exact placed j y member

end Contents

section First

variable {α : Type u}

def replaceFirst (kind : α → Bool) (f : α → α) : List α → List α
  | [] => []
  | x :: rest => if kind x then f x :: rest else x :: replaceFirst kind f rest

theorem perm_of_find? {kind : α → Bool} {entries : List α} {x : α}
    (found : entries.find? kind = some x) :
    ∃ rest, entries.Perm (x :: rest) ∧ (entries.eraseP kind).Perm rest ∧
      ∀ f, (replaceFirst kind f entries).Perm (f x :: rest) := by
  induction entries with
  | nil => cases found
  | cons head tail induction =>
      cases here : kind head with
      | true =>
          obtain rfl : head = x := by simpa [List.find?_cons, here] using found
          refine ⟨tail, List.Perm.refl _, ?_, ?_⟩
          · simp [here]
          · intro f
            simp [replaceFirst, here]
      | false =>
          obtain ⟨rest, whole, erased, replaced⟩ := induction (by simpa [here] using found)
          refine ⟨head :: rest, ?_, ?_, ?_⟩
          · exact (whole.cons head).trans (.swap x head rest)
          · simpa [here] using erased
          · intro f
            simpa [replaceFirst, here] using ((replaced f).cons head).trans (.swap (f x) head rest)

theorem flatten_modify (table : List (List α)) (i : Nat) (inside : i < table.length) :
    ∃ others, table.flatten.Perm (chain table i ++ others) ∧
      ∀ f, (table.modify i f).flatten.Perm (f (chain table i) ++ others) := by
  induction table generalizing i with
  | nil => simp at inside
  | cons head tail induction =>
      cases i with
      | zero => exact ⟨tail.flatten, .refl _, fun f => .refl _⟩
      | succ i =>
          obtain ⟨others, whole, changed⟩ := induction i (by simpa using inside)
          have moved : ∀ piece : List α, (head ++ (piece ++ others)).Perm
              (piece ++ (head ++ others)) := by
            intro piece
            rw [← List.append_assoc, ← List.append_assoc]
            exact List.perm_append_comm.append_right others
          refine ⟨head ++ others, ?_, ?_⟩
          · exact (whole.append_left head).trans (moved _)
          · intro f
            exact ((changed f).append_left head).trans (moved _)

theorem length_distribute (place : α → Nat) (entries : List α) (table : List (List α)) :
    (entries.foldl (fun new x => new.modify (place x) (x :: ·)) table).length = table.length := by
  induction entries generalizing table with
  | nil => rfl
  | cons x entries induction => rw [List.foldl_cons, induction, List.length_modify]

/-- Every entry goes to the front of the bucket it is placed in. -/
theorem distribute_spec (place : α → Nat) (entries : List α) (table : List (List α))
    (inside : ∀ x, place x < table.length) (placed : Placed place table) :
    let result := entries.foldl (fun new x => new.modify (place x) (x :: ·)) table
    Placed place result ∧ result.flatten.Perm (entries ++ table.flatten) := by
  induction entries generalizing table with
  | nil => exact ⟨placed, .refl _⟩
  | cons x entries induction =>
      have room := inside x
      obtain ⟨stays, contents⟩ := induction (table.modify (place x) (x :: ·))
        (by simpa using inside) (placed.push x room)
      refine ⟨stays, contents.trans ?_⟩
      exact ((flatten_push table (place x) x room).append_left entries).trans List.perm_middle

end First

section Modulo

variable {K : Type u} {V : Type v}

structure EquivOn (same : K → K → Bool) (keys : Set K) : Prop where
  refl : ∀ a ∈ keys, same a a = true
  symm : ∀ a ∈ keys, ∀ b ∈ keys, same a b = true → same b a = true
  trans : ∀ a ∈ keys, ∀ b ∈ keys, ∀ c ∈ keys, same a b = true → same b c = true → same a c = true

def Distinct (same : K → K → Bool) (entries : List (K × V)) : Prop :=
  entries.Pairwise fun a b => same a.1 b.1 = false ∧ same b.1 a.1 = false

def get (same : K → K → Bool) (key : K) (entries : List (K × V)) : Option (K × V) :=
  entries.find? fun pair => same pair.1 key

def put (same : K → K → Bool) (key : K) (value : V) (entries : List (K × V)) : List (K × V) :=
  match get same key entries with
  | some _ => replaceFirst (fun pair => same pair.1 key) (fun pair => (pair.1, value)) entries
  | none => (key, value) :: entries

def delete (same : K → K → Bool) (key : K) (entries : List (K × V)) : List (K × V) :=
  entries.eraseP fun pair => same pair.1 key

variable {same : K → K → Bool} {keys : Set K} {entries entries' : List (K × V)}

theorem Distinct.perm (distinct : Distinct same entries) (permuted : entries.Perm entries') :
    Distinct same entries' :=
  permuted.pairwise distinct fun both => ⟨both.2, both.1⟩

theorem Distinct.cons {pair : K × V} (distinct : Distinct same entries)
    (fresh : ∀ other ∈ entries, same pair.1 other.1 = false ∧ same other.1 pair.1 = false) :
    Distinct same (pair :: entries) :=
  List.pairwise_cons.mpr ⟨fresh, distinct⟩

theorem Distinct.unique (equiv : EquivOn same keys) (distinct : Distinct same entries)
    (members : ∀ pair ∈ entries, pair.1 ∈ keys) {key : K} (keyMember : key ∈ keys)
    {a b : K × V} (aMember : a ∈ entries) (bMember : b ∈ entries) (aSame : same a.1 key = true)
    (bSame : same b.1 key = true) : a = b := by
  by_contra apart
  have between : same a.1 b.1 = true :=
    equiv.trans _ (members a aMember) _ keyMember _ (members b bMember) aSame
      (equiv.symm _ (members b bMember) _ keyMember bSame)
  have symmetric : Std.Symm fun a b : K × V => same a.1 b.1 = false ∧ same b.1 a.1 = false :=
    ⟨fun _ _ both => ⟨both.2, both.1⟩⟩
  have different := (List.Pairwise.forall distinct aMember bMember apart).1
  rw [between] at different
  cases different

theorem get_same {key : K} {pair : K × V} (found : get same key entries = some pair) :
    same pair.1 key = true := by
  unfold get at found
  have isKey := List.find?_some found
  exact isKey

theorem get_eq_some (equiv : EquivOn same keys) (distinct : Distinct same entries)
    (members : ∀ pair ∈ entries, pair.1 ∈ keys) {key : K} (keyMember : key ∈ keys)
    {pair : K × V} (member : pair ∈ entries) (isKey : same pair.1 key = true) :
    get same key entries = some pair := by
  cases found : get same key entries with
  | none =>
      have absent := List.find?_eq_none.mp found pair member
      simp [isKey] at absent
  | some other =>
      have otherMember := List.mem_of_find?_eq_some found
      have otherSame := get_same found
      rw [distinct.unique equiv members keyMember otherMember member otherSame isKey]

theorem get_eq_none {key : K} :
    get same key entries = none ↔ ∀ pair ∈ entries, same pair.1 key = false := by
  simp [get, List.find?_eq_none]

end Modulo

end ClAmiga.Chain
