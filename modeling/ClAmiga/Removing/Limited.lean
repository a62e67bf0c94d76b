import Mathlib.Data.List.Count
import Mathlib.Data.List.Basic

/-!
# Removing so many elements

The first so many elements that pass a test are removed from a list, or the last so many.  The
last ones are removed by a pass that keeps the first of those that pass, as many as exceed the
limit.
-/

namespace ClAmiga.Removing

variable {α : Type*} {p q : α → Bool}

/-- The first elements that pass are removed, up to a limit. -/
def dropFirst (p : α → Bool) : Option Nat → List α → List α
  | _, [] => []
  | limit, x :: xs =>
      if p x = true ∧ limit ≠ some 0 then dropFirst p (limit.map (· - 1)) xs
      else x :: dropFirst p limit xs

def dropLast (p : α → Bool) (limit : Option Nat) (xs : List α) : List α :=
  (dropFirst p limit xs.reverse).reverse

/-- All elements that pass are removed but the first so many. -/
def keepFirst (p : α → Bool) : Nat → List α → List α
  | _, [] => []
  | 0, x :: xs => if p x then keepFirst p 0 xs else x :: keepFirst p 0 xs
  | skip + 1, x :: xs =>
      if p x then x :: keepFirst p skip xs else x :: keepFirst p (skip + 1) xs

theorem dropFirst_append (p : α → Bool) (limit : Option Nat) (xs ys : List α) :
    dropFirst p limit (xs ++ ys) =
      dropFirst p limit xs ++ dropFirst p (limit.map (· - xs.countP p)) ys := by
  induction xs generalizing limit with
  | nil => cases limit <;> rfl
  | cons x xs induction =>
      rw [List.cons_append, dropFirst, dropFirst]
      by_cases passes : p x = true
      · rw [List.countP_cons_of_pos passes]
        by_cases spent : limit = some 0
        · subst spent
          rw [if_neg (by simp), if_neg (by simp), induction]
          simp
        · rw [if_pos ⟨passes, spent⟩, if_pos ⟨passes, spent⟩, induction, Option.map_map]
          have remaining : ((· - xs.countP p) ∘ (· - 1) : Nat → Nat) = (· - (xs.countP p + 1)) := by
            funext n
            simp only [Function.comp_apply]
            omega
          rw [remaining]
      · rw [List.countP_cons_of_neg passes, if_neg (by simp [passes]), if_neg (by simp [passes]),
          induction]
        rfl

theorem dropFirst_none (p : α → Bool) (xs : List α) :
    dropFirst p none xs = xs.filter fun x => !p x := by
  induction xs with
  | nil => rfl
  | cons x xs induction =>
      rw [dropFirst, Option.map_none, induction]
      cases passes : p x <;> simp [passes]

theorem dropLast_none (p : α → Bool) (xs : List α) : dropLast p none xs = dropFirst p none xs := by
  rw [dropLast, dropFirst_none, dropFirst_none, List.filter_reverse, List.reverse_reverse]

theorem dropLast_some (p : α → Bool) (limit : Nat) (xs : List α) :
    dropLast p (some limit) xs = keepFirst p (xs.countP p - limit) xs := by
  rw [dropLast]
  induction xs with
  | nil => rfl
  | cons x xs induction =>
      rw [List.reverse_cons, dropFirst_append, List.reverse_append, induction, List.countP_reverse,
        Option.map_some]
      cases passes : p x with
      | false =>
          rw [List.countP_cons_of_neg (by simp [passes])]
          cases xs.countP p - limit <;> simp [dropFirst, keepFirst, passes]
      | true =>
          rw [List.countP_cons_of_pos passes]
          by_cases exceeds : limit ≤ xs.countP p
          · have spent : limit - xs.countP p = 0 := by omega
            have one : xs.countP p + 1 - limit = xs.countP p - limit + 1 := by omega
            simp [dropFirst, keepFirst, passes, spent, one]
          · have left : limit - xs.countP p ≠ 0 := by omega
            have none : xs.countP p + 1 - limit = 0 := by omega
            have none' : xs.countP p - limit = 0 := by omega
            simp [dropFirst, keepFirst, passes, left, none, none']

theorem dropFirst_sublist (p : α → Bool) (limit : Option Nat) (xs : List α) :
    (dropFirst p limit xs).Sublist xs := by
  induction xs generalizing limit with
  | nil => exact .slnil
  | cons x xs induction =>
      rw [dropFirst]
      split
      · exact (induction _).cons x
      · exact (induction _).cons_cons x

/-- Two tests agree on the elements that are reached before the limit. -/
def Agree (p q : α → Bool) : Option Nat → List α → Prop
  | _, [] => True
  | limit, x :: xs =>
      limit ≠ some 0 → p x = q x ∧ Agree p q (if p x then limit.map (· - 1) else limit) xs

theorem dropFirst_congr {limit : Option Nat} {xs : List α} (agree : Agree p q limit xs) :
    dropFirst p limit xs = dropFirst q limit xs := by
  induction xs generalizing limit with
  | nil => rfl
  | cons x xs induction =>
      rw [dropFirst, dropFirst]
      by_cases spent : limit = some 0
      · subst spent
        rw [if_neg (by simp), if_neg (by simp), induction]
        cases xs with
        | nil => trivial
        | cons y ys => exact fun left => absurd rfl left
      · obtain ⟨here, later⟩ := agree spent
        cases passes : q x with
        | false =>
            rw [here, passes, if_neg (by simp)] at later
            rw [if_neg (by simp [here, passes]), if_neg (by simp), induction later]
        | true =>
            rw [here, passes, if_pos rfl] at later
            rw [if_pos ⟨by rw [here, passes], spent⟩, if_pos ⟨rfl, spent⟩, induction later]

section Value

open Classical

variable {β : Type*} (value : α → β)

theorem count_dropFirst {limit : Option Nat} {xs : List α} {v : β}
    (stays : ∀ x ∈ xs, value x = v → p x = false) :
    ((dropFirst p limit xs).map value).count v = (xs.map value).count v := by
  induction xs generalizing limit with
  | nil => rfl
  | cons x xs induction =>
      have later := @induction
      rw [List.forall_mem_cons] at stays
      rw [dropFirst]
      split
      · next removed =>
          have other : value x ≠ v := fun same => by
            rw [stays.1 same] at removed
            cases removed.1
          rw [induction stays.2, List.map_cons, List.count_cons_of_ne other]
      · rw [List.map_cons, List.map_cons, List.count_cons, List.count_cons, induction stays.2]

/-- One test removes an element that the other one keeps, together with all of its value. -/
theorem dropFirst_ne {limit limit' : Option Nat} {x : α} {xs : List α}
    (stays : ∀ y ∈ xs, value y = value x → q y = false) :
    (dropFirst p limit xs).map value ≠ value x :: (dropFirst q limit' xs).map value := by
  intro same
  have fewer : ((dropFirst p limit xs).map value).count (value x) ≤
      (xs.map value).count (value x) :=
    ((dropFirst_sublist p limit xs).map value).count_le _
  have counted := congrArg (List.count (value x)) same
  rw [List.count_cons_self, count_dropFirst value stays] at counted
  omega

theorem dropFirst_eq_iff {xs : List α}
    (byValue : ∀ x ∈ xs, ∀ y ∈ xs, value x = value y → (p x = true → q x = false → q y = false) ∧
      (q x = true → p x = false → p y = false)) {limit : Option Nat} :
    (dropFirst p limit xs).map value = (dropFirst q limit xs).map value ↔ Agree p q limit xs := by
  refine ⟨fun same => ?_, fun agree => by rw [dropFirst_congr agree]⟩
  induction xs generalizing limit with
  | nil => trivial
  | cons x xs induction =>
      intro left
      have rest : ∀ {limit}, (dropFirst p limit xs).map value = (dropFirst q limit xs).map value →
          Agree p q limit xs := induction fun y yIn z zIn =>
        byValue y (List.mem_cons_of_mem x yIn) z (List.mem_cons_of_mem x zIn)
      rw [dropFirst, dropFirst] at same
      cases first : p x with
      | false =>
          rw [if_neg (by simp [first])] at same
          cases second : q x with
          | false =>
              rw [if_neg (by simp [second])] at same
              exact ⟨rfl, rest (List.cons.inj same).2⟩
          | true =>
              rw [if_pos ⟨second, left⟩] at same
              refine absurd same.symm (dropFirst_ne value fun y member equal => ?_)
              exact (byValue x List.mem_cons_self y (List.mem_cons_of_mem x member)
                equal.symm).2 second first
      | true =>
          rw [if_pos ⟨first, left⟩] at same
          cases second : q x with
          | false =>
              rw [if_neg (by simp [second])] at same
              refine absurd same (dropFirst_ne value fun y member equal => ?_)
              exact (byValue x List.mem_cons_self y (List.mem_cons_of_mem x member)
                equal.symm).1 first second
          | true =>
              rw [if_pos ⟨second, left⟩] at same
              exact ⟨rfl, rest same⟩

end Value

end ClAmiga.Removing
