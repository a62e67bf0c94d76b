import Mathlib.Data.List.Basic
import Mathlib.Logic.Function.Basic

/-!
# Stores one after the other

At distinct places they leave each place with its value and change no other place.
-/

namespace ClAmiga.Stores

variable {ι β : Type*} [DecidableEq ι]

def assign (f : ι → β) : List (ι × β) → ι → β
  | [] => f
  | (place, value) :: rest => assign (Function.update f place value) rest

theorem assign_of_not_mem {f : ι → β} {stores : List (ι × β)} {place : ι}
    (untouched : place ∉ stores.map Prod.fst) : assign f stores place = f place := by
  induction stores generalizing f with
  | nil => rfl
  | cons store rest induction =>
      rw [List.map_cons, List.mem_cons, not_or] at untouched
      rw [assign, induction untouched.2, Function.update_of_ne untouched.1]

theorem assign_of_mem {f : ι → β} {stores : List (ι × β)} {place : ι} {value : β}
    (distinct : (stores.map Prod.fst).Nodup) (stored : (place, value) ∈ stores) :
    assign f stores place = value := by
  induction stores generalizing f with
  | nil => cases stored
  | cons store rest induction =>
      rw [List.map_cons, List.nodup_cons] at distinct
      rcases List.mem_cons.mp stored with here | later
      · subst here
        rw [assign, assign_of_not_mem distinct.1, Function.update_self]
      · exact induction distinct.2 later

omit [DecidableEq ι] in
theorem nodup_zip {places : List ι} (distinct : places.Nodup) (values : List β) :
    ((places.zip values).map Prod.fst).Nodup := by
  induction places generalizing values with
  | nil => exact List.nodup_nil
  | cons place places induction =>
      cases values with
      | nil => exact List.nodup_nil
      | cons value values =>
          rw [List.nodup_cons] at distinct
          refine List.nodup_cons.mpr ⟨fun stored => ?_, induction distinct.2 values⟩
          obtain ⟨⟨_, later⟩, member, rfl⟩ := List.mem_map.mp stored
          exact distinct.1 (List.of_mem_zip member).1

end ClAmiga.Stores
