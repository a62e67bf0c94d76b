import ClAmiga.Fasl.Deps

/-!
# The trailer as it is sized and written

Both runs of the walk are one fold over the entries that count, which adds up their
sizes modulo `2 ^ 32` and, with a writer, stores their bytes.
-/

namespace ClAmiga.Fasl

open Wire FaslWriter

variable {Package Symbol : Type} (registry : Registry Package Symbol)

def encodeName (name : List UInt8) : List UInt8 :=
  wr16 name.length ++ name

namespace Dependency

def encode (dep : Dependency) : List UInt8 :=
  encodeName dep.package ++ encodeName dep.name ++ wr32 dep.hash.toNat

def parts (dep : Dependency) : List (List UInt8) :=
  wr16 dep.package.length :: dep.package.map (fun char => [char]) ++
    (wr16 dep.name.length :: dep.name.map (fun char => [char])) ++ [wr32 dep.hash.toNat]

theorem flatten_singletons (chars : List UInt8) :
    (chars.map fun char => [char]).flatten = chars := by
  induction chars with
  | nil => rfl
  | cons char chars induction => simp [induction]

theorem flatten_parts (dep : Dependency) : dep.parts.flatten = dep.encode := by
  simp [parts, encode, encodeName, flatten_singletons]

@[simp] theorem length_encode (dep : Dependency) :
    dep.encode.length = 8 + dep.package.length + dep.name.length := by
  simp only [encode, encodeName, List.length_append, length_wr16, length_wr32]
  omega

end Dependency

/-- The entries that count: those of writable names, as many as the `u16` holds. -/
def entries (deps : List (Option Symbol)) : List Dependency :=
  (deps.filterMap (faslDepWritable registry)).take 0xFFFF

def encodeTrailer (entries : List Dependency) : List UInt8 :=
  if entries = [] then []
  else wr32 faslDepsMagic ++ wr16 entries.length ++ entries.flatMap Dependency.encode

theorem writes_append (w : FaslWriter) (first second : List (List UInt8)) :
    w.writes (first ++ second) = (w.writes first).bind (·.writes second) := by
  rw [writes, List.foldlM_append]
  rfl

theorem entry_eq (walk : DepsWalk) (dep : Dependency) : walk.entry dep =
      { walk with
        bytes := (walk.bytes + dep.encode.length) % 2 ^ 32
        count := walk.count + 1 }.store dep.parts := by
  obtain ⟨writer, bytes, count⟩ := walk
  have size : ((((bytes + (2 + dep.package.length)) % 2 ^ 32 +
      (2 + dep.name.length)) % 2 ^ 32 + 4) % 2 ^ 32) =
      (bytes + dep.encode.length) % 2 ^ 32 := by
    rw [Dependency.length_encode]
    omega
  rw [← size]
  cases writer with
  | none => rfl
  | some w =>
      simp only [DepsWalk.entry, DepsWalk.name, DepsWalk.hash, DepsWalk.store, Dependency.parts,
        writes_append, bind]
      cases w.writes (wr16 dep.package.length :: dep.package.map fun char => [char]) with
      | none => rfl
      | some w =>
          simp only [Option.bind_some]
          cases w.writes (wr16 dep.name.length :: dep.name.map fun char => [char]) with
          | none => rfl
          | some w =>
              cases w.writes [wr32 dep.hash.toNat] <;> rfl

theorem count_entry {walk next : DepsWalk} {dep : Dependency}
    (step : walk.entry dep = some next) : next.count = walk.count + 1 := by
  rw [entry_eq, DepsWalk.store] at step
  split at step
  · cases step
    rfl
  · split at step
    · simp at step
    · cases step
      rfl

theorem faslDepsLoop_eq (deps : List (Option Symbol)) (walk : DepsWalk) (room : Nat)
    (left : walk.count + room = 0xFFFF) :
    faslDepsLoop registry deps walk =
      ((deps.filterMap (faslDepWritable registry)).take room).foldlM DepsWalk.entry walk := by
  induction deps generalizing walk room with
  | nil => simp [faslDepsLoop]
  | cons name deps induction =>
      rw [faslDepsLoop]
      cases room with
      | zero =>
          rw [if_pos (by omega), List.take_zero]
          rfl
      | succ room =>
          rw [if_neg (by omega)]
          cases writable : faslDepWritable registry name with
          | none =>
              rw [List.filterMap_cons_none writable]
              exact induction walk (room + 1) left
          | some dep =>
              rw [List.filterMap_cons_some writable, List.take_succ_cons, List.foldlM_cons]
              dsimp only
              cases step : walk.entry dep with
              | none => rfl
              | some next =>
                  have counted := count_entry step
                  exact induction next room (by omega)

theorem foldlM_entry (deps : List Dependency) (walk : DepsWalk) (small : walk.bytes < 2 ^ 32) :
    deps.foldlM DepsWalk.entry walk =
      { walk with
        bytes := (walk.bytes + (deps.flatMap Dependency.encode).length) % 2 ^ 32
        count := walk.count + deps.length }.store (deps.flatMap Dependency.parts) := by
  induction deps generalizing walk with
  | nil =>
      obtain ⟨writer, bytes, count⟩ := walk
      have same : bytes % 2 ^ 32 = bytes := Nat.mod_eq_of_lt small
      cases writer with
      | none =>
          simp only [DepsWalk.store, List.flatMap_nil, List.length_nil, Nat.add_zero, same]
          rfl
      | some w =>
          simp only [DepsWalk.store, List.flatMap_nil, List.length_nil, Nat.add_zero, same]
          rfl
  | cons dep deps induction =>
      obtain ⟨writer, bytes, count⟩ := walk
      have size : ((bytes + dep.encode.length) % 2 ^ 32 +
          (deps.flatMap Dependency.encode).length) % 2 ^ 32 =
          (bytes + (dep.encode ++ deps.flatMap Dependency.encode).length) % 2 ^ 32 := by
        rw [List.length_append]
        omega
      have counted : count + 1 + deps.length = count + (dep :: deps).length := by
        rw [List.length_cons]
        omega
      rw [List.foldlM_cons, entry_eq, List.flatMap_cons, List.flatMap_cons]
      dsimp only
      rw [← size, ← counted]
      cases writer with
      | none => exact induction _ (Nat.mod_lt _ (by norm_num))
      | some w =>
          simp only [DepsWalk.store, writes_append]
          cases w.writes dep.parts with
          | none => rfl
          | some w => exact induction _ (Nat.mod_lt _ (by norm_num))

/-- The trailer of the names that are registered. -/
def trailer (deps : List (Option Symbol)) : List UInt8 :=
  encodeTrailer (entries registry deps)

theorem length_trailer (deps : List (Option Symbol)) : (trailer registry deps).length =
      if entries registry deps = [] then 0
      else 6 + ((entries registry deps).flatMap Dependency.encode).length := by
  rw [trailer, encodeTrailer]
  split
  · rfl
  · simp only [List.length_append, length_wr32, length_wr16]

/-- Either run of the walk counts the entries and returns the size of their trailer,
modulo `2 ^ 32`. -/
theorem faslDepsWalk_eq (writer : Option FaslWriter) (deps : List (Option Symbol)) :
    faslDepsWalk registry writer deps =
      (DepsWalk.store ⟨writer, (6 + ((entries registry deps).flatMap
          Dependency.encode).length) % 2 ^ 32, (entries registry deps).length⟩
        ((entries registry deps).flatMap Dependency.parts)).map fun walk =>
          (walk, (trailer registry deps).length % 2 ^ 32) := by
  rw [faslDepsWalk, faslDepsLoop_eq registry deps _ 0xFFFF (Nat.zero_add _), ← entries,
    foldlM_entry _ _ (show 6 < 2 ^ 32 by omega), length_trailer]
  have counted : ∀ walk : DepsWalk, walk.count = (entries registry deps).length →
      walk.bytes = (6 + ((entries registry deps).flatMap Dependency.encode).length) % 2 ^ 32 →
      (if walk.count ≠ 0 then walk.bytes else 0) =
        (if entries registry deps = [] then 0
          else 6 + ((entries registry deps).flatMap Dependency.encode).length) % 2 ^ 32 := by
    intro walk count bytes
    rw [count, bytes]
    by_cases empty : entries registry deps = []
    · simp [empty]
    · rw [if_pos (by simpa using empty), if_neg empty]
  rw [Nat.zero_add]
  cases writer with
  | none => exact congrArg some (congrArg (Prod.mk _) (counted _ rfl rfl))
  | some w =>
      simp only [DepsWalk.store]
      cases w.writes ((entries registry deps).flatMap Dependency.parts) with
      | none => rfl
      | some w => exact congrArg some (congrArg (Prod.mk _) (counted _ rfl rfl))

theorem clFaslDepsSize_eq (deps : List (Option Symbol)) :
    clFaslDepsSize registry deps = some ((trailer registry deps).length % 2 ^ 32) := by
  rw [clFaslDepsSize, faslDepsWalk_eq]
  rfl

/-- With room for the trailer the writer stores it, and flags it in the header. -/
theorem clFaslWriteDeps_stores (deps : List (Option Symbol)) {w : FaslWriter}
    (clean : w.error = none)
    (room : w.pos + (trailer registry deps).length ≤ w.data.length) :
    ∃ stored, Stores w (trailer registry deps) stored ∧ clFaslWriteDeps registry w deps =
        some (if entries registry deps = [] then w else flagDeps stored) := by
  have bounded := w.bounded
  have small : (trailer registry deps).length % 2 ^ 32 = (trailer registry deps).length :=
    Nat.mod_eq_of_lt (by omega)
  by_cases empty : entries registry deps = []
  · have nothing : trailer registry deps = [] := by rw [trailer, encodeTrailer, if_pos empty]
    refine ⟨w, by rw [nothing]; exact Stores.refl clean, ?_⟩
    rw [clFaslWriteDeps, faslDepsWalk_eq, nothing, if_pos empty]
    rfl
  · have whole : trailer registry deps = wr32 faslDepsMagic ++
        wr16 (entries registry deps).length ++
        ((entries registry deps).flatMap Dependency.parts).flatten := by
      rw [trailer, encodeTrailer, if_neg empty]
      congr 1
      rw [List.flatMap_def, List.flatMap_def, List.flatten_flatten, List.map_map]
      congr 1
      apply List.map_congr_left
      intro dep _
      exact (Dependency.flatten_parts dep).symm
    have positive : (trailer registry deps).length ≠ 0 := by
      rw [length_trailer, if_neg empty]
      omega
    have room' := room
    rw [whole, List.length_append, List.length_append] at room'
    obtain ⟨magic, magicResult, magicStores⟩ :=
      @write_of_fits w (wr32 faslDepsMagic) clean (by omega)
    obtain ⟨count, countResult, countStores⟩ :=
      @write_of_fits magic (wr16 (entries registry deps).length) magicStores.kept (by
        rw [magicStores.pos, magicStores.capacity]
        omega)
    have header := magicStores.trans countStores
    obtain ⟨stored, storedResult, storedStores⟩ :=
      @writes_of_fits count ((entries registry deps).flatMap Dependency.parts) countStores.kept (by
          rw [header.pos, header.capacity, List.length_append]
          omega)
    refine ⟨stored, by rw [whole]; exact header.trans storedStores, ?_⟩
    rw [clFaslWriteDeps, faslDepsWalk_eq, if_neg empty]
    simp only [DepsWalk.store, small, positive, if_false, Option.map_some, bind,
      Option.bind_some, clFaslWriteU32, clFaslWriteU16, magicResult, countResult,
      faslDepsWalk_eq, storedResult]

end ClAmiga.Fasl
