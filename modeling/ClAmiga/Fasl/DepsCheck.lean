import ClAmiga.Fasl.DepsWrite

/-!
# What the check of the trailer reads

A file is taken apart as it is written: eight bytes with the flag, the number of
units, the units, then the trailer.  Each reading step of the check goes forward over
bytes that are there; it ends the check where they are not, or looks outside the
buffer where the position of a number wraps.
-/

namespace ClAmiga.Fasl

open Wire FaslReader

theorem readName_of {passed rest name : List UInt8} {r : FaslReader}
    (short : name.length < 2 ^ 16) (stands : Stands passed (encodeName name ++ rest) r) :
    ∃ r', readName r = .ok (name, r') ∧ Stands (passed ++ encodeName name) rest r' := by
  rw [encodeName, List.append_assoc] at stands
  obtain ⟨middle, result, after⟩ := clFaslReadU16_of short stands
  have left := after.left
  rw [List.length_append] at left
  have fits : name.length ≤ middle.data.length - middle.pos := by omega
  have bytes : slice middle.data middle.pos name.length = name := by
    have back := slice_append_right (passed ++ wr16 name.length) (name ++ rest) 0 name.length
    rw [Nat.add_zero, slice_front] at back
    rw [after.data, after.pos, back]
  refine ⟨middle.skip name.length fits, ?_, ?_⟩
  · simp only [readName, result, after.clean, ne_eq, not_true_eq_false, if_false, fits,
      dif_pos, bytes]
  · have skipped := after.skip fits
    rwa [List.append_assoc, ← encodeName] at skipped

theorem readName_cases {passed rest : List UInt8} {r : FaslReader} (stands : Stands passed rest r) :
    (∃ name tail, name.length < 2 ^ 16 ∧ rest = encodeName name ++ tail) ∨
    readName r = .error .accepted ∨
    (readName r = .error .outside ∧ 2 ^ 32 ≤ passed.length + 2) := by
  rcases clFaslReadU16_cases stands with
    ⟨len, tail, bound, rfl⟩ | ⟨r', result, failed⟩ | ⟨result, wraps⟩
  · obtain ⟨middle, result, after⟩ := clFaslReadU16_of bound stands
    have left := after.left
    by_cases fits : len ≤ tail.length
    · refine Or.inl ⟨tail.take len, tail.drop len, ?_, ?_⟩
      · rw [List.length_take]
        omega
      · rw [encodeName, List.length_take, min_eq_left fits, List.append_assoc,
          List.take_append_drop]
    · refine Or.inr (Or.inl ?_)
      have unfit : ¬ len ≤ middle.data.length - middle.pos := by omega
      simp only [readName, result, after.clean, ne_eq, not_true_eq_false, if_false, unfit,
        dif_neg, not_false_eq_true]
  · exact Or.inr (Or.inl (by simp only [readName, result, failed, if_true, not_false_eq_true,
      ne_eq]))
  · exact Or.inr (Or.inr ⟨by simp only [readName, result], wraps⟩)

theorem readName_outside {passed rest : List UInt8} {r : FaslReader}
    (stands : Stands passed rest r) (wraps : 2 ^ 32 ≤ passed.length + 2) :
    readName r = .error .outside := by
  have result : r.clFaslReadU16 = none := read_eq_none stands _ (by omega) wraps
  simp only [readName, result]

def Dependency.Fits (dep : Dependency) : Prop :=
  dep.package.length < 2 ^ 16 ∧ dep.name.length < 2 ^ 16

/-- The numbers of an entry: what stands before each, and its width. -/
def Dependency.numbers (dep : Dependency) : List (List UInt8 × Nat) :=
  [([], 2), (encodeName dep.package, 2), (encodeName dep.package ++ encodeName dep.name, 4)]

theorem readDependency_of {passed rest : List UInt8} {dep : Dependency} {r : FaslReader}
    (fits : dep.Fits) (stands : Stands passed (dep.encode ++ rest) r) :
    ∃ r', readDependency r = .ok (dep, r') ∧ Stands (passed ++ dep.encode) rest r' := by
  rw [Dependency.encode, List.append_assoc, List.append_assoc] at stands
  obtain ⟨first, firstResult, afterFirst⟩ := readName_of fits.1 stands
  obtain ⟨second, secondResult, afterSecond⟩ := readName_of fits.2 afterFirst
  obtain ⟨last, lastResult, afterLast⟩ := clFaslReadU32_of dep.hash.toNat_lt afterSecond
  refine ⟨last, ?_, ?_⟩
  · simp only [readDependency, firstResult, secondResult, lastResult, bind, Except.bind,
      afterLast.clean, ne_eq, not_true_eq_false, if_false, UInt32.ofNat_toNat]
  · rwa [List.append_assoc, List.append_assoc, ← List.append_assoc (encodeName dep.package),
      ← Dependency.encode] at afterLast

theorem readDependency_cases {passed rest : List UInt8} {r : FaslReader}
    (stands : Stands passed rest r) :
    (∃ (dep : Dependency) (tail : List UInt8), dep.Fits ∧ rest = dep.encode ++ tail) ∨
    readDependency r = .error .accepted ∨
    (readDependency r = .error .outside ∧ ∃ (dep : Dependency) (part : List UInt8)
      (width : Nat), dep.Fits ∧
      (part, width) ∈ dep.numbers ∧ part <+: rest ∧
      2 ^ 32 ≤ passed.length + part.length + width) := by
  rcases readName_cases stands with ⟨package, tail, short, rfl⟩ | accepted | ⟨outside, wraps⟩
  · obtain ⟨first, firstResult, afterFirst⟩ := readName_of short stands
    rcases readName_cases afterFirst with
      ⟨name, tail, shortName, rfl⟩ | accepted | ⟨outside, wraps⟩
    · obtain ⟨second, secondResult, afterSecond⟩ := readName_of shortName afterFirst
      rcases clFaslReadU32_cases afterSecond with
        ⟨hash, tail, bound, rfl⟩ | ⟨r', result, failed⟩ | ⟨result, wraps⟩
      · refine Or.inl ⟨⟨package, name, UInt32.ofNat hash⟩, tail, ⟨short, shortName⟩, ?_⟩
        have same : (UInt32.ofNat hash).toNat = hash := UInt32.toNat_ofNat_of_lt' bound
        simp only [Dependency.encode, same, List.append_assoc]
      · refine Or.inr (Or.inl ?_)
        simp only [readDependency, firstResult, secondResult, result, bind, Except.bind, failed,
          ne_eq, not_false_eq_true, if_true]
      · refine Or.inr (Or.inr ⟨?_, ⟨package, name, 0⟩,
          encodeName package ++ encodeName name, 4, ⟨short, shortName⟩,
          by simp [Dependency.numbers], ?_, ?_⟩)
        · simp only [readDependency, firstResult, secondResult, result, bind, Except.bind]
        · rw [← List.append_assoc]
          exact List.prefix_append _ _
        · rw [List.append_assoc, List.length_append] at wraps
          exact wraps
    · refine Or.inr (Or.inl ?_)
      simp only [readDependency, firstResult, accepted, bind, Except.bind]
    · refine Or.inr (Or.inr ⟨?_, ⟨package, [], 0⟩, encodeName package, 2,
        ⟨short, by simp⟩, by simp [Dependency.numbers], List.prefix_append _ _, ?_⟩)
      · simp only [readDependency, firstResult, outside, bind, Except.bind]
      · rw [List.length_append] at wraps
        exact wraps
  · exact Or.inr (Or.inl (by simp only [readDependency, accepted, bind, Except.bind]))
  · refine Or.inr (Or.inr ⟨?_, ⟨[], [], 0⟩, [], 2, ⟨by simp, by simp⟩,
      by simp [Dependency.numbers], List.nil_prefix, wraps⟩)
    simp only [readDependency, outside, bind, Except.bind]

theorem readDependency_outside {passed rest part : List UInt8} {width : Nat} {dep : Dependency}
    {r : FaslReader} (stands : Stands passed rest r) (fits : dep.Fits)
    (member : (part, width) ∈ dep.numbers) (there : part <+: rest)
    (wraps : 2 ^ 32 ≤ passed.length + part.length + width) :
    readDependency r = .error .outside := by
  obtain ⟨tail, rfl⟩ := there
  simp only [Dependency.numbers, List.mem_cons, Prod.mk.injEq, List.not_mem_nil,
    or_false] at member
  rcases member with ⟨rfl, rfl⟩ | ⟨rfl, rfl⟩ | ⟨rfl, rfl⟩
  · have outside := readName_outside stands wraps
    simp only [readDependency, outside, bind, Except.bind]
  · obtain ⟨first, firstResult, afterFirst⟩ := readName_of fits.1 stands
    have outside := readName_outside afterFirst (by rw [List.length_append]; exact wraps)
    simp only [readDependency, firstResult, outside, bind, Except.bind]
  · rw [List.append_assoc] at stands
    obtain ⟨first, firstResult, afterFirst⟩ := readName_of fits.1 stands
    obtain ⟨second, secondResult, afterSecond⟩ := readName_of fits.2 afterFirst
    have result : second.clFaslReadU32 = none := read_eq_none afterSecond _ (by omega) (by
      rw [List.append_assoc, List.length_append]
      exact wraps)
    simp only [readDependency, firstResult, secondResult, result, bind, Except.bind]

def encodeUnit (unit : List UInt8) : List UInt8 :=
  wr32 unit.length ++ unit

theorem skipUnits_of {passed rest : List UInt8} {units : List (List UInt8)} {r : FaslReader}
    (short : ∀ unit ∈ units, unit.length < 2 ^ 32) (further : Nat)
    (stands : Stands passed (units.flatMap encodeUnit ++ rest) r) :
    ∃ r', skipUnits (units.length + further) r = skipUnits further r' ∧
      Stands (passed ++ units.flatMap encodeUnit) rest r' := by
  induction units generalizing passed r with
  | nil =>
      refine ⟨r, by rw [List.length_nil, Nat.zero_add], ?_⟩
      simpa using stands
  | cons unit units induction =>
      rw [List.flatMap_cons, encodeUnit, List.append_assoc, List.append_assoc] at stands
      obtain ⟨middle, result, after⟩ := clFaslReadU32_of (short unit (by simp)) stands
      have left := after.left
      rw [List.length_append] at left
      have fits : unit.length ≤ middle.data.length - middle.pos := by omega
      obtain ⟨last, results, later⟩ := induction (fun other member =>
        short other (List.mem_cons_of_mem _ member)) (after.skip fits)
      refine ⟨last, ?_, ?_⟩
      · rw [List.length_cons, Nat.add_right_comm, skipUnits, result]
        simp only [after.clean, ne_eq, not_true_eq_false, if_false, fits, dif_pos, results]
      · simpa only [List.flatMap_cons, encodeUnit, List.append_assoc] using later

theorem skipUnits_cases {passed rest : List UInt8} {r : FaslReader} (n : Nat)
    (stands : Stands passed rest r) :
    (∃ (units : List (List UInt8)) (tail : List UInt8), units.length = n ∧
      (∀ unit ∈ units, unit.length < 2 ^ 32) ∧ rest = units.flatMap encodeUnit ++ tail) ∨
    skipUnits n r = .error .accepted ∨
    (skipUnits n r = .error .outside ∧ ∃ units : List (List UInt8), units.length < n ∧
      (∀ unit ∈ units, unit.length < 2 ^ 32) ∧ units.flatMap encodeUnit <+: rest ∧
      2 ^ 32 ≤ passed.length + (units.flatMap encodeUnit).length + 4) := by
  induction n generalizing passed rest r with
  | zero => exact Or.inl ⟨[], rest, rfl, by simp, rfl⟩
  | succ n induction =>
      rcases clFaslReadU32_cases stands with
        ⟨len, tail, bound, rfl⟩ | ⟨r', result, failed⟩ | ⟨result, wraps⟩
      · obtain ⟨middle, result, after⟩ := clFaslReadU32_of bound stands
        have left := after.left
        by_cases fits : len ≤ tail.length
        · have unit : wr32 len ++ tail = encodeUnit (tail.take len) ++ tail.drop len := by
            rw [encodeUnit, List.length_take, min_eq_left fits, List.append_assoc,
              List.take_append_drop]
          have bounded : (tail.take len).length < 2 ^ 32 := by
            rw [List.length_take]
            omega
          rw [unit] at stands ⊢
          obtain ⟨next, step, standsNext⟩ := @skipUnits_of passed (tail.drop len)
            [tail.take len] r (by simpa using bounded) n (by simpa using stands)
          rw [List.length_singleton, Nat.add_comm] at step
          rw [List.flatMap_singleton] at standsNext
          have longer : (passed ++ encodeUnit (tail.take len)).length =
              passed.length + (encodeUnit (tail.take len)).length := List.length_append
          rcases induction standsNext with
            ⟨units, last, count, short, shape⟩ | accepted |
            ⟨outside, units, count, short, there, wraps⟩
          · refine Or.inl ⟨tail.take len :: units, last, by simp [count], ?_, ?_⟩
            · exact List.forall_mem_cons.mpr ⟨bounded, short⟩
            · rw [shape, List.flatMap_cons, List.append_assoc]
          · exact Or.inr (Or.inl (step.trans accepted))
          · refine Or.inr (Or.inr ⟨step.trans outside, tail.take len :: units,
              by simpa using count, List.forall_mem_cons.mpr ⟨bounded, short⟩, ?_, ?_⟩)
            · rw [List.flatMap_cons]
              exact (List.prefix_append_right_inj _).mpr there
            · rw [List.flatMap_cons, List.length_append]
              omega
        · refine Or.inr (Or.inl ?_)
          have unfit : ¬ len ≤ middle.data.length - middle.pos := by omega
          simp only [skipUnits, result, after.clean, ne_eq, not_true_eq_false, if_false, unfit,
            dif_neg, not_false_eq_true]
      · exact Or.inr (Or.inl (by simp only [skipUnits, result, failed, ne_eq,
          not_false_eq_true, if_true]))
      · exact Or.inr (Or.inr ⟨by simp only [skipUnits, result], [], Nat.succ_pos n, by simp,
          List.nil_prefix, wraps⟩)

variable {Package Symbol : Type}

def Registry.Changed (registry : Registry Package Symbol) (dep : Dependency) : Prop :=
  ∃ current, registry.layoutHash dep.package dep.name = some current ∧ current ≠ dep.hash

variable {registry : Registry Package Symbol} {detailSize : Nat}

theorem checkEntries_succ {passed rest : List UInt8} {dep : Dependency} {r : FaslReader}
    (fits : dep.Fits) (stands : Stands passed (dep.encode ++ rest) r) (n : Nat) :
    ∃ r', Stands (passed ++ dep.encode) rest r' ∧
      (registry.Changed dep → checkEntries registry detailSize (n + 1) r =
        .rejected (detailText detailSize dep)) ∧
      (¬ registry.Changed dep → checkEntries registry detailSize (n + 1) r =
        checkEntries registry detailSize n r') := by
  obtain ⟨r', result, after⟩ := readDependency_of fits stands
  refine ⟨r', after, ?_, ?_⟩
  · rintro ⟨current, found, different⟩
    simp only [checkEntries, result, found, different, ne_eq, not_false_eq_true, if_true]
  · intro unchanged
    rw [checkEntries, result]
    dsimp only
    split
    · rfl
    · next current found =>
        rw [if_neg]
        intro different
        exact unchanged ⟨current, found, different⟩

theorem checkEntries_of {passed rest : List UInt8} {deps : List Dependency} {r : FaslReader}
    (fits : ∀ dep ∈ deps, dep.Fits) (unchanged : ∀ dep ∈ deps, ¬ registry.Changed dep)
    (further : Nat) (stands : Stands passed (deps.flatMap Dependency.encode ++ rest) r) :
    ∃ r', checkEntries registry detailSize (deps.length + further) r =
        checkEntries registry detailSize further r' ∧
      Stands (passed ++ deps.flatMap Dependency.encode) rest r' := by
  induction deps generalizing passed r with
  | nil =>
      refine ⟨r, by rw [List.length_nil, Nat.zero_add], ?_⟩
      simpa using stands
  | cons dep deps induction =>
      rw [List.flatMap_cons, List.append_assoc] at stands
      obtain ⟨middle, after, _, step⟩ := @checkEntries_succ _ _ registry detailSize _ _ _ _
        (fits dep (by simp)) stands (deps.length + further)
      obtain ⟨last, results, later⟩ := induction
        (fun other member => fits other (List.mem_cons_of_mem _ member))
        (fun other member => unchanged other (List.mem_cons_of_mem _ member)) after
      refine ⟨last, ?_, ?_⟩
      · rw [List.length_cons, Nat.add_right_comm, step (unchanged dep (by simp)), results]
      · rwa [List.flatMap_cons, ← List.append_assoc]

theorem checkEntries_rejects {passed rest : List UInt8} {deps : List Dependency}
    {r : FaslReader} {n : Nat} (fits : ∀ dep ∈ deps, dep.Fits) (room : deps.length ≤ n)
    (changed : ∃ dep ∈ deps, registry.Changed dep)
    (stands : Stands passed (deps.flatMap Dependency.encode ++ rest) r) :
    ∃ detail, checkEntries registry detailSize n r = .rejected detail := by
  induction deps generalizing passed r n with
  | nil =>
      obtain ⟨dep, member, _⟩ := changed
      simp at member
  | cons dep deps induction =>
      rw [List.flatMap_cons, List.append_assoc] at stands
      obtain ⟨n, rfl⟩ : ∃ k, n = k + 1 := ⟨n - 1, by rw [List.length_cons] at room; omega⟩
      obtain ⟨middle, after, rejects, step⟩ :=
        @checkEntries_succ _ _ registry detailSize _ _ _ _ (fits dep (by simp)) stands n
      by_cases here : registry.Changed dep
      · exact ⟨_, rejects here⟩
      · rw [step here]
        obtain ⟨other, member, later⟩ := changed
        refine induction (fun other member => fits other (List.mem_cons_of_mem _ member))
          (by rw [List.length_cons] at room; omega) ⟨other, ?_, later⟩ after
        rcases List.mem_cons.mp member with rfl | tail
        · exact absurd later here
        · exact tail

/-- How the loop ends: it accepts, it rejects a changed structure that is there, or it
looks outside the buffer after unchanged ones. -/
theorem checkEntries_cases {passed rest : List UInt8} {r : FaslReader} (n : Nat)
    (stands : Stands passed rest r) :
    checkEntries registry detailSize n r = .accepted ∨
    (∃ (deps : List Dependency) (tail : List UInt8), deps.length ≤ n ∧
      (∀ dep ∈ deps, dep.Fits) ∧ (∃ dep ∈ deps, registry.Changed dep) ∧
      rest = deps.flatMap Dependency.encode ++ tail) ∨
    (checkEntries registry detailSize n r = .outside ∧
      ∃ (deps : List Dependency) (dep : Dependency) (part : List UInt8) (width : Nat),
        deps.length < n ∧ (∀ dep ∈ deps, dep.Fits ∧ ¬ registry.Changed dep) ∧ dep.Fits ∧
        (part, width) ∈ dep.numbers ∧
        deps.flatMap Dependency.encode ++ part <+: rest ∧
        2 ^ 32 ≤ passed.length + (deps.flatMap Dependency.encode ++ part).length + width) := by
  induction n generalizing passed rest r with
  | zero => exact Or.inl rfl
  | succ n induction =>
      rcases readDependency_cases stands with
        ⟨dep, tail, fits, rfl⟩ | accepted | ⟨outside, dep, part, width, fits, member, there, wraps⟩
      · obtain ⟨middle, after, rejects, step⟩ :=
          @checkEntries_succ _ _ registry detailSize _ _ _ _ fits stands n
        by_cases here : registry.Changed dep
        · exact Or.inr (Or.inl ⟨[dep], tail, by simp, by simpa using fits,
            ⟨dep, by simp, here⟩, by simp⟩)
        · rw [step here]
          have longer : (passed ++ dep.encode).length = passed.length + dep.encode.length :=
            List.length_append
          rcases induction after with accepted |
            ⟨deps, last, room, fitsAll, ⟨other, member, changed⟩, rfl⟩ |
            ⟨outside, deps, other, part, width, room, unchanged, fitsOther, member, there, wraps⟩
          · exact Or.inl accepted
          · refine Or.inr (Or.inl ⟨dep :: deps, last, by simpa using room,
              List.forall_mem_cons.mpr ⟨fits, fitsAll⟩,
              ⟨other, List.mem_cons_of_mem _ member, changed⟩, ?_⟩)
            rw [List.flatMap_cons, List.append_assoc]
          · refine Or.inr (Or.inr ⟨outside, dep :: deps, other, part, width,
              by simpa using room, List.forall_mem_cons.mpr ⟨⟨fits, here⟩, unchanged⟩,
              fitsOther, member, ?_, ?_⟩)
            · rw [List.flatMap_cons, List.append_assoc]
              exact (List.prefix_append_right_inj _).mpr there
            · rw [List.flatMap_cons, List.append_assoc, List.length_append]
              omega
      · refine Or.inl ?_
        simp only [checkEntries, accepted]
      · refine Or.inr (Or.inr ⟨?_, [], dep, part, width, Nat.succ_pos n, by simp, fits, member,
          there, wraps⟩)
        simp only [checkEntries, outside]

theorem checkEntries_outside {passed rest part : List UInt8} {deps : List Dependency}
    {dep : Dependency} {width n : Nat} {r : FaslReader} (stands : Stands passed rest r)
    (room : deps.length < n) (fits : ∀ dep ∈ deps, dep.Fits)
    (unchanged : ∀ dep ∈ deps, ¬ registry.Changed dep) (fitsDep : dep.Fits)
    (member : (part, width) ∈ dep.numbers)
    (there : deps.flatMap Dependency.encode ++ part <+: rest)
    (wraps : 2 ^ 32 ≤ passed.length + (deps.flatMap Dependency.encode ++ part).length + width) :
    checkEntries registry detailSize n r = .outside := by
  obtain ⟨tail, rfl⟩ := there
  obtain ⟨further, rfl⟩ : ∃ k, n = deps.length + (k + 1) := ⟨n - deps.length - 1, by omega⟩
  rw [List.append_assoc] at stands
  obtain ⟨middle, results, after⟩ :=
    @checkEntries_of _ _ registry detailSize _ _ _ _ fits unchanged (further + 1) stands
  have outside := readDependency_outside after fitsDep member (List.prefix_append _ _) (by
    rw [List.length_append] at wraps ⊢
    omega)
  rw [results]
  simp only [checkEntries, outside]

end ClAmiga.Fasl
