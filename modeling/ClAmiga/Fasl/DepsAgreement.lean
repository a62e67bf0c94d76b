import ClAmiga.Fasl.DepsCheck

/-!
# Sizing, writing and checking agree

The size is the length of the trailer that is written when that length is a `uint32_t`.
The check rejects a file when an entry that is there names a changed structure, without
looking whether the rest of the trailer is there, and looks outside the buffer when the
position of a number it reads wraps.
-/

namespace ClAmiga.Fasl

open Wire FaslReader FaslWriter

/-- The magic, the version and the flags of a file with a trailer. -/
structure Front where
  bytes : List UInt8
  length_eq : bytes.length = 8
  flagged : rd16 bytes 6 &&& clFaslFlagDeps ≠ 0

namespace Front

def file (front : Front) (unitCount : Nat) (units : List (List UInt8)) : List UInt8 :=
  front.bytes ++ wr32 unitCount ++ units.flatMap encodeUnit

/-- A file up to some entries of a trailer that announces `count`. -/
def announces (front : Front) (units : List (List UInt8)) (count : Nat)
    (deps : List Dependency) : List UInt8 :=
  front.file units.length units ++ wr32 faslDepsMagic ++ wr16 count ++
    deps.flatMap Dependency.encode

end Front

/-- The trailer of a file announces `count` entries, and some of them are there. -/
def Lists (data : List UInt8) (count : Nat) (deps : List Dependency) : Prop :=
  count < 2 ^ 16 ∧ deps.length ≤ count ∧ (∀ dep ∈ deps, dep.Fits) ∧
    ∃ front units, Front.announces front units count deps <+: data

def HasTrailer (data : List UInt8) (deps : List Dependency) : Prop :=
  Lists data deps.length deps

variable {Package Symbol : Type} (registry : Registry Package Symbol)

/-- The check comes to a number of a width at a position: the length of a unit, the
magic, the count, or a number of an entry behind unchanged ones. -/
inductive Awaits (data : List UInt8) : Nat → Nat → Prop where
  | unit {front : Front} {unitCount : Nat} {units : List (List UInt8)}
      (bound : unitCount < 2 ^ 32) (more : units.length < unitCount)
      (there : front.file unitCount units <+: data) :
      Awaits data (front.file unitCount units).length 4
  | magic {front : Front} {units : List (List UInt8)}
      (there : front.file units.length units <+: data) :
      Awaits data (front.file units.length units).length 4
  | count {front : Front} {units : List (List UInt8)}
      (there : front.file units.length units ++ wr32 faslDepsMagic <+: data) :
      Awaits data (front.file units.length units ++ wr32 faslDepsMagic).length 2
  | entry {front : Front} {units : List (List UInt8)} {count : Nat}
      {deps : List Dependency} {dep : Dependency} {part : List UInt8} {width : Nat}
      (bound : count < 2 ^ 16) (more : deps.length < count)
      (fits : ∀ dep ∈ deps, dep.Fits) (unchanged : ∀ dep ∈ deps, ¬ registry.Changed dep)
      (fitsDep : dep.Fits) (member : (part, width) ∈ dep.numbers)
      (there : front.announces units count deps ++ part <+: data) :
      Awaits data (front.announces units count deps ++ part).length width

variable {registry} {detailSize : Nat}

theorem length_of_prefix {part : List UInt8} {buffer : Buffer}
    (there : part <+: buffer.data) : part.length < 2 ^ 32 :=
  there.length_le.trans_lt buffer.bounded

theorem Front.length_file (front : Front) (unitCount : Nat) (units : List (List UInt8)) :
    (front.file unitCount units).length = 12 + (units.flatMap encodeUnit).length := by
  simp only [file, List.length_append, front.length_eq, length_wr32]

theorem units_short {front : Front} {unitCount : Nat} {units : List (List UInt8)}
    {buffer : Buffer} (there : front.file unitCount units <+: buffer.data) :
    units.length < 2 ^ 32 ∧ ∀ unit ∈ units, unit.length < 2 ^ 32 := by
  have whole := length_of_prefix there
  rw [front.length_file] at whole
  have each : ∀ units : List (List UInt8), units.length ≤ (units.flatMap encodeUnit).length ∧
      ∀ unit ∈ units, unit.length ≤ (units.flatMap encodeUnit).length := by
    intro units
    induction units with
    | nil => simp
    | cons unit units induction =>
        rw [List.flatMap_cons, List.length_append, encodeUnit, List.length_append, length_wr32,
          List.length_cons]
        refine ⟨by omega, List.forall_mem_cons.mpr ⟨by omega, ?_⟩⟩
        intro other member
        have := induction.2 other member
        omega
  obtain ⟨count, lengths⟩ := each units
  exact ⟨by omega, fun unit member => by have := lengths unit member; omega⟩

theorem clFaslCheckDeps_flagged {front : Front} {n : Nat} {rest : List UInt8}
    {buffer : Buffer} (bound : n < 2 ^ 32)
    (shape : buffer.data = front.bytes ++ (wr32 n ++ rest)) :
    ∃ r, Stands (front.bytes ++ wr32 n) rest r ∧ clFaslCheckDeps registry detailSize buffer =
        match skipUnits n r with
        | .error exit => exit
        | .ok r => checkTrailer registry detailSize r := by
  have size : buffer.data.length = 12 + rest.length := by
    rw [shape, List.length_append, List.length_append, front.length_eq, length_wr32]
    omega
  have flags : rd16 buffer.data 6 = rd16 front.bytes 6 := by
    have length := front.length_eq
    rw [rd16, rd16, shape, byteAt_append_left _ (by omega), byteAt_append_left _ (by omega)]
  have start : Stands front.bytes (wr32 n ++ rest)
      { data := buffer.data, pos := 8, error := none, bounded := buffer.bounded,
        inside := by omega } :=
    ⟨shape, front.length_eq.symm, rfl⟩
  obtain ⟨r, result, after⟩ := clFaslReadU32_of bound start
  refine ⟨r, after, ?_⟩
  rw [clFaslCheckDeps, dif_neg (by omega), if_neg (by rw [flags]; exact front.flagged)]
  unfold checkFile
  generalize FaslReader.clFaslReadU32 _ = found at result
  cases result
  rfl

theorem clFaslCheckDeps_split (registry : Registry Package Symbol) (detailSize : Nat)
    (buffer : Buffer) :
    clFaslCheckDeps registry detailSize buffer = .accepted ∨
    ∃ (front : Front) (n : Nat) (rest : List UInt8), n < 2 ^ 32 ∧
      buffer.data = front.bytes ++ (wr32 n ++ rest) := by
  rw [clFaslCheckDeps]
  split
  · exact Or.inl rfl
  · next long =>
      split
      · exact Or.inl rfl
      · next flagged =>
          right
          obtain ⟨n, rest, bound, shape⟩ := @exists_wr32 (buffer.data.drop 8) (by
            rw [List.length_drop]
            omega)
          have length : (buffer.data.take 8).length = 8 := by
            rw [List.length_take]
            omega
          have flags : rd16 (buffer.data.take 8) 6 = rd16 buffer.data 6 := by
            conv_rhs => rw [← List.take_append_drop 8 buffer.data]
            rw [rd16, rd16, byteAt_append_left _ (by omega), byteAt_append_left _ (by omega)]
          refine ⟨⟨buffer.data.take 8, length, by rw [flags]; exact flagged⟩, n, rest, bound, ?_⟩
          rw [← shape, List.take_append_drop]

theorem clFaslCheckDeps_units {front : Front} {unitCount : Nat} {units : List (List UInt8)}
    {rest : List UInt8} {buffer : Buffer} (bound : unitCount < 2 ^ 32)
    (room : units.length ≤ unitCount)
    (shape : buffer.data = front.file unitCount units ++ rest) :
    ∃ r, Stands (front.file unitCount units) rest r ∧ clFaslCheckDeps registry detailSize buffer =
        match skipUnits (unitCount - units.length) r with
        | .error exit => exit
        | .ok r => checkTrailer registry detailSize r := by
  obtain ⟨_, short⟩ := @units_short front unitCount units buffer (by
    rw [shape]
    exact List.prefix_append _ _)
  obtain ⟨start, after, result⟩ := @clFaslCheckDeps_flagged _ _ registry detailSize front
    unitCount (units.flatMap encodeUnit ++ rest) buffer bound (by
      rw [shape, Front.file]
      simp only [List.append_assoc])
  obtain ⟨r, skipped, later⟩ := skipUnits_of short (unitCount - units.length) after
  rw [Nat.add_sub_cancel' room] at skipped
  rw [skipped] at result
  exact ⟨r, later, result⟩

theorem clFaslCheckDeps_allUnits {front : Front} {units : List (List UInt8)}
    {rest : List UInt8} {buffer : Buffer}
    (shape : buffer.data = front.file units.length units ++ rest) :
    ∃ r, Stands (front.file units.length units) rest r ∧
      clFaslCheckDeps registry detailSize buffer = checkTrailer registry detailSize r := by
  obtain ⟨bound, _⟩ := @units_short front units.length units buffer (by
    rw [shape]
    exact List.prefix_append _ _)
  obtain ⟨r, stands, result⟩ := @clFaslCheckDeps_units _ _ registry detailSize _ _ _ _ _
    bound (le_refl _) shape
  rw [Nat.sub_self] at result
  exact ⟨r, stands, result⟩

theorem clFaslCheckDeps_entries {front : Front} {units : List (List UInt8)} {count : Nat}
    {rest : List UInt8} {buffer : Buffer} (bound : count < 2 ^ 16)
    (shape : buffer.data = front.file units.length units ++ wr32 faslDepsMagic ++
      wr16 count ++ rest) :
    ∃ r, Stands (front.file units.length units ++ wr32 faslDepsMagic ++ wr16 count) rest r ∧
      clFaslCheckDeps registry detailSize buffer = checkEntries registry detailSize count r := by
  rw [List.append_assoc, List.append_assoc] at shape
  obtain ⟨start, stands, result⟩ := @clFaslCheckDeps_allUnits _ _ registry detailSize _ _ _ _ shape
  obtain ⟨middle, magic, afterMagic⟩ :=
    clFaslReadU32_of (show faslDepsMagic < 2 ^ 32 by decide) stands
  obtain ⟨last, counted, afterCount⟩ := clFaslReadU16_of bound afterMagic
  refine ⟨last, afterCount, ?_⟩
  rw [result, checkTrailer, magic]
  simp only [ne_eq, not_true_eq_false, afterMagic.clean, or_self, if_false, counted]

theorem rejected_of_lists {buffer : Buffer} {count : Nat} {deps : List Dependency}
    (lists : Lists buffer.data count deps) (changed : ∃ dep ∈ deps, registry.Changed dep) :
    ∃ detail, clFaslCheckDeps registry detailSize buffer = .rejected detail := by
  obtain ⟨bound, room, fits, front, units, rest, shape⟩ := lists
  rw [Front.announces, List.append_assoc _ _ rest] at shape
  obtain ⟨r, stands, result⟩ :=
    @clFaslCheckDeps_entries _ _ registry detailSize _ _ _ _ _ bound shape.symm
  rw [result]
  exact checkEntries_rejects fits room changed stands

theorem accepted_of_trailer {buffer : Buffer} {deps : List Dependency}
    (trailer : HasTrailer buffer.data deps)
    (unchanged : ∀ dep ∈ deps, ¬ registry.Changed dep) :
    clFaslCheckDeps registry detailSize buffer = .accepted := by
  obtain ⟨bound, _, fits, front, units, rest, shape⟩ := trailer
  rw [Front.announces, List.append_assoc _ _ rest] at shape
  obtain ⟨r, stands, result⟩ :=
    @clFaslCheckDeps_entries _ _ registry detailSize _ _ _ _ _ bound shape.symm
  obtain ⟨last, done, _⟩ :=
    @checkEntries_of _ _ registry detailSize _ _ _ _ fits unchanged 0 stands
  rw [result]
  exact done

theorem outside_of_awaits {buffer : Buffer} {off width : Nat}
    (awaits : Awaits registry buffer.data off width) (wraps : 2 ^ 32 ≤ off + width) :
    clFaslCheckDeps registry detailSize buffer = .outside := by
  cases awaits with
  | @unit front unitCount units bound more there =>
      obtain ⟨rest, shape⟩ := there
      obtain ⟨r, stands, result⟩ := @clFaslCheckDeps_units _ _ registry detailSize _ _ _ _ _
        bound more.le shape.symm
      obtain ⟨further, left⟩ : ∃ k, unitCount - units.length = k + 1 :=
        ⟨unitCount - units.length - 1, by omega⟩
      have none : r.clFaslReadU32 = none := read_eq_none stands _ (by omega) wraps
      rw [result, left]
      simp only [skipUnits, none]
  | @magic front units there =>
      obtain ⟨rest, shape⟩ := there
      obtain ⟨r, stands, result⟩ :=
        @clFaslCheckDeps_allUnits _ _ registry detailSize _ _ _ _ shape.symm
      have none : r.clFaslReadU32 = none := read_eq_none stands _ (by omega) wraps
      rw [result]
      simp only [checkTrailer, none]
  | @count front units there =>
      obtain ⟨rest, shape⟩ := there
      rw [List.append_assoc] at shape
      obtain ⟨start, stands, result⟩ :=
        @clFaslCheckDeps_allUnits _ _ registry detailSize _ _ _ _ shape.symm
      obtain ⟨middle, magic, afterMagic⟩ :=
        clFaslReadU32_of (show faslDepsMagic < 2 ^ 32 by decide) stands
      have none : middle.clFaslReadU16 = none := read_eq_none afterMagic _ (by omega) wraps
      rw [result, checkTrailer, magic]
      simp only [ne_eq, not_true_eq_false, afterMagic.clean, or_self, if_false, none]
  | @entry front units count deps dep part width bound more fits unchanged fitsDep member there =>
      obtain ⟨rest, shape⟩ := there
      rw [Front.announces, List.append_assoc _ _ part, List.append_assoc _ _ rest] at shape
      obtain ⟨r, stands, result⟩ :=
        @clFaslCheckDeps_entries _ _ registry detailSize _ _ _ _ _ bound shape.symm
      rw [result]
      refine checkEntries_outside stands more fits unchanged fitsDep member
        (List.prefix_append _ _) ?_
      rw [Front.announces, List.append_assoc _ _ part, List.length_append] at wraps
      exact wraps

theorem clFaslCheckDeps_cases (registry : Registry Package Symbol) (detailSize : Nat)
    (buffer : Buffer) :
    clFaslCheckDeps registry detailSize buffer = .accepted ∨
    (∃ count deps, Lists buffer.data count deps ∧ ∃ dep ∈ deps, registry.Changed dep) ∨
    (∃ off width, Awaits registry buffer.data off width ∧ 2 ^ 32 ≤ off + width) := by
  rcases clFaslCheckDeps_split registry detailSize buffer with
    accepted | ⟨front, n, rest, bound, shape⟩
  · exact Or.inl accepted
  obtain ⟨start, stands, result⟩ :=
    @clFaslCheckDeps_flagged _ _ registry detailSize _ _ _ _ bound shape
  have lead : ∀ units tail, rest = units.flatMap encodeUnit ++ tail →
      front.file n units ++ tail = buffer.data := by
    intro units tail split
    rw [shape, split, Front.file]
    simp only [List.append_assoc]
  rcases skipUnits_cases n stands with
    ⟨units, tail, count, short, split⟩ | accepted | ⟨outside, units, more, short, there, wraps⟩
  · -- All units are there.
    subst count
    have whole := lead units tail split
    obtain ⟨afterUnits, stands, result⟩ :=
      @clFaslCheckDeps_allUnits _ _ registry detailSize _ _ _ _ whole.symm
    rcases clFaslReadU32_cases stands with
      ⟨magic, tail, bound, rfl⟩ | ⟨r', read, failed⟩ | ⟨read, wraps⟩
    · obtain ⟨afterMagic, read, stands⟩ := clFaslReadU32_of bound stands
      by_cases same : magic = faslDepsMagic
      · subst same
        rcases clFaslReadU16_cases stands with
          ⟨count, tail, bound, rfl⟩ | ⟨r', readCount, failed⟩ | ⟨readCount, wraps⟩
        · obtain ⟨afterCount, stands, result⟩ :=
            @clFaslCheckDeps_entries _ _ registry detailSize front units count tail buffer bound
              (by rw [← whole]; simp only [List.append_assoc])
          rcases @checkEntries_cases _ _ registry detailSize _ _ _ count stands with
            accepted | ⟨deps, last, room, fits, changed, split⟩ |
            ⟨outside, deps, dep, part, width, more, unchanged, fitsDep, member, there, wraps⟩
          · exact Or.inl (result.trans accepted)
          · refine Or.inr (Or.inl ⟨count, deps, ⟨bound, room, fits, front, units, last, ?_⟩,
              changed⟩)
            rw [← whole, split, Front.announces]
            simp only [List.append_assoc]
          · obtain ⟨last, split⟩ := there
            refine Or.inr (Or.inr ⟨(front.announces units count deps ++ part).length, width,
              .entry bound more (fun dep member => (unchanged dep member).1)
                (fun dep member => (unchanged dep member).2) fitsDep member ⟨last, ?_⟩, ?_⟩)
            · rw [← whole, ← split, Front.announces]
              simp only [List.append_assoc]
            · rw [Front.announces, List.append_assoc _ _ part, List.length_append]
              exact wraps
        · -- The count is cut off: it reads as zero.
          refine Or.inl ?_
          rw [result, checkTrailer, read]
          simp only [ne_eq, not_true_eq_false, stands.clean, or_self, if_false, readCount,
            checkEntries]
        · refine Or.inr (Or.inr ⟨_, 2, .count ⟨tail, ?_⟩, wraps⟩)
          rw [← whole, List.append_assoc]
      · refine Or.inl ?_
        rw [result, checkTrailer, read]
        simp only [ne_eq, same, not_false_eq_true, true_or, if_true]
    · refine Or.inl ?_
      rw [result, checkTrailer, read]
      simp only [failed, ne_eq, not_false_eq_true, or_true, if_true]
    · exact Or.inr (Or.inr ⟨_, 4, .magic ⟨tail, whole⟩, wraps⟩)
  · refine Or.inl ?_
    rw [result, accepted]
  · obtain ⟨tail, split⟩ := there
    refine Or.inr (Or.inr ⟨_, 4, .unit bound more ⟨tail, lead units tail split.symm⟩, ?_⟩)
    rw [Front.file, List.length_append]
    exact wraps

/-- Every writer with room for the size stores the trailer of the registered names, of
that many bytes, and flags it in the header. -/
def SizeAgrees (registry : Registry Package Symbol) (deps : List (Option Symbol)) : Prop :=
  ∀ (w : FaslWriter) (size : Nat), clFaslDepsSize registry deps = some size →
    w.error = none → w.pos + size ≤ w.data.length →
    (trailer registry deps).length = size ∧
      ∃ stored, Stores w (trailer registry deps) stored ∧
        clFaslWriteDeps registry w deps =
          some (if entries registry deps = [] then w else flagDeps stored)

/-- The check reads inside the buffer, rejects a file for a changed structure of a
well-formed trailer, and accepts every other file. -/
def CheckAgrees (registry : Registry Package Symbol) (detailSize : Nat) (buffer : Buffer) :
    Prop :=
  clFaslCheckDeps registry detailSize buffer ≠ .outside ∧
    ((∃ detail, clFaslCheckDeps registry detailSize buffer = .rejected detail) ↔
      ∃ deps, HasTrailer buffer.data deps ∧ ∃ dep ∈ deps, registry.Changed dep)

theorem sizeAgrees_iff (registry : Registry Package Symbol) (deps : List (Option Symbol)) :
    SizeAgrees registry deps ↔ (trailer registry deps).length < 2 ^ 32 := by
  have size := clFaslDepsSize_eq registry deps
  constructor
  · intro agrees
    have bound : (trailer registry deps).length % 2 ^ 32 < 2 ^ 32 := Nat.mod_lt _ (by omega)
    have roomy := agrees
      { data := List.replicate ((trailer registry deps).length % 2 ^ 32) 0
        pos := 0
        error := none
        bounded := by rw [List.length_replicate]; exact bound
        inside := Nat.zero_le _ }
      _ size rfl (by simp)
    rw [roomy.1]
    exact bound
  · intro short w other result clean room
    rw [size, Nat.mod_eq_of_lt short] at result
    cases result
    exact ⟨rfl, clFaslWriteDeps_stores registry deps clean room⟩

theorem checkAgrees_iff (registry : Registry Package Symbol) (detailSize : Nat) (buffer : Buffer) :
    CheckAgrees registry detailSize buffer ↔
      (∀ off width, Awaits registry buffer.data off width → off + width < 2 ^ 32) ∧
      ∀ count deps, Lists buffer.data count deps → (∃ dep ∈ deps, registry.Changed dep) →
        ∃ all, HasTrailer buffer.data all := by
  constructor
  · rintro ⟨inside, rejects⟩
    refine ⟨?_, ?_⟩
    · intro off width awaits
      by_contra wraps
      exact inside (outside_of_awaits awaits (by omega))
    · intro count deps lists changed
      obtain ⟨all, trailer, _⟩ := rejects.mp (rejected_of_lists lists changed)
      exact ⟨all, trailer⟩
  · rintro ⟨near, whole⟩
    rcases clFaslCheckDeps_cases registry detailSize buffer with
      accepted | ⟨count, deps, lists, changed⟩ | ⟨off, width, awaits, wraps⟩
    · refine ⟨by simp [accepted], ?_, ?_⟩
      · rintro ⟨detail, rejected⟩
        simp [accepted] at rejected
      · rintro ⟨deps, trailer, changed⟩
        exact rejected_of_lists trailer changed
    · obtain ⟨detail, rejected⟩ := @rejected_of_lists _ _ _ detailSize _ _ _ lists changed
      refine ⟨by simp [rejected], ?_, fun _ => ⟨detail, rejected⟩⟩
      intro _
      obtain ⟨all, trailer⟩ := whole count deps lists changed
      refine ⟨all, trailer, ?_⟩
      -- Were they all unchanged, the file would be accepted.
      by_contra none
      have accepted := @accepted_of_trailer _ _ registry detailSize _ _ trailer
        (fun dep member changed => none ⟨dep, member, changed⟩)
      simp [rejected] at accepted
    · have := near off width awaits
      omega

/-- The size, the writer and the check agree for a trailer of less than `2 ^ 32` bytes and
a file that is not cut off behind a changed structure, nor within the last bytes of the
address range. -/
theorem deps_agree_iff (registry : Registry Package Symbol) (deps : List (Option Symbol))
    (detailSize : Nat) (buffer : Buffer) :
    (SizeAgrees registry deps ∧ CheckAgrees registry detailSize buffer) ↔
      (trailer registry deps).length < 2 ^ 32 ∧
      (∀ off width, Awaits registry buffer.data off width → off + width < 2 ^ 32) ∧
      ∀ count listed, Lists buffer.data count listed →
        (∃ dep ∈ listed, registry.Changed dep) → ∃ all, HasTrailer buffer.data all := by
  rw [sizeAgrees_iff, checkAgrees_iff]

/-- One structure `A::B`, whose layout hash is 1. -/
def oneStructure : Registry Unit Unit where
  package _ := some ()
  packageName _ := some [0x41]
  symbolName _ := some [0x42]
  clStructLayoutHash _ := some 1
  clFindPackage name := if name = [0x41] then some () else none
  clPackageFindSymbol name _ := if name = [0x42] then some () else none

/-- A file without units, whose trailer announces two entries and ends after the first,
`A::B` with the hash 0. -/
def cutFile : Buffer where
  data := [0x43, 0x4C, 0x46, 0x41, 0, 40, 0, 1, 0, 0, 0, 0, 0x44, 0x45, 0x50, 0x53, 0, 2,
    0, 1, 0x41, 0, 1, 0x42, 0, 0, 0, 0]
  bounded := by decide

/-- A file that is cut off inside its trailer is rejected. -/
theorem cutFile_rejected : ¬ ∀ (Package Symbol : Type) (registry : Registry Package Symbol)
      (deps : List (Option Symbol)) (detailSize : Nat) (buffer : Buffer),
      SizeAgrees registry deps ∧ CheckAgrees registry detailSize buffer := by
  intro always
  obtain ⟨_, _, agrees⟩ := always Unit Unit oneStructure [] 0 cutFile
  obtain ⟨deps, ⟨bound, _, _, front, units, there⟩, _⟩ := agrees.mp ⟨[], by decide⟩
  obtain ⟨rest, shape⟩ := there
  have length := front.length_eq
  obtain ⟨unitsBound, _⟩ := @units_short front units.length units cutFile
    ⟨wr32 faslDepsMagic ++ (wr16 deps.length ++ (deps.flatMap Dependency.encode ++ rest)), by
      rw [← shape, Front.announces]
      simp only [List.append_assoc]⟩
  have unitCount : rd32 cutFile.data 8 = units.length := by
    rw [← shape, ← length, Front.announces, Front.file]
    simp only [List.append_assoc]
    exact rd32_wr32 unitsBound _ _
  have noUnits : units = [] := List.length_eq_zero_iff.mp (unitCount.symm.trans (by decide))
  subst noUnits
  have count : rd16 cutFile.data 16 = deps.length := by
    have lead : (front.bytes ++ wr32 0 ++ wr32 faslDepsMagic).length = 16 := by
      simp [length]
    rw [← shape, ← lead, Front.announces, Front.file]
    simp only [List.flatMap_nil, List.append_nil, List.length_nil, List.append_assoc]
    have back := rd16_wr16 bound (front.bytes ++ wr32 0 ++ wr32 faslDepsMagic)
      (deps.flatMap Dependency.encode ++ rest)
    simpa only [List.append_assoc] using back
  have two : deps.length = 2 := count.symm.trans (by decide)
  have total := congrArg List.length shape
  match deps, two with
  | [first, second], _ =>
      simp [Front.announces, Front.file, length, cutFile] at total
      omega

end ClAmiga.Fasl
