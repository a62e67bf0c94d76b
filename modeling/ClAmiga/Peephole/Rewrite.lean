import ClAmiga.Peephole.Decode

/-!
# Rewriting the instruction list

The patterns of the peephole pass in the order of their round, the rounds up to
a fixpoint, and the fusion into superinstructions.  A pattern at an index either
fires, with the changed list, or does not apply.
-/

namespace ClAmiga.Peephole

/-- A list of instructions with the number of rewrites applied so far. -/
abbrev Counted := List Insn × Nat

/-- The first index from `index` on that is not deleted, or the length. -/
def skipDeleted (code : List Insn) (index : Nat) : Nat :=
  index + (code.drop index).findIdx (fun insn => !insn.deleted)

/-- `peep_next_live`. -/
def nextLive (code : List Insn) (index : Nat) : Nat :=
  skipDeleted code (index + 1)

/-- `peep_next_live_unjoined`: the flag says whether the step crossed a target. -/
def nextLiveUnjoined (code : List Insn) (index : Nat) : Nat × Bool :=
  let next := nextLive code index
  (next, ((code.drop (index + 1)).take (next - index)).any Insn.target)

def Insn.isLiveJump (insn : Insn) (index : Nat) : Bool :=
  !insn.deleted && insn.jumpTarget = some index

/-- `peep_mark_targets`. -/
def markTargets (code : List Insn) : List Insn :=
  code.mapIdx fun index insn =>
    { insn with target := insn.pinned || code.any (·.isLiveJump index) }

/-- The scan of `peep_mv_write_is_dead`; `entry` holds at its first instruction
when that one may be a target. -/
def mvWriteDead : Bool → List Insn → Bool
  | _, [] => false
  | entry, insn :: later =>
      if insn.target && !entry then false
      else if insn.deleted then mvWriteDead false later
      else if insn.op.mvRead then false
      else if insn.op.mvWrite then true
      else if insn.op.unconditional then false
      else if insn.jumpTarget.isSome then false
      else mvWriteDead false later

/-- `peep_mv_write_is_dead`. -/
def mvWriteIsDead (code : List Insn) (start : Nat) (allowEntryTarget : Bool) :
    Bool :=
  mvWriteDead allowEntryTarget (code.drop start)

def Insn.remove (insn : Insn) : Insn := { insn with deleted := true }

/-- Delete a jump or whatever else may carry a target. -/
def Insn.drop (insn : Insn) : Insn :=
  { insn with deleted := true, jumpTarget := none }

def Insn.toReturn (insn : Insn) : Insn :=
  { insn with op := .opRet, jumpTarget := none, rawLen := 1, ownLen := 0 }

/-- The chase of `peep_thread_jumps` for the jump at `index`. -/
def threadJump (index : Nat) : Nat → Counted → Counted
  | 0, state => state
  | hops + 1, (code, changed) =>
      match code[index]? with
      | none => (code, changed)
      | some insn =>
          match insn.jumpTarget with
          | none => (code, changed)
          | some target =>
              match code[skipDeleted code target]? with
              | none => (code, changed)
              | some landing =>
                  if insn.op = .opJmp ∧ landing.op = .opRet ∧ insn.pinned = false then
                    (code.set index insn.toReturn, changed + 1)
                  else if landing.op ≠ .opJmp then (code, changed)
                  else
                    match landing.jumpTarget with
                    | none => (code, changed)
                    | some next =>
                        if next = target then (code, changed)
                        else
                          threadJump index hops
                            (code.set index { insn with jumpTarget := some next },
                              changed + 1)

def threadRule (index : Nat) (state : Counted) : Counted :=
  match state.1[index]? with
  | none => state
  | some insn =>
      if insn.deleted = false ∧
          (insn.op = .opJmp ∨ insn.op = .opJnil ∨ insn.op = .opJtrue) then
        threadJump index 16 state
      else state

/-- `peep_thread_jumps`. -/
def threadJumps (state : Counted) : Counted :=
  (List.range state.1.length).foldl (fun state index => threadRule index state) state

def applyRule (rule : List Insn → Nat → Option (List Insn)) (state : Counted) :
    Counted :=
  (List.range state.1.length).foldl
    (fun state index =>
      match rule state.1 index with
      | some code => (code, state.2 + 1)
      | none => state)
    state

/-- The live instruction at `index`, if its opcode is `op`. -/
def liveAt (code : List Insn) (index : Nat) (op : Opcode) : Option Insn := do
  let insn ← code[index]?
  if insn.deleted = false ∧ insn.op = op then some insn else none

/-- `peep_jump_to_next`. -/
def jumpToNext (code : List Insn) (index : Nat) : Option (List Insn) := do
  let insn ← liveAt code index .opJmp
  let target ← insn.jumpTarget
  let next := nextLive code index
  if insn.pinned = false ∧ skipDeleted code target = next ∧ next < code.length then
    some (code.set index insn.drop)
  else none

/-- The next live instruction with its index, if no target lies on the way and
its opcode is `op`. -/
def unjoined (code : List Insn) (index : Nat) (op : Opcode) : Option (Nat × Insn) := do
  let (next, joined) := nextLiveUnjoined code index
  let insn ← code[next]?
  if joined = false ∧ insn.op = op then some (next, insn) else none

def landingOf (code : List Insn) (insn : Insn) : Option (Nat × Insn) := do
  let target ← insn.jumpTarget
  let landing ← code[skipDeleted code target]?
  some (skipDeleted code target, landing)

def opAt (code : List Insn) (index : Nat) : Option Opcode :=
  code[index]?.map Insn.op

/-- `peep_return_site`: `STORE n; [POP;] JMP` to a landing that reloads the slot
and returns. -/
def returnSite (code : List Insn) (index : Nat) : Option (List Insn) := do
  let store ← liveAt code index .opStore
  let pop := unjoined code index .opPop
  let (jumpIndex, jump) ← unjoined code ((pop.map Prod.fst).getD index) .opJmp
  let (loadIndex, load) ← landingOf code jump
  let afterLoad := nextLive code loadIndex
  let reset := opAt code afterLoad = some .opMvReset
  let retIndex := if reset then nextLive code afterLoad else afterLoad
  if load.op = .opLoad ∧ load.raw[0]? = store.raw[0]? ∧
      opAt code retIndex = some .opRet then
    let storeDone :=
      if reset then { store with op := .opMvReset, rawLen := 1, ownLen := 0 }
      else store.remove
    let withStore := code.set index storeDone
    let withPop := match pop with
      | some (popIndex, insn) => withStore.set popIndex insn.remove
      | none => withStore
    some (withPop.set jumpIndex jump.toReturn)
  else none

/-- `peep_dead_store_ret`. -/
def deadStoreRet (code : List Insn) (index : Nat) : Option (List Insn) := do
  let store ← liveAt code index .opStore
  let next := nextLive code index
  let retIndex := if opAt code next = some .opMvReset then nextLive code next else next
  if opAt code retIndex = some .opRet then some (code.set index store.remove) else none

/-- One round of the loop in `peep_dead_code`, with the flag `reachable`. -/
def deadCodeStep (state : Bool × Counted) (index : Nat) : Bool × Counted :=
  let (reachable, code, changed) := state
  match code[index]? with
  | none => state
  | some insn =>
      let reachable := insn.target || reachable
      if insn.deleted then (reachable, code, changed)
      else if !reachable then (reachable, code.set index insn.drop, changed + 1)
      else (!insn.op.unconditional, code, changed)

/-- `peep_dead_code`. -/
def deadCode (state : Counted) : Counted :=
  ((List.range state.1.length).foldl deadCodeStep (true, state)).2

/-- `peep_store_reload`. -/
def storeReload (code : List Insn) (index : Nat) : Option (List Insn) := do
  let store ← liveAt code index .opStore
  let (popIndex, pop) ← unjoined code index .opPop
  let (loadIndex, load) ← unjoined code popIndex .opLoad
  if store.raw[0]? = load.raw[0]? then
    some ((code.set popIndex pop.remove).set loadIndex load.remove)
  else none

/-- `peep_pure_pop`. -/
def purePop (code : List Insn) (index : Nat) : Option (List Insn) := do
  let push ← code[index]?
  if push.deleted = false ∧ push.op.isPure = true then
    let (popIndex, pop) ← unjoined code index .opPop
    if push.op.mvWrite && !mvWriteIsDead code (nextLive code popIndex) false then none
    else some ((code.set index push.remove).set popIndex pop.remove)
  else none

/-- `peep_not_branch`. -/
def notBranch (code : List Insn) (index : Nat) : Option (List Insn) := do
  let not ← liveAt code index .opNot
  let (jumpIndex, joined) := nextLiveUnjoined code index
  let jump ← code[jumpIndex]?
  if joined = false ∧ (jump.op = .opJnil ∨ jump.op = .opJtrue) then
    let flipped := { jump with op := if jump.op = .opJnil then .opJtrue else .opJnil }
    let code := code.set jumpIndex flipped
    let writeDead := mvWriteIsDead code (nextLive code jumpIndex) false &&
      jump.jumpTarget.any fun target => mvWriteIsDead code target true
    some (code.set index
      (if writeDead then not.remove else { not with op := .opMvReset }))
  else none

/-- One round of the loop in `cl_peephole_run`. -/
def rewriteRound (code : List Insn) : Counted :=
  let threaded := applyRule jumpToNext (threadJumps (markTargets code, 0))
  let returned := applyRule returnSite (markTargets threaded.1, threaded.2)
  let reloaded := applyRule storeReload (deadCode returned)
  applyRule notBranch (applyRule purePop (applyRule deadStoreRet reloaded))

def rewriteRounds : Nat → Counted → Counted
  | 0, state => state
  | rounds + 1, (code, total) =>
      let (code, changed) := rewriteRound code
      if changed = 0 then (code, total) else rewriteRounds rounds (code, total + changed)

/-- `peep_fused_opcode3`. -/
def fusedOpcode3 : Opcode → Opcode → Opcode → Option Opcode
  | .opLoad, .opStore, .opPop => some .opLoadStorePop
  | .opGload, .opEq, .opJnil => some .opGloadEqJnil
  | _, _, _ => none

/-- The comparison bits of `CMP_BR`'s kind byte. -/
def cmpBrComparison : Opcode → Option UInt8
  | .opLt => some 0
  | .opGt => some 1
  | .opLe => some 2
  | .opGe => some 3
  | .opNumeq => some 4
  | .opChareq => some 5
  | _ => none

/-- `peep_cmp_br_kind`. -/
def cmpBrKind (comparison branch : Opcode) : Option UInt8 := do
  let kind ← cmpBrComparison comparison
  match branch with
  | .opJnil => some kind
  | .opJtrue => some (kind ||| 0x08)
  | _ => none

/-- `peep_fused_opcode`. -/
def fusedOpcode : Opcode → Opcode → Option Opcode
  | .opStore, .opPop => some .opStorePop
  | .opLoad, .opLoad => some .opLoadLoad
  | .opLoad, .opConst => some .opLoadConst
  | .opLoad, .opCallGlobal => some .opLoadCallGlobal
  | .opLoad, .opStructRef => some .opLoadStructRef
  | .opLoad, .opMvReset => some .opLoadMvReset
  | .opLoad, .opRet => some .opLoadRet
  | .opLoad, .opJnil => some .opLoadJnil
  | .opPop, .opLoad => some .opPopLoad
  | .opEq, .opJnil => some .opEqJnil
  | .opGload, .opJnil => some .opGloadJnil
  | .opGload, .opCallGlobal => some .opGloadCallGlobal
  | _, _ => none

/-- What `peep_absorb` does to the head: its operands grow by those of the
member, and a branch operand moves to it. -/
def Insn.grow (head member : Insn) : Insn :=
  { head with
    rawLen := head.rawLen + member.ownLen
    jumpTarget := if member.jumpTarget.isSome then member.jumpTarget else head.jumpTarget }

/-- What `peep_absorb` does to the member. -/
def Insn.absorbed (member : Insn) : Insn :=
  { member with deleted := true, fused := true, jumpTarget := none }

/-- The pair at `head` and `bi` becomes `fused`, with a synthesized byte for a
compare and branch. -/
def fusePair (code : List Insn) (index : Nat) (head : Insn) (bi : Nat) (b : Insn)
    (fused : Opcode) (synth : Option UInt8) : List Insn :=
  let shaped := { head with
    op := fused
    synth := synth
    rawLen := head.rawLen + (if synth.isSome then 1 else 0) }
  (code.set index { shaped.grow b with fusedWith := some bi }).set bi b.absorbed

/-- The three instructions at `index`, `bi` and `ci` become `fused`. -/
def fuseTriple (code : List Insn) (index : Nat) (head : Insn) (bi : Nat) (b : Insn)
    (ci : Nat) (c : Insn) (fused : Opcode) : List Insn :=
  let shaped := { head with op := fused }
  ((code.set index { (shaped.grow b).grow c with fusedWith := some bi }).set bi
    { b.absorbed with fusedWith := some ci }).set ci c.absorbed

/-- The pair or triple that starts at `index`: the list after fusing it, and the
index of the last member. -/
def fuseAt (code : List Insn) (index : Nat) : Option (List Insn × Nat) := do
  let head ← code[index]?
  if head.deleted then none
  else
    let (bi, joined) := nextLiveUnjoined code index
    let b ← code[bi]?
    if joined then none
    else
      let (ci, joined) := nextLiveUnjoined code bi
      let triple : Option (List Insn × Nat) := do
        let c ← code[ci]?
        if joined then none
        else
          let fused ← fusedOpcode3 head.op b.op c.op
          some (fuseTriple code index head bi b ci c fused, ci)
      let pair : Option (List Insn × Nat) :=
        match fusedOpcode head.op b.op with
        | some fused => some (fusePair code index head bi b fused none, bi)
        | none => (cmpBrKind head.op b.op).map fun kind =>
            (fusePair code index head bi b .opCmpBr (some kind), bi)
      triple <|> pair

/-- The scan of `peep_fuse` from `index` on; it resumes after the last member. -/
def fuseFrom : Nat → Nat → Counted → Counted
  | 0, _, state => state
  | fuel + 1, index, (code, changed) =>
      if index < code.length then
        match fuseAt code index with
        | some (code, last) => fuseFrom fuel (last + 1) (code, changed + 1)
        | none => fuseFrom fuel (index + 1) (code, changed)
      else (code, changed)

/-- `peep_fuse`. -/
def peepFuse (fuseEnabled : Bool) (state : Counted) : Counted :=
  if fuseEnabled then fuseFrom state.1.length 0 state else state

/-- The rewriting part of `cl_peephole_run`: at most eight rounds, then fusion
with fresh target marks. -/
def rewrite (fuseEnabled : Bool) (code : List Insn) : Counted :=
  let (settled, total) := rewriteRounds 8 (code, 0)
  peepFuse fuseEnabled (markTargets settled, total)

end ClAmiga.Peephole
