import Mathlib.Data.List.Nodup
import Mathlib.Logic.Relation
import Mathlib.Logic.Function.Basic

/-!
# Depth-first walks and recomputing in their order

A walk goes from a node to its successors, depth first, and skips nodes it has
visited before.  The list of visited nodes is in the order of the first visits.
Where every node has a value computed from those of the nodes it depends on, and
no node is recomputed before one it depends on, all values are up to date in the
end.
-/

namespace ClAmiga.Graph

section Visits

variable {Node : Type} [DecidableEq Node]

/-- Visit `node` and what follows from it; `none` means that the fuel, which bounds
the depth, was not enough. -/
def visit (next : Node → List Node) : Nat → List Node → Node → Option (List Node)
  | 0, _, _ => none
  | fuel + 1, visited, node =>
      if node ∈ visited then some visited
      else (next node).foldlM (fun visited successor => visit next fuel visited successor)
        (visited ++ [node])

def visitAll (next : Node → List Node) (fuel : Nat) (visited nodes : List Node) :
    Option (List Node) :=
  nodes.foldlM (visit next fuel) visited

variable {next : Node → List Node}

theorem visitAll_cons_eq_some {fuel : Nat} {visited after nodes : List Node} {node : Node} :
    visitAll next fuel visited (node :: nodes) = some after ↔
      ∃ middle, visit next fuel visited node = some middle ∧
        visitAll next fuel middle nodes = some after := by
  unfold visitAll
  rw [List.foldlM_cons, Option.bind_eq_bind, Option.bind_eq_some_iff]

theorem visit_new {fuel : Nat} {visited : List Node} {node : Node} (new : node ∉ visited) :
    visit next (fuel + 1) visited node = visitAll next fuel (visited ++ [node]) (next node) := by
  rw [visit, if_neg new]
  rfl

theorem visit_old {fuel : Nat} {visited : List Node} {node : Node}
    (old : node ∈ visited) : visit next (fuel + 1) visited node = some visited := by
  rw [visit, if_pos old]

/-- `after` continues `visited` by new nodes, each reached from one of `sources`, and
with every new node its successors are there. -/
structure Continues (next : Node → List Node) (sources visited after : List Node) :
    Prop where
  grows : visited <+: after
  covers : ∀ node ∈ sources, node ∈ after
  nodup : visited.Nodup → after.Nodup
  closed : ∀ node ∈ after, node ∉ visited → ∀ successor ∈ next node, successor ∈ after
  reached : ∀ node ∈ after, node ∉ visited →
    ∃ source ∈ sources, Relation.ReflTransGen (fun a b => b ∈ next a) source node

omit [DecidableEq Node] in
theorem Continues.nil (visited : List Node) : Continues next [] visited visited :=
  ⟨List.prefix_rfl, by simp, id, fun _ member new => absurd member new,
    fun _ member new => absurd member new⟩

theorem Continues.append {first second visited middle after : List Node}
    (early : Continues next first visited middle)
    (late : Continues next second middle after) :
    Continues next (first ++ second) visited after := by
  refine ⟨early.grows.trans late.grows, ?_, fun nodup => late.nodup (early.nodup nodup),
    ?_, ?_⟩
  · intro node member
    rcases List.mem_append.mp member with inFirst | inSecond
    · exact late.grows.subset (early.covers node inFirst)
    · exact late.covers node inSecond
  · intro node member new successor follows
    by_cases visitedEarly : node ∈ middle
    · exact late.grows.subset (early.closed node visitedEarly new successor follows)
    · exact late.closed node member visitedEarly successor follows
  · intro node member new
    by_cases visitedEarly : node ∈ middle
    · obtain ⟨source, inFirst, reaches⟩ := early.reached node visitedEarly new
      exact ⟨source, List.mem_append_left _ inFirst, reaches⟩
    · obtain ⟨source, inSecond, reaches⟩ := late.reached node member visitedEarly
      exact ⟨source, List.mem_append_right _ inSecond, reaches⟩

theorem visitAll_continues_of {fuel : Nat} {nodes visited after : List Node}
    (each : ∀ {visited after : List Node} {node : Node},
      visit next fuel visited node = some after → Continues next [node] visited after)
    (visits : visitAll next fuel visited nodes = some after) :
    Continues next nodes visited after := by
  induction nodes generalizing visited with
  | nil =>
      cases visits
      exact Continues.nil _
  | cons first rest induction =>
      obtain ⟨middle, early, late⟩ := visitAll_cons_eq_some.mp visits
      exact (each early).append (induction late)

theorem visit_continues {fuel : Nat} {visited after : List Node} {node : Node}
    (visits : visit next fuel visited node = some after) :
    Continues next [node] visited after := by
  induction fuel generalizing visited after node with
  | zero => cases visits
  | succ fuel induction =>
      by_cases old : node ∈ visited
      · rw [visit_old old] at visits
        cases visits
        exact ⟨List.prefix_rfl, by simpa using old, id, fun _ member new => absurd member new,
          fun _ member new => absurd member new⟩
      · rw [visit_new old] at visits
        have continues := visitAll_continues_of induction visits
        have nodeIn : node ∈ after := continues.grows.subset (by simp)
        refine ⟨(List.prefix_append _ _).trans continues.grows, by simpa using nodeIn, ?_,
          ?_, ?_⟩
        · intro nodup
          apply continues.nodup
          exact nodup.append (List.nodup_singleton node) (List.disjoint_singleton.mpr old)
        · intro other member new successor follows
          by_cases same : other = node
          · subst same
            exact continues.covers successor follows
          · exact continues.closed other member (by simp [new, same]) successor follows
        · intro other member new
          by_cases same : other = node
          · subst same
            exact ⟨other, by simp, .refl⟩
          · obtain ⟨source, follows, reaches⟩ :=
              continues.reached other member (by simp [new, same])
            exact ⟨node, by simp, .head follows reaches⟩

theorem visitAll_continues {fuel : Nat} {nodes visited after : List Node}
    (visits : visitAll next fuel visited nodes = some after) :
    Continues next nodes visited after :=
  visitAll_continues_of visit_continues visits

def unvisited (nodes visited : List Node) : Nat :=
  nodes.countP fun node => decide (node ∉ visited)

theorem unvisited_le {nodes visited after : List Node} (grows : visited <+: after) :
    unvisited nodes after ≤ unvisited nodes visited := by
  apply List.countP_mono_left
  intro node _ new
  simp only [decide_eq_true_eq] at new ⊢
  exact fun old => new (grows.subset old)

theorem unvisited_lt {nodes visited : List Node} {node : Node} (member : node ∈ nodes)
    (new : node ∉ visited) :
    unvisited nodes (visited ++ [node]) < unvisited nodes visited := by
  have fewer {others : List Node} : unvisited others (visited ++ [node]) ≤
      unvisited others visited := unvisited_le (List.prefix_append _ _)
  induction nodes with
  | nil => cases member
  | cons head rest induction =>
      have step (seen : List Node) : unvisited (head :: rest) seen =
          unvisited rest seen + if head ∉ seen then 1 else 0 := by
        unfold unvisited
        rw [List.countP_cons]
        simp
      rw [step, step]
      have restFewer : unvisited rest (visited ++ [node]) ≤ unvisited rest visited := fewer
      rcases List.mem_cons.mp member with rfl | inRest
      · rw [if_neg (by simp), if_pos new]
        omega
      · have restLt := induction inRest
        split
        · rename_i unseen
          rw [if_pos (by simp at unseen; exact unseen.1)]
          omega
        · omega

theorem visitAll_isSome_of {nodes : List Node} {fuel : Nat}
    (each : ∀ {visited : List Node} {node : Node}, node ∈ nodes →
      unvisited nodes visited < fuel → (visit next fuel visited node).isSome = true)
    {sources visited : List Node} (inside : ∀ source ∈ sources, source ∈ nodes)
    (enough : unvisited nodes visited < fuel) :
    (visitAll next fuel visited sources).isSome = true := by
  induction sources generalizing visited with
  | nil => rfl
  | cons first rest induction =>
      obtain ⟨middle, early⟩ :=
        Option.isSome_iff_exists.mp (each (inside first (by simp)) enough)
      have fewer : unvisited nodes middle ≤ unvisited nodes visited :=
        unvisited_le (visit_continues early).grows
      obtain ⟨after, late⟩ := Option.isSome_iff_exists.mp
        (induction (fun source member => inside source (by simp [member]))
          (Nat.lt_of_le_of_lt fewer enough))
      rw [visitAll_cons_eq_some.mpr ⟨middle, early, late⟩]
      rfl

theorem visit_isSome {nodes : List Node}
    (finite : ∀ node ∈ nodes, ∀ successor ∈ next node, successor ∈ nodes) {fuel : Nat}
    {visited : List Node} {node : Node} (inside : node ∈ nodes)
    (enough : unvisited nodes visited < fuel) :
    (visit next fuel visited node).isSome = true := by
  induction fuel generalizing visited node with
  | zero => omega
  | succ fuel induction =>
      by_cases old : node ∈ visited
      · rw [visit_old old]
        rfl
      · rw [visit_new old]
        have fewer := unvisited_lt inside old
        exact visitAll_isSome_of induction (finite node inside) (by omega)

/-- In a finite graph a walk needs no more fuel than there are nodes. -/
theorem visitAll_isSome {nodes sources : List Node}
    (finite : ∀ node ∈ nodes, ∀ successor ∈ next node, successor ∈ nodes) {fuel : Nat}
    (inside : ∀ source ∈ sources, source ∈ nodes) (enough : nodes.length < fuel) :
    (visitAll next fuel [] sources).isSome = true :=
  visitAll_isSome_of (fun inside enough => visit_isSome finite inside enough) inside
    (Nat.lt_of_le_of_lt List.countP_le_length enough)

theorem visitAll_congr_of {other : Node → List Node} {fuel : Nat} {sources visited : List Node}
    (each : ∀ source ∈ sources, ∀ visited,
      visit other fuel visited source = visit next fuel visited source) :
    visitAll other fuel visited sources = visitAll next fuel visited sources := by
  unfold visitAll
  induction sources generalizing visited with
  | nil => rfl
  | cons first rest induction =>
      rw [List.foldlM_cons, List.foldlM_cons, each first (by simp)]
      exact congrArg _ (funext fun middle =>
        induction fun source member => each source (by simp [member]))

theorem visit_congr {other : Node → List Node} {fuel : Nat} {visited : List Node}
    {node : Node} (agree : ∀ reached,
      Relation.ReflTransGen (fun a b => b ∈ next a) node reached →
        other reached = next reached) :
    visit other fuel visited node = visit next fuel visited node := by
  induction fuel generalizing visited node with
  | zero => rfl
  | succ fuel induction =>
      by_cases old : node ∈ visited
      · rw [visit_old old, visit_old old]
      · rw [visit_new old, visit_new old, agree node .refl]
        apply visitAll_congr_of
        intro source follows visited
        exact induction fun reached reaches => agree reached (.head follows reaches)

end Visits

section Values

variable {Node Value : Type} [DecidableEq Node]

/-- Replace the value of `node` by what follows from the values there are. -/
def refresh (compute : (Node → Value) → Node → Option Value) (values : Node → Value)
    (node : Node) : Option (Node → Value) :=
  (compute values node).map (Function.update values node)

/-- The value of a node depends on nothing but the values of `deps`. -/
def DependsOn (compute : (Node → Value) → Node → Option Value)
    (deps : Node → List Node) : Prop :=
  ∀ (values others : Node → Value) (node : Node),
    (∀ other ∈ deps node, values other = others other) →
      compute values node = compute others node

variable {compute : (Node → Value) → Node → Option Value} {deps : Node → List Node}

theorem refresh_other {values after : Node → Value} {node other : Node}
    (refreshed : refresh compute values node = some after) (apart : other ≠ node) :
    after other = values other := by
  obtain ⟨value, _, rfl⟩ := Option.map_eq_some_iff.mp refreshed
  exact Function.update_of_ne apart value values

theorem refresh_self {values after : Node → Value} {node : Node}
    (refreshed : refresh compute values node = some after) :
    compute values node = some (after node) := by
  obtain ⟨value, computed, rfl⟩ := Option.map_eq_some_iff.mp refreshed
  rw [computed, Function.update_self]

theorem foldlM_refresh_other {order : List Node} {values after : Node → Value}
    (run : order.foldlM (refresh compute) values = some after) {node : Node}
    (outside : node ∉ order) : after node = values node := by
  induction order generalizing values with
  | nil =>
      cases run
      rfl
  | cons first rest induction =>
      rw [List.foldlM_cons, Option.bind_eq_bind, Option.bind_eq_some_iff] at run
      obtain ⟨middle, refreshed, later⟩ := run
      rw [List.mem_cons, not_or] at outside
      exact (induction later outside.2).trans (refresh_other refreshed outside.1)

theorem foldlM_refresh_current (dependsOn : DependsOn compute deps) {order : List Node}
    {values after : Node → Value} (nodup : order.Nodup)
    (ordered : order.Pairwise fun first second => second ∉ deps first)
    (loopless : ∀ node ∈ order, node ∉ deps node)
    (run : order.foldlM (refresh compute) values = some after) :
    ∀ node ∈ order, compute after node = some (after node) := by
  induction order generalizing values with
  | nil => simp
  | cons first rest induction =>
      rw [List.foldlM_cons, Option.bind_eq_bind, Option.bind_eq_some_iff] at run
      obtain ⟨middle, refreshed, later⟩ := run
      obtain ⟨firstNew, restNodup⟩ := List.nodup_cons.mp nodup
      obtain ⟨noLater, restOrdered⟩ := List.pairwise_cons.mp ordered
      have restCurrent := induction restNodup restOrdered
        (fun node member => loopless node (by simp [member])) later
      intro node member
      rcases List.mem_cons.mp member with rfl | inRest
      · -- What the first node depends on is not recomputed after it.
        have unchanged : ∀ other ∈ deps node, after other = values other := by
          intro other dependency
          have apart : other ≠ node := fun same =>
            loopless node (by simp) (same ▸ dependency)
          have notLater : other ∉ rest := fun inRest => noLater other inRest dependency
          rw [foldlM_refresh_other later notLater, refresh_other refreshed apart]
        rw [dependsOn after values node unchanged, foldlM_refresh_other later firstNew]
        exact refresh_self refreshed
      · exact restCurrent node inRest

end Values

end ClAmiga.Graph
