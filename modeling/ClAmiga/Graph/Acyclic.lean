import Mathlib.Data.Finset.Card
import Mathlib.Logic.Relation
import Mathlib.Order.WellFounded

/-!
# Nodes that lead to no cycle

In a graph where finitely many nodes have successors, a node from which no cycle can be reached is
accessible: each step leaves a node behind that is not reached again.
-/

namespace ClAmiga.Graph

variable {Node : Type} {next : Node → List Node}

def Edge (next : Node → List Node) (node successor : Node) : Prop :=
  successor ∈ next node

def Reach (next : Node → List Node) : Node → Node → Prop :=
  Relation.ReflTransGen (Edge next)

def LeadsToNoCycle (next : Node → List Node) (node : Node) : Prop :=
  ∀ other, Reach next node other → ¬ Relation.TransGen (Edge next) other other

theorem LeadsToNoCycle.step {node successor : Node} (none : LeadsToNoCycle next node)
    (edge : successor ∈ next node) : LeadsToNoCycle next successor :=
  fun other reached => none other (.head edge reached)

theorem LeadsToNoCycle.mono {next' : Node → List Node} {node : Node}
    (none : LeadsToNoCycle next node) (sub : ∀ node, next' node ⊆ next node) :
    LeadsToNoCycle next' node := by
  intro other reached cycle
  have edges : ∀ node successor, Edge next' node successor → Edge next node successor :=
    fun node _ edge => sub node edge
  exact none other (Relation.ReflTransGen.mono edges _ _ reached)
    (Relation.TransGen.mono edges _ _ cycle)

noncomputable def reached (next : Node → List Node) (support : Finset Node) (node : Node) :
    Finset Node :=
  letI := Classical.decPred fun other => Reach next node other
  support.filter fun other => Reach next node other

variable {support : Finset Node}

theorem mem_reached {node other : Node} :
    other ∈ reached next support node ↔ other ∈ support ∧ Reach next node other := by
  classical
  exact Finset.mem_filter

theorem reached_step (covers : ∀ node, next node ≠ [] → node ∈ support)
    {node successor : Node} (none : LeadsToNoCycle next node) (edge : successor ∈ next node) :
    (reached next support successor).card < (reached next support node).card := by
  refine Finset.card_lt_card (Finset.ssubset_iff_of_subset ?_ |>.mpr ⟨node, ?_, ?_⟩)
  · intro other member
    obtain ⟨inside, path⟩ := mem_reached.mp member
    exact mem_reached.mpr ⟨inside, .head edge path⟩
  · exact mem_reached.mpr ⟨covers node (List.ne_nil_of_mem edge), .refl⟩
  · intro member
    obtain ⟨-, path⟩ := mem_reached.mp member
    exact none node .refl (.head' edge path)

theorem LeadsToNoCycle.acc (covers : ∀ node, next node ≠ [] → node ∈ support) {node : Node}
    (none : LeadsToNoCycle next node) :
    Acc (fun successor node => successor ∈ next node) node := by
  induction size : (reached next support node).card using Nat.strong_induction_on
    generalizing node with
  | h size' induction =>
      refine ⟨_, fun successor edge => ?_⟩
      have fewer := reached_step covers none edge
      exact induction _ (size ▸ fewer) (none.step edge) rfl

/-- The nodes on the way up from a node, each the chosen successor of the one before. -/
inductive Climb (choice : Node → Option Node) : Option Node → List Node → Prop
  | top : Climb choice none []
  | step {node : Node} {nodes : List Node} (rest : Climb choice (choice node) nodes) :
      Climb choice (some node) (node :: nodes)

/-- A loop that visits these nodes. There is no result if the rounds are used up before the top. -/
def climbFold {State : Type} (choice : Node → Option Node) (visit : State → Node → State) :
    Nat → Option Node → State → Option State
  | _, none, state => some state
  | 0, some _, _ => none
  | rounds + 1, some node, state => climbFold choice visit rounds (choice node) (visit state node)

/-- A loop that visits these nodes up to the first at which something is found. -/
def climbFind {Found : Type} (choice : Node → Option Node) (find : Node → Option Found) :
    Nat → Option Node → Option (Option Found)
  | _, none => some none
  | 0, some _ => none
  | rounds + 1, some node =>
      match find node with
      | some found => some (some found)
      | none => climbFind choice find rounds (choice node)

section

variable {choice : Node → Option Node} {start : Option Node} {nodes : List Node}

theorem Climb.fold {State : Type} {visit : State → Node → State} (climb : Climb choice start nodes)
    {rounds : Nat} (enough : nodes.length ≤ rounds) (state : State) :
    climbFold choice visit rounds start state = some (nodes.foldl visit state) := by
  induction climb generalizing rounds state with
  | top => cases rounds <;> rfl
  | step rest induction =>
      obtain _ | rounds := rounds
      · exact absurd enough (by simp)
      · exact induction (Nat.le_of_succ_le_succ enough) _

theorem Climb.find {Found : Type} {find : Node → Option Found} (climb : Climb choice start nodes)
    {rounds : Nat} (enough : nodes.length ≤ rounds) :
    climbFind choice find rounds start = some (nodes.findSome? find) := by
  induction climb generalizing rounds with
  | top => cases rounds <;> rfl
  | @step node nodes rest induction =>
      obtain _ | rounds := rounds
      · exact absurd enough (by simp)
      · rw [climbFind, List.findSome?_cons]
        cases find node with
        | some found => rfl
        | none => exact induction (Nat.le_of_succ_le_succ enough)

theorem LeadsToNoCycle.climb (covers : ∀ node, choice node ≠ none → node ∈ support) {node : Node}
    (acyclic : LeadsToNoCycle (fun node => (choice node).toList) node) :
    ∃ nodes, Climb choice (some node) nodes := by
  have covered : ∀ node, (choice node).toList ≠ [] → node ∈ support :=
    fun node chosen => covers node fun none => chosen (by rw [none]; rfl)
  have acc := acyclic.acc covered
  induction acc with
  | intro node _ induction =>
      cases next : choice node with
      | none => exact ⟨[node], .step (next ▸ .top)⟩
      | some successor =>
          have edge : successor ∈ (choice node).toList := by simp [next]
          obtain ⟨nodes, rest⟩ := induction successor edge (acyclic.step edge)
          exact ⟨node :: nodes, .step (next ▸ rest)⟩

end

end ClAmiga.Graph
