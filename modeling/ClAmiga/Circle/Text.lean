import ClAmiga.Circle.Follow
import ClAmiga.Labels.ReadSteps

/-!
# Texts and the graphs they describe

A datum is a text without its layout.  It describes the graph below an object when each of
its lists and vectors is a node with the parts of that node, a label names the node written
behind it, and a reference stands for the node its label names.
-/

namespace ClAmiga.Circle

open Labels (Datum Rest Items)
open ClAmiga.Graph (Found OnPath Multiple)

mutual

def datumTokens : Datum → List Token
  | .nil => [.atom 0]
  | .atom value => [.atom (UInt32.ofNat value)]
  | .list first rest => .openList :: (datumTokens first ++ restTokens rest) ++ [.close]
  | .vector elements => .openVector :: itemsTokens elements ++ [.close]
  | .struct arguments => itemsTokens arguments
  | .label n datum => .define n :: datumTokens datum
  | .reference n => [.refer n]

def restTokens : Rest → List Token
  | .close => []
  | .dot datum => .dot :: datumTokens datum
  | .more datum rest => datumTokens datum ++ restTokens rest

def itemsTokens : Items → List Token
  | .none => []
  | .more datum items => datumTokens datum ++ itemsTokens items

end

mutual

theorem not_mem_datumTokens : ∀ datum : Datum, Token.spaceEllipsis ∉ datumTokens datum
  | .nil => by simp [datumTokens]
  | .atom value => by simp [datumTokens]
  | .list first rest => by
      have inFirst := not_mem_datumTokens first
      have inRest := not_mem_restTokens rest
      simp [datumTokens, inFirst, inRest]
  | .vector elements => by
      have inside := not_mem_itemsTokens elements
      simp [datumTokens, inside]
  | .struct arguments => by
      rw [datumTokens]
      exact not_mem_itemsTokens arguments
  | .label n datum => by
      have inside := not_mem_datumTokens datum
      simp [datumTokens, inside]
  | .reference n => by simp [datumTokens]

theorem not_mem_restTokens : ∀ rest : Rest, Token.spaceEllipsis ∉ restTokens rest
  | .close => by simp [restTokens]
  | .dot datum => by
      have inside := not_mem_datumTokens datum
      simp [restTokens, inside]
  | .more datum rest => by
      have inFirst := not_mem_datumTokens datum
      have inRest := not_mem_restTokens rest
      simp [restTokens, inFirst, inRest]

theorem not_mem_itemsTokens : ∀ items : Items, Token.spaceEllipsis ∉ itemsTokens items
  | .none => by simp [itemsTokens]
  | .more datum items => by
      have inFirst := not_mem_datumTokens datum
      have inRest := not_mem_itemsTokens items
      simp [itemsTokens, inFirst, inRest]

end

def Token.visible : Token → Bool
  | space => false
  | newline _ => false
  | _ => true

def shown (text : List Token) : List Token :=
  (text.filter Token.visible).reverse

@[simp] theorem shown_cons (token : Token) (text : List Token) :
    shown (token :: text) = shown text ++ if token.visible then [token] else [] := by
  rw [shown, List.filter_cons]
  split
  · simp [shown]
  · simp [shown]

mutual

/-- The datum describes the graph below an object; the list is that of the nodes written
out. -/
def Describes (heap : Heap) (env : Nat → Option Obj) : Datum → Obj → List Obj → Prop
  | .nil, obj, nodes => obj = 0 ∧ nodes = []
  | .atom value, obj, nodes =>
      obj ≠ 0 ∧ heap.cell obj = none ∧ value = obj.toNat ∧ nodes = []
  | .list first rest, obj, nodes => ∃ car cdr firsts others,
      heap.cell obj = some (.cons car cdr) ∧ Describes heap env first car firsts ∧
        DescribesRest heap env rest cdr others ∧ nodes = obj :: (firsts ++ others)
  | .vector elements, obj, nodes => ∃ elts others,
      heap.cell obj = some (.vector elts) ∧ DescribesItems heap env elements elts others ∧
        nodes = obj :: others
  | .struct _, _, _ => False
  | .label n datum, obj, nodes =>
      env n = some obj ∧ nodes.head? = some obj ∧ Describes heap env datum obj nodes
  | .reference n, obj, nodes => env n = some obj ∧ nodes = []

def DescribesRest (heap : Heap) (env : Nat → Option Obj) : Rest → Obj → List Obj → Prop
  | .close, obj, nodes => obj = 0 ∧ nodes = []
  | .dot datum, obj, nodes => obj ≠ 0 ∧ Describes heap env datum obj nodes
  | .more datum rest, obj, nodes => ∃ car cdr firsts others,
      heap.cell obj = some (.cons car cdr) ∧ Describes heap env datum car firsts ∧
        DescribesRest heap env rest cdr others ∧ nodes = obj :: (firsts ++ others)

def DescribesItems (heap : Heap) (env : Nat → Option Obj) : Items → List Obj → List Obj → Prop
  | .none, objs, nodes => objs = [] ∧ nodes = []
  | .more datum items, objs, nodes => ∃ obj objects firsts others, objs = obj :: objects ∧
      Describes heap env datum obj firsts ∧ DescribesItems heap env items objects others ∧
        nodes = firsts ++ others

end

/-- A text describes the graph of an object: its lists and vectors are the nodes of the
graph, each written once; it defines a label for each node with more than one reference and
for no other, never the same label twice, and refers to a label only behind its definition. -/
def TextDescribes (heap : Heap) (root : Obj) (text : List Token) : Prop :=
  ∃ (datum : Datum) (env : Nat → Option Obj) (nodes : List Obj) (labels : List Nat),
    text.filter Token.visible = datumTokens datum ∧ Describes heap env datum root nodes ∧
      nodes.Nodup ∧
      (∀ obj, obj ∈ nodes ↔ heap.circleCompoundP root = true ∧ OnPath heap.next root obj) ∧
      datum.scoped [] = some labels ∧ labels.Nodup ∧
      (∀ n ∈ labels, ∃ obj, env n = some obj) ∧
      (∀ first ∈ labels, ∀ second ∈ labels, env first = env second → first = second) ∧
      ∀ obj, (∃ n ∈ labels, env n = some obj) ↔ obj ∈ nodes ∧ Multiple heap.next root obj

section Growing

variable {heap : Heap} {settings : Settings}

theorem text_put (printer : Printer) (token : Token) :
    (printer.put heap token).text = token :: printer.text :=
  rfl

@[simp] theorem text_pushIndent (printer : Printer) :
    (printer.pushIndent settings).text = printer.text := by
  rw [Printer.pushIndent]
  split <;> rfl

@[simp] theorem text_popIndent (printer : Printer) :
    (printer.popIndent settings).text = printer.text := by
  rw [Printer.popIndent]
  split <;> rfl

theorem text_separate (printer : Printer) : ∃ token, token.visible = false ∧
      (printer.separate heap settings).text = token :: printer.text := by
  rw [Printer.separate]
  split
  · exact ⟨_, rfl, rfl⟩
  · exact ⟨_, rfl, rfl⟩

def Appends (print : Obj → Printer → Option Printer) : Prop :=
  ∀ obj printer after, print obj printer = some after → printer.text <:+ after.text

theorem suffix_put (heap : Heap) (printer : Printer) (token : Token) :
    printer.text <:+ (printer.put heap token).text :=
  List.suffix_cons token printer.text

theorem suffix_separate (printer : Printer) :
    printer.text <:+ (printer.separate heap settings).text := by
  obtain ⟨token, _, same⟩ := @text_separate heap settings printer
  rw [same]
  exact List.suffix_cons token printer.text

variable {print : Obj → Printer → Option Printer}

theorem printRest_appends (appends : Appends print) (fuel : Nat) :
    ∀ (count : Int) (obj : Obj) (printer after : Printer),
      printRest heap settings print fuel count obj printer = some after →
      printer.text <:+ after.text := by
  have stopped : ∀ (obj : Obj) (printer after : Printer),
      (if obj = 0 then some printer else print obj (printer.put heap .dot)) = some after →
      printer.text <:+ after.text := by
    intro obj printer after printed
    split at printed
    · cases printed
      exact List.suffix_refl _
    · exact (suffix_put heap printer .dot).trans (appends _ _ _ printed)
  induction fuel with
  | zero =>
      intro count obj printer after printed
      rw [printRest.eq_def] at printed
      split at printed
      · split at printed
        · cases printed
          exact suffix_put heap printer .spaceEllipsis
        · split at printed
          · exact (suffix_put heap printer .dot).trans (appends _ _ _ printed)
          · cases printed
      · exact stopped obj printer after printed
  | succ fuel induction =>
      intro count obj printer after printed
      rw [printRest.eq_def] at printed
      split at printed
      · split at printed
        · cases printed
          exact suffix_put heap printer .spaceEllipsis
        · split at printed
          · exact (suffix_put heap printer .dot).trans (appends _ _ _ printed)
          · obtain ⟨middle, first, rest⟩ := Option.bind_eq_some_iff.mp printed
            exact ((suffix_separate printer).trans (appends _ _ _ first)).trans
              (induction _ _ _ _ rest)
      · exact stopped obj printer after printed

theorem printElements_appends (appends : Appends print) (elts : List Obj) :
    ∀ (i : Nat) (printer after : Printer),
      printElements heap settings print i elts printer = some after →
      printer.text <:+ after.text := by
  induction elts with
  | nil =>
      intro i printer after printed
      rw [printElements] at printed
      cases printed
      exact List.suffix_refl _
  | cons elt elts induction =>
      intro i printer after printed
      rw [printElements] at printed
      split at printed
      · cases printed
        exact suffix_put heap printer .ellipsis
      · obtain ⟨middle, first, rest⟩ := Option.bind_eq_some_iff.mp printed
        have grown : printer.text <:+
            (if 0 < i then printer.separate heap settings else printer).text := by
          split
          · exact suffix_separate printer
          · exact List.suffix_refl _
        exact (grown.trans (appends _ _ _ first)).trans (induction _ _ _ rest)

theorem suffix_circleCheck (obj : Obj) (printer : Printer) :
    printer.text <:+ (printer.circleCheck heap obj).2.text := by
  rw [Printer.circleCheck]
  split
  · exact List.suffix_refl _
  · split
    · exact List.suffix_refl _
    · split
      · exact List.suffix_refl _
      · split
        · exact suffix_put heap printer _
        · split
          · exact suffix_put heap printer _
          · exact List.suffix_refl _

theorem printObj_appends (fuel room : Nat) : Appends (printObj heap settings fuel room) := by
  induction room with
  | zero =>
      intro obj printer after printed
      cases printed
      exact suffix_put heap printer .ellipsis
  | succ room induction =>
      intro obj printer after printed
      have checked := @suffix_circleCheck heap obj printer
      rw [printObj] at printed
      split at printed
      · cases printed
        exact checked
      · refine checked.trans ?_
        generalize (printer.circleCheck heap obj).2 = start at printed
        split at printed
        · cases printed
          exact suffix_put heap start _
        · rw [printList] at printed
          split at printed
          · cases printed
            exact suffix_put heap start _
          · obtain ⟨last, inner, rfl⟩ := Option.map_eq_some_iff.mp printed
            refine List.IsSuffix.trans ?_ (suffix_put heap _ _)
            rw [text_popIndent]
            refine List.IsSuffix.trans (suffix_put heap start .openList) ?_
            split at inner
            · cases inner
              have opened :=
                suffix_put heap ((start.put heap .openList).pushIndent settings) .ellipsis
              rwa [text_pushIndent] at opened
            · obtain ⟨middle, first, rest⟩ := Option.bind_eq_some_iff.mp inner
              have opened := induction _ _ _ first
              rw [text_pushIndent] at opened
              exact opened.trans (printRest_appends induction fuel _ _ _ _ rest)
        · rw [printVector] at printed
          split at printed
          · cases printed
            exact suffix_put heap start _
          · split at printed
            · cases printed
              exact suffix_put heap start _
            · obtain ⟨last, inner, rfl⟩ := Option.map_eq_some_iff.mp printed
              refine List.IsSuffix.trans ?_ (suffix_put heap _ _)
              rw [text_popIndent]
              have opened := printElements_appends induction _ _ _ _ inner
              rw [text_pushIndent] at opened
              exact (suffix_put heap start .openVector).trans opened

end Growing

end ClAmiga.Circle
