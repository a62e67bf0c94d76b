import ClAmiga.Circle.Walk

/-!
# Printing conses and vectors with labels

The first time a shared node is printed its label is defined, and from then on only
referred to.  A list is printed along its cdrs; a shared cons among them is printed behind a
dot.  Below 64 levels, an ellipsis stands for every object.

The text is a list of tokens.  The table of pretty-print functions is empty.
-/

namespace ClAmiga.Circle

inductive Token where
  | openList
  | openVector
  | close
  | space
  | newline (indent : Nat)
  | dot
  | ellipsis
  | spaceEllipsis
  | level
  | noVector
  | atom (obj : Obj)
  | define (label : Int)
  | refer (label : Int)
deriving DecidableEq, Repr

def Token.text (heap : Heap) : Token → String
  | openList => "("
  | openVector => "#("
  | close => ")"
  | space => " "
  | newline indent => "\n" ++ String.ofList (List.replicate indent ' ')
  | dot => " . "
  | ellipsis => "..."
  | spaceEllipsis => " ..."
  | level => "#"
  | noVector => "#<VECTOR>"
  | atom obj => heap.text obj
  | define label => "#" ++ toString label ++ "="
  | refer label => "#" ++ toString label ++ "#"

/-- `*print-level*` and `*print-length*`, negative for no limit, `*print-pretty*`, the right
margin and `*print-array*`. -/
structure Settings where
  level : Int
  length : Int
  pretty : Bool
  margin : Int
  array : Bool

/-- `*print-level*` is reached at a depth. -/
def Settings.cuts (settings : Settings) (depth : Nat) : Prop :=
  0 ≤ settings.level ∧ settings.level ≤ depth

instance (settings : Settings) (depth : Nat) : Decidable (settings.cuts depth) :=
  inferInstanceAs (Decidable (_ ∧ _))

/-- The table, the text so far with its last token first, `current_column` and
`pp_indent_stack` from its top down. -/
structure Printer where
  table : Table
  text : List Token
  column : Nat
  indents : List Nat

namespace Printer

/-- `current_column` after a character. -/
def advance (column : Nat) (ch : Char) : Nat :=
  if ch = '\n' then 0 else column + 1

def put (heap : Heap) (token : Token) (printer : Printer) : Printer :=
  { printer with
    text := token :: printer.text
    column := (token.text heap).toList.foldl advance printer.column }

/-- A new line if the right margin is reached, and a space otherwise. -/
def separate (heap : Heap) (settings : Settings) (printer : Printer) : Printer :=
  if settings.pretty ∧ settings.margin ≤ printer.column then
    -- `pp_newline_indent`
    printer.put heap (.newline (printer.indents.head?.getD 0))
  else
    printer.put heap .space

/-- `PP_INDENT_MAX`. -/
def indentMax : Nat := 32

def pushIndent (settings : Settings) (printer : Printer) : Printer :=
  if settings.pretty ∧ printer.indents.length < indentMax then
    { printer with indents := printer.column :: printer.indents }
  else
    printer

def popIndent (settings : Settings) (printer : Printer) : Printer :=
  if settings.pretty ∧ 0 < printer.indents.length then
    { printer with indents := printer.indents.tail }
  else
    printer

/-- `circle_check`. -/
def circleCheck (heap : Heap) (obj : Obj) (printer : Printer) : Int × Printer :=
  if heap.circleCompoundP obj = false then
    (0, printer)
  else
    match circleVal printer.table obj with
    | none => (0, printer)
    | some val =>
        if val = 0 then
          (0, printer)
        else if val < 0 then
          (-1, printer.put heap (.refer (-val - 2)))
        else if 2 ≤ val then
          let printer := printer.put heap (.define (val - 2))
          (1, { printer with table := setCircleVal printer.table obj (-val) })
        else
          (0, printer)

/-- The check for a cdr: the table has the object, and not as one seen once. -/
def circleCdr (obj : Obj) (printer : Printer) : Bool :=
  match circleVal printer.table obj with
  | some val => val != 0
  | none => false

end Printer

/-- `CL_PRINT_HARD_CAP`. -/
def printHardCap : Nat := 64

section Contents

variable (heap : Heap) (settings : Settings) (print : Obj → Printer → Option Printer)

/-- `print_list` behind the first car.  The cdrs are followed as long as there is fuel. -/
def printRest (fuel : Nat) (count : Int) (obj : Obj) (printer : Printer) : Option Printer :=
  match heap.cell obj with
  | some (.cons car cdr) =>
      if 0 ≤ settings.length ∧ settings.length ≤ count then
        some (printer.put heap .spaceEllipsis)
      else if printer.circleCdr obj then
        print obj (printer.put heap .dot)
      else
        match fuel with
        | 0 => none
        | fuel + 1 =>
            (print car (printer.separate heap settings)).bind (printRest fuel (count + 1) cdr)
  | _ => if obj = 0 then some printer else print obj (printer.put heap .dot)

/-- `print_list`. -/
def printList (fuel depth : Nat) (car cdr : Obj) (printer : Printer) : Option Printer :=
  if settings.cuts depth then
    some (printer.put heap .level)
  else
    let printer := (printer.put heap .openList).pushIndent settings
    let contents :=
      if settings.length = 0 then
        some (printer.put heap .ellipsis)
      else
        (print car printer).bind (printRest heap settings print fuel 1 cdr)
    contents.map fun printer => (printer.popIndent settings).put heap .close

def printElements : Nat → List Obj → Printer → Option Printer
  | _, [], printer => some printer
  | i, elt :: elts, printer =>
      if 0 ≤ settings.length ∧ settings.length ≤ i then
        some (printer.put heap .ellipsis)
      else
        (print elt (if 0 < i then printer.separate heap settings else printer)).bind
          (printElements (i + 1) elts)

/-- The case of `print_obj` for vectors. -/
def printVector (depth : Nat) (elts : List Obj) (printer : Printer) : Option Printer :=
  if settings.array = false then
    some (printer.put heap .noVector)
  else if settings.cuts depth then
    some (printer.put heap .level)
  else
    (printElements heap settings print 0 elts
      ((printer.put heap .openVector).pushIndent settings)).map
        fun printer => (printer.popIndent settings).put heap .close

end Contents

/-- `print_obj`, with the levels that are left: `current_depth` is `CL_PRINT_HARD_CAP` less
these. -/
def printObj (heap : Heap) (settings : Settings) (fuel : Nat) :
    Nat → Obj → Printer → Option Printer
  | 0, _, printer => some (printer.put heap .ellipsis)
  | room + 1, obj, printer =>
      let check := printer.circleCheck heap obj
      if check.1 < 0 then
        some check.2
      else
        match heap.cell obj with
        | none => some (check.2.put heap (.atom obj))
        | some (.cons car cdr) =>
            printList heap settings (printObj heap settings fuel room) fuel
              (printHardCap - (room + 1)) car cdr check.2
        | some (.vector elts) =>
            printVector heap settings (printObj heap settings fuel room)
              (printHardCap - (room + 1)) elts check.2

/-- `cl_write_to_stream` with `*print-circle*` true, and `write_to_buffer_internal`, which
begins at the depth it is called at: the text, or `none` when the fuel is used up. -/
def clWrite (heap : Heap) (settings : Settings) (fuel depth : Nat) (root : Obj) :
    Option (List Token) :=
  (printObj heap settings fuel (printHardCap - depth) root
    ⟨circleTable heap root, [], 0, []⟩).map fun printer => printer.text.reverse

end ClAmiga.Circle
