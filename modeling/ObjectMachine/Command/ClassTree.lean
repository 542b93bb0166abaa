import ObjectMachine.Machine.Class
import ObjectMachine.Text.Columns

/-! The tree of registered classes as lines of text: each class under its superclass,
children by name, with branches drawn before them. A name may have several lines. -/

namespace ObjectMachine.Command

/-- A label with the trees below it. -/
inductive LabelTree
  | node (label : Text) (below : List LabelTree)

namespace LabelTree

mutual

/-- Adds a tree after its siblings. Without a label of its own, what is below it goes
below the sibling before it. -/
def addTo (siblings : List LabelTree) : LabelTree → List LabelTree
  | node label [] => siblings ++ [node label []]
  | node label (t :: rest) =>
    match siblings.getLast? with
    | some (node last below) =>
      if label.isEmpty then
        siblings.dropLast
          ++ [node last (if below.isEmpty then t :: rest else addAllTo below (t :: rest))]
      else siblings ++ [node label (t :: rest)]
    | none => [node label (t :: rest)]

def addAllTo (siblings : List LabelTree) : List LabelTree → List LabelTree
  | [] => siblings
  | t :: rest => addAllTo (addTo siblings t) rest

end

/-- Puts a branch before the first line and continues it before the lines below. -/
def drawBranch (first below : Text) : List Text → List Text
  | [] => []
  | line :: lines => (first ++ line) :: lines.map (below ++ ·)

/-- The lines of a label below another one. -/
def labelLines (label : Text) : List Text :=
  Text.padLines (Text.splitOn (Text.byte '\n') label)

mutual

/-- The lines below a label. -/
def drawBelow : List LabelTree → List Text
  | [] => []
  | [t] => drawBranch "╰──" "   " t.drawUnder
  | t :: u :: rest => drawBranch "├──" "│  " t.drawUnder ++ drawBelow (u :: rest)

/-- The lines of a tree under another label. -/
def drawUnder : LabelTree → List Text
  | node label below => labelLines label ++ drawBelow below

end

/-- The lines of a whole tree. -/
def draw : LabelTree → List Text
  | node label below => (if label.isEmpty then [] else [label]) ++ drawBelow below

end LabelTree

/-- A package that puts trees below a label, one after another, and draws them. -/
structure TreePackage where
  join : List LabelTree → List LabelTree
  draw : LabelTree → List Text

/-- The package of the program. -/
def trees : TreePackage := ⟨LabelTree.addAllTo [], LabelTree.draw⟩

/-- A line feed for every carriage return with a line feed. -/
def joinLineEnds : Text → Text
  | [] => []
  | [b] => [b]
  | b :: c :: rest =>
    if b == Text.byte '\r' && c == Text.byte '\n' then joinLineEnds (c :: rest)
    else b :: joinLineEnds (c :: rest)

/-- A name as it is drawn: tabs are four blanks, and all lines are as wide as the widest. -/
def drawnName (name : Text) : Text :=
  let blanks := name.flatMap fun b => if b == Text.byte '\t' then Text.spaces 4 else [b]
  Text.join "\n" (LabelTree.labelLines (joinLineEnds blanks))

/-- A class by its name and the number of its own methods. -/
def classLabel (m : Machine) (c : ClassId) : Text :=
  let count := (m.classAt c).methods.length
  let name := drawnName (m.className c)
  if count = 0 then name else name ++ " (" ++ Text.ofNat count ++ " methods)"

/-- The registered classes below a class. A class that is registered twice is there
twice. -/
def subclasses (m : Machine) (c : ClassId) : List ClassId :=
  m.registeredClasses.filter fun d => (m.classAt d).super == some c

/-- A class with the classes below it, to a depth. -/
def classNode (m : Machine) : (depth : Nat) → ClassId → LabelTree
  | 0, c => .node (classLabel m c) []
  | depth + 1, c =>
    .node (classLabel m c) (trees.join ((subclasses m c).map (classNode m depth)))

/-- The trees of all registered classes without a superclass. No chain of classes is
longer than there are classes. -/
def classTree (m : Machine) : Text :=
  let roots := m.registeredClasses.filter fun c => (m.classAt c).super.isNone
  let lines := roots.flatMap fun c => trees.draw (classNode m m.classes.size c)
  lines.flatMap (· ++ "\n")

end ObjectMachine.Command
