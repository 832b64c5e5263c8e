import FlatSelect.Error

/-!
# Query expressions

A query as it is written down: an operator, the value of a constant, and the operands, nested.
Nothing keeps an expression from being nonsense. `Expr.check` is the test that a tree is built
only of sense: every node has the children of its kind, constants alone hold values, and a slot
that is read as a name, a list of columns, a rename or a derived column holds one.
-/

namespace FlatSelect

/-- A nested description of a query. -/
inductive Expr where
  | node (kind : Kind) (value : Option Value) (children : List Expr)

namespace Expr

mutual
/-- Expressions are compared node by node. -/
def decEq : (a b : Expr) → Decidable (a = b)
  | .node kind value children, .node kind' value' children' =>
    if h : kind = kind' ∧ value = value' then
      match decEqAll children children' with
      | isTrue hc => isTrue (by simp [h, hc])
      | isFalse hc => isFalse (by simp [hc])
    else isFalse (by simp_all)
/-- Lists of operands are compared place by place. -/
def decEqAll : (as bs : List Expr) → Decidable (as = bs)
  | [], [] => isTrue rfl
  | [], _ :: _ => isFalse (by simp)
  | _ :: _, [] => isFalse (by simp)
  | a :: as, b :: bs =>
    match decEq a b, decEqAll as bs with
    | isTrue h, isTrue hs => isTrue (by simp [h, hs])
    | isFalse h, _ => isFalse (by simp [h])
    | _, isFalse hs => isFalse (by simp [hs])
end

instance : DecidableEq Expr := decEq

/-- The operator at the top. -/
def kind : Expr → Kind
  | .node kind _ _ => kind

/-- The value at the top. -/
def value : Expr → Option Value
  | .node _ value _ => value

/-- The operands. -/
def children : Expr → List Expr
  | .node _ _ children => children

mutual
/-- The number of nodes. -/
def size : Expr → Nat
  | .node _ _ children => sizeAll children + 1
/-- The number of nodes of several expressions. -/
def sizeAll : List Expr → Nat
  | [] => 0
  | e :: es => e.size + sizeAll es
end

/-! ### Writing queries -/

/-- An operator over operands, whether or not they suit it. -/
def op (kind : Kind) (children : List Expr) : Expr :=
  .node kind none children

/-- A leaf. -/
def constant (value : Value) : Expr :=
  .node .constant (some value) []

/-- A leaf that holds a name. -/
def name (text : String) : Expr :=
  constant (.name text)

/-- A query whose result is called `target`. -/
def assign (target : String) (body : Expr) : Expr :=
  op .assign [name target, body]

/-- Column `old` of `operand` under the name `new`. -/
def rename (new old : String) (operand : Expr) : Expr :=
  op .rename [constant (.rename new old), operand]

/-- A join branch known as `asName`. -/
def renameAll (asName : String) (relation : Expr) : Expr :=
  op .renameAll [name asName, relation]

/-- A join branch over a relation given by its name. -/
def branch (asName relation : String) : Expr :=
  renameAll asName (name relation)

/-- The rows of `operand` with one more column. -/
def extraColumn (asName source : String) (operand : Expr) : Expr :=
  op .extraColumn [constant (.derived asName source), operand]

/-- Some columns of `operand`. -/
def projection (entries : List String) (operand : Expr) : Expr :=
  op .projection [constant (.columns entries), operand]

/-- The rows of `operand` that satisfy `predicate`. -/
def condition (predicate operand : Expr) : Expr :=
  op .condition [predicate, operand]

/-- A stored relation. -/
def input1 (relation : String) : Expr :=
  op .input1 [name relation]

/-- A join. -/
def input2 (left right : Expr) : Expr :=
  op .input2 [left, right]

/-- A negated predicate. -/
def not (operand : Expr) : Expr :=
  op .not [operand]

end Expr

namespace Kind

/-- Whether a node of this kind keeps a constant in slot 0. -/
def hasParameter : Kind → Bool
  | assign | renameAll | input1 | rename | extraColumn | projection => true
  | _ => false

/-- Whether a value has the form that a node of this kind keeps in slot 0. -/
def admits : Kind → Value → Bool
  | rename, .rename _ _ => true
  | extraColumn, .derived _ _ => true
  | projection, .columns _ => true
  | rename, _ | extraColumn, _ | projection, _ => false
  | _, .name _ => true
  | _, _ => false

end Kind

namespace Expr

/-- A node on its own: constants have a value and no children, any other node has no value and as
many children as its kind owns. -/
def checkNode (kind : Kind) (value : Option Value) (count : Nat) : Except Malformation Unit :=
  match kind, value with
  | .constant, none => .error .constantWithoutValue
  | .constant, some _ => if count = 0 then .ok () else .error (.constantWithChildren count)
  | kind, some _ => .error (.strayValue kind)
  | kind, none => if count = kind.arity then .ok () else .error (.childCount kind count)

/-- The value in slot 0 of a node that keeps one there. -/
def checkParameter (kind : Kind) (children : List Expr) : Except Malformation Unit :=
  if kind.hasParameter then
    match children[0]?.bind value with
    | none => .error (.notConstant kind)
    | some v => if kind.admits v then .ok () else .error (.unfitValue kind v)
  else
    .ok ()

/-- A join branch that reads a constant reads a name. -/
def checkRelation (kind : Kind) (children : List Expr) : Except Malformation Unit :=
  match kind, children[1]?.bind value with
  | .renameAll, some v => if v.asName?.isSome then .ok () else .error (.branchRelation v)
  | _, _ => .ok ()

mutual
/-- Whether an expression makes sense: first the node, then its children from left to right, then
the values in the node's slots. The first fault is the one reported. -/
def check : Expr → Except Malformation Unit
  | .node kind value children => do
    checkNode kind value children.length
    checkAll children
    checkParameter kind children
    checkRelation kind children
/-- Each of several expressions, from left to right. -/
def checkAll : List Expr → Except Malformation Unit
  | [] => .ok ()
  | e :: es => do
    e.check
    checkAll es
end

end Expr

end FlatSelect
