import Backpatch.Operator
import Backpatch.Value

/-!
# Syntax trees

A tree of any kind may stand wherever a tree is wanted. Forms that differ only in how they are
written share a constructor and carry the form beside it: programs and sequences are blocks,
declarations and assignments are stores, variables and function references are reads.
-/

namespace Backpatch

/-- How a block is written. -/
inductive BlockForm where
  /-- A whole program. -/
  | program
  /-- A sequence within one. -/
  | sequence
deriving DecidableEq, Repr

/-- How a store is written. -/
inductive StoreForm where
  /-- A declaration with an initial value. -/
  | declaration
  /-- An assignment. -/
  | assignment
deriving DecidableEq, Repr

/-- How a read is written. -/
inductive ReadForm where
  /-- A variable. -/
  | variable
  /-- A reference to a function. -/
  | function
deriving DecidableEq, Repr

/-- A syntax tree. -/
inductive Tree where
  /-- Trees one after the other. -/
  | block (form : BlockForm) (items : List Tree)
  /-- The value of a tree stored under a name. -/
  | store (form : StoreForm) (name : String) (value : Tree)
  /-- What a name stands for. -/
  | read (form : ReadForm) (name : String)
  /-- A function with its parameters and its body. -/
  | function (name : String) (params : List String) (body : Tree)
  /-- The value of a tree printed. -/
  | print (argument : Tree)
  /-- A body repeated while a test holds. -/
  | loop (test body : Tree)
  /-- A function called by name. -/
  | call (callee : String) (arguments : List Tree)
  /-- One of two trees, by a test. -/
  | conditional (test consequent alternate : Tree)
  /-- A binary operator applied. -/
  | binary (op : BinaryOp) (left right : Tree)
  /-- A unary operator applied. -/
  | unary (op : UnaryOp) (operand : Tree)
  /-- A literal. -/
  | literal (value : Value)
deriving Repr

namespace Tree

/-- The name of the kind of a tree. -/
def kind : Tree → String
  | block .program _ => "Program"
  | block .sequence _ => "Sequence"
  | store .declaration _ _ => "VariableDeclaration"
  | store .assignment _ _ => "Assignment"
  | read .variable _ => "Variable"
  | read .function _ => "FunctionReference"
  | function _ _ _ => "FunctionDeclaration"
  | print _ => "PrintStatement"
  | loop _ _ => "WhileStatement"
  | call _ _ => "Call"
  | conditional _ _ _ => "Conditional"
  | binary _ _ _ => "BinaryExpression"
  | unary _ _ => "UnaryExpression"
  | literal (.number _) => "NumberLiteral"
  | literal (.boolean _) => "BooleanLiteral"

mutual

/-- The trees within a tree, each before the trees below it. -/
def preorder : Tree → List Tree
  | t@(block _ items) => t :: preorderAll items
  | t@(store _ _ value) => t :: value.preorder
  | t@(read _ _) => [t]
  | t@(function _ _ body) => t :: body.preorder
  | t@(print argument) => t :: argument.preorder
  | t@(loop test body) => t :: (test.preorder ++ body.preorder)
  | t@(call _ arguments) => t :: preorderAll arguments
  | t@(conditional test consequent alternate) =>
    t :: (test.preorder ++ consequent.preorder ++ alternate.preorder)
  | t@(binary _ left right) => t :: (left.preorder ++ right.preorder)
  | t@(unary _ operand) => t :: operand.preorder
  | t@(literal _) => [t]

/-- The trees within each of a list of trees. -/
def preorderAll : List Tree → List Tree
  | [] => []
  | t :: ts => t.preorder ++ preorderAll ts

end

/-- The kinds of the trees within a tree. -/
def kinds (t : Tree) : List String :=
  t.preorder.map kind

mutual

/-- Equality of trees, where numbers compare as IEEE 754 has it. -/
def numEq : Tree → Tree → Bool
  | block f ts, block g us => f == g && numEqAll ts us
  | store f x t, store g y u => f == g && x == y && t.numEq u
  | read f x, read g y => f == g && x == y
  | function f ps t, function g qs u => f == g && ps == qs && t.numEq u
  | print t, print u => t.numEq u
  | loop c t, loop d u => c.numEq d && t.numEq u
  | call f ts, call g us => f == g && numEqAll ts us
  | conditional c t a, conditional d u b => c.numEq d && t.numEq u && a.numEq b
  | binary o l r, binary p m s => o == p && l.numEq m && r.numEq s
  | unary o t, unary p u => o == p && t.numEq u
  | literal v, literal w => v.numEq w
  | _, _ => false

/-- Equality of lists of trees, member by member. -/
def numEqAll : List Tree → List Tree → Bool
  | [], [] => true
  | t :: ts, u :: us => t.numEq u && numEqAll ts us
  | _, _ => false

end

end Tree

end Backpatch
