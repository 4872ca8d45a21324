import Sema.Syntax.Operator
import Sema.Syntax.Program

/-!
# Supported programs

The programs that are made of supported nodes only, with known operators.
-/

namespace Sema

mutual

/-- Whether an expression has supported parts and known operators only. -/
def Expr.Supported : Expr → Prop
  | .int _ _ => True
  | .float _ _ => True
  | .string _ _ => True
  | .name _ _ => True
  | .paren _ value => value.Supported
  | .not _ operand => operand.Supported
  | .binary _ op left right => left.Supported ∧ right.Supported ∧ ∃ known : BinaryOp, op = known.text
  | .assign _ _ value => Expr.OptionSupported value
  | .call _ _ args => Expr.AllSupported args
  | .unsupported => False

def Expr.OptionSupported : Option Expr → Prop
  | none => True
  | some e => e.Supported

def Expr.AllSupported : List Expr → Prop
  | [] => True
  | e :: es => e.Supported ∧ Expr.AllSupported es

end

mutual

def Stmt.Supported : Stmt → Prop
  | .varDecl decl => Expr.OptionSupported decl.value
  | .assign _ _ value => Expr.OptionSupported value
  | .expr _ value => value.Supported
  | .block _ body => body.Supported
  | .ifThen _ condition thenBlock elseBlock =>
    condition.Supported ∧ thenBlock.Supported ∧ Block.OptionSupported elseBlock
  | .whileLoop _ condition body => condition.Supported ∧ body.Supported
  | .forLoop _ init condition update body =>
    Stmt.OptionSupported init ∧ Expr.OptionSupported condition ∧ Stmt.OptionSupported update ∧
      body.Supported
  | .result _ value => Expr.OptionSupported value
  | .unsupported => False

def Stmt.OptionSupported : Option Stmt → Prop
  | none => True
  | some s => s.Supported

def Block.Supported : Block → Prop
  | .mk _ statements => Stmt.AllSupported statements

def Block.OptionSupported : Option Block → Prop
  | none => True
  | some b => b.Supported

def Stmt.AllSupported : List Stmt → Prop
  | [] => True
  | s :: ss => s.Supported ∧ Stmt.AllSupported ss

end

def Decl.Supported : Decl → Prop
  | .func f => f.body.Supported
  | .var d => Expr.OptionSupported d.value
  | .unsupported => False

def Program.Supported (p : Program) : Prop :=
  ∀ d ∈ p.declarations, d.Supported

end Sema
