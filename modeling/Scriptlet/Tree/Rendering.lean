import Scriptlet.Tree.Basic

/-!
# Trees on one line

A tree is written with its leaves as they stand in token listings and with the words and
signs of each compound expression around its parts. Statements nest to the right:
`(a (b c))`.

## Main definitions

* `Tree.render` — a tree on one line
-/

namespace Scriptlet

/-- A body between its curly brackets. -/
def Tree.renderBody (body : String) : String := "LCURL " ++ body ++ " RCURL"

mutual

/-- A tree on one line. -/
def Tree.render : Tree → String
  | .number t | .string t | .reference t => t.toText
  | .assignment _ name value => "(" ++ name.toText ++ " EQ " ++ value.render ++ ")"
  | .binary left operator right =>
    "(" ++ left.render ++ ", " ++ operator.toText ++ ", " ++ right.render ++ ")"
  | .unary operator operand => "(" ++ operator.toText ++ ", " ++ operand.render ++ ")"
  | .conditional arms _ _ => "(KEYWORD:if" ++ arms.render ++ ")"
  | .forLoop _ name initial condition update body _ _ =>
    "(KEYWORD:for LPAREN (" ++ name.toText ++ " EQ " ++ initial.render ++ ") COMMA " ++
      condition.render ++ " COMMA " ++ update.render ++ " RPAREN " ++
      Tree.renderBody body.render ++ ")"
  | .whileLoop condition body _ _ =>
    "(KEYWORD:while LPAREN " ++ condition.render ++ " RPAREN " ++ Tree.renderBody body.render ++ ")"
  | .function name parameters body _ _ =>
    "(KEYWORD:func " ++ name.toText ++ " LPAREN [" ++
      String.intercalate ", " (parameters.map Token.toText) ++ "] RPAREN " ++
      Tree.renderBody body.render ++ ")"
  | .call callee arguments _ =>
    "(" ++ callee.render ++ " LPAREN" ++ Tree.renderArguments arguments ++ " RPAREN)"
  | .sequence statements _ _ => Tree.renderStatements statements

/-- The arms of a conditional, each after a blank. -/
def Arms.render : Arms → String
  | .none => ""
  | .otherwise body => " KEYWORD:else " ++ Tree.renderBody body.render
  | .guarded condition body others =>
    " LPAREN " ++ condition.render ++ " RPAREN " ++ Tree.renderBody body.render ++ others.render

/-- The arguments of a call, each after a blank and with a comma between two. -/
def Tree.renderArguments : List Tree → String
  | [] => ""
  | [only] => " " ++ only.render
  | first :: others => " " ++ first.render ++ " COMMA" ++ Tree.renderArguments others

/-- Statements, nested to the right. -/
def Tree.renderStatements : List Tree → String
  | [] => ""
  | [only] => only.render
  | first :: others => "(" ++ first.render ++ " " ++ Tree.renderStatements others ++ ")"

end

/-! ### The text of forms with parts -/

section Forms

variable (name operator : Token) (parameters : List Token)
  (left right value operand initial condition update body callee first second : Tree)
  (arms others : Arms) (trees : List Tree) (letStart start stop : Position)

namespace Tree

theorem render_assignment :
    (assignment start name value).render = "(" ++ name.toText ++ " EQ " ++ value.render ++ ")" :=
  rfl

theorem render_binary :
    (binary left operator right).render =
      "(" ++ left.render ++ ", " ++ operator.toText ++ ", " ++ right.render ++ ")" :=
  rfl

theorem render_unary :
    (unary operator operand).render = "(" ++ operator.toText ++ ", " ++ operand.render ++ ")" :=
  rfl

theorem render_conditional :
    (conditional arms start stop).render = "(KEYWORD:if" ++ arms.render ++ ")" :=
  rfl

theorem render_forLoop :
    (forLoop letStart name initial condition update body start stop).render =
      "(KEYWORD:for LPAREN (" ++ name.toText ++ " EQ " ++ initial.render ++ ") COMMA " ++
        condition.render ++ " COMMA " ++ update.render ++ " RPAREN " ++
        renderBody body.render ++ ")" :=
  rfl

theorem render_whileLoop :
    (whileLoop condition body start stop).render =
      "(KEYWORD:while LPAREN " ++ condition.render ++ " RPAREN " ++ renderBody body.render ++ ")" :=
  rfl

theorem render_function :
    (function name parameters body start stop).render =
      "(KEYWORD:func " ++ name.toText ++ " LPAREN [" ++
        String.intercalate ", " (parameters.map Token.toText) ++ "] RPAREN " ++
        renderBody body.render ++ ")" :=
  rfl

theorem render_call :
    (call callee trees stop).render =
      "(" ++ callee.render ++ " LPAREN" ++ renderArguments trees ++ " RPAREN)" :=
  rfl

theorem render_sequence : (sequence trees start stop).render = renderStatements trees := rfl

theorem renderArguments_singleton : renderArguments [first] = " " ++ first.render := rfl

theorem renderArguments_cons :
    renderArguments (first :: second :: trees) =
      " " ++ first.render ++ " COMMA" ++ renderArguments (second :: trees) :=
  rfl

theorem renderStatements_cons :
    renderStatements (first :: second :: trees) =
      "(" ++ first.render ++ " " ++ renderStatements (second :: trees) ++ ")" :=
  rfl

end Tree

namespace Arms

theorem render_otherwise :
    (otherwise body).render = " KEYWORD:else " ++ Tree.renderBody body.render :=
  rfl

theorem render_guarded :
    (guarded condition body others).render =
      " LPAREN " ++ condition.render ++ " RPAREN " ++ Tree.renderBody body.render ++
        others.render :=
  rfl

end Arms

end Forms

end Scriptlet
