import TreeMetrics.Proofs.Twig.Words
import TreeMetrics.Twig.Node

namespace TreeMetrics.Twig

def operators : List String := ["||", "&&", "==", "!=", "<=", ">=", "<", ">", "+", "-"]

inductive IsExpression : Tree Node → Prop where
  | name {w b e} : IsIdentifier w → IsExpression (.leaf (.word .name w b e))
  | literal {w b e} : IsNumber w → IsExpression (.leaf (.word .literal w b e))
  | assignment {b e target value} : IsExpression target → IsExpression value →
    IsExpression (.node (.word .assignment "=" b e) [target, value])
  | conditional {b e condition yes no} : IsExpression condition → IsExpression yes →
    IsExpression no →
    IsExpression (.node (.plain .conditionalExpression b e) [condition, yes, no])
  | binary {w b e left right} : w ∈ operators → IsExpression left → IsExpression right →
    IsExpression (.node (.word .infixExpression w b e) [left, right])
  | negation {b e operand} : IsExpression operand →
    IsExpression (.node (.word .unaryExpression "!" b e) [operand])
  | call {b e b' e' callee args} : IsExpression callee → (∀ a ∈ args, IsExpression a) →
    IsExpression (.node (.plain .methodCall b e) [callee, .node (.plain .arguments b' e') args])

/-- The statement ends in an `if` to which an `else` could be added. -/
inductive EndsOpen : Tree Node → Prop where
  | branch {b e condition body} : EndsOpen (.node (.plain .ifStatement b e) [condition, body])
  | otherwise {b e b' e' condition body other} : EndsOpen other →
    EndsOpen (.node (.plain .ifStatement b e)
      [condition, body, .node (.plain .elseClause b' e') [other]])
  | loop {b e condition body} : EndsOpen body →
    EndsOpen (.node (.plain .whileStatement b e) [condition, body])

inductive IsStatement : Tree Node → Prop where
  | block {b e body} : (∀ s ∈ body, IsStatement s) → IsStatement (.node (.plain .block b e) body)
  | branch {b e condition body} : IsExpression condition → IsStatement body →
    IsStatement (.node (.plain .ifStatement b e) [condition, body])
  | otherwise {b e b' e' condition body other} : IsExpression condition → IsStatement body →
    ¬EndsOpen body → IsStatement other →
    IsStatement (.node (.plain .ifStatement b e)
      [condition, body, .node (.plain .elseClause b' e') [other]])
  | loop {b e condition body} : IsExpression condition → IsStatement body →
    IsStatement (.node (.plain .whileStatement b e) [condition, body])
  | exit {b e} : IsStatement (.node (.plain .returnStatement b e) [])
  | give {b e value} : IsExpression value →
    IsStatement (.node (.plain .returnStatement b e) [value])
  | expression {b e value} : IsExpression value →
    IsStatement (.node (.plain .expressionStatement b e) [value])

inductive IsParameter : Tree Node → Prop where
  | mk {w b e} : IsIdentifier w → IsParameter (.leaf (.word .formalParameter w b e))

/-- The trees of fields and methods. A method without a body has its parameters only. -/
inductive IsMember : Tree Node → Prop where
  | field {w m b e} : IsIdentifier w → IsMember (.leaf ⟨.fieldDeclaration, some w, m, b, e⟩)
  | declaration {w m b e b' e' params} : IsIdentifier w → (∀ p ∈ params, IsParameter p) →
    IsMember (.node ⟨.methodDeclaration, some w, m, b, e⟩
      [.node (.plain .formalParameters b' e') params])
  | method {w m b e b₁ e₁ b₂ e₂ params body} : IsIdentifier w →
    (∀ p ∈ params, IsParameter p) → (∀ s ∈ body, IsStatement s) →
    IsMember (.node ⟨.methodDeclaration, some w, m, b, e⟩
      [.node (.plain .formalParameters b₁ e₁) params, .node (.plain .block b₂ e₂) body])

inductive IsImport : Tree Node → Prop where
  | mk {w b e} : IsDotted w → IsImport (.leaf (.word .importDeclaration w b e))

inductive IsClass : Tree Node → Prop where
  | mk {w b e members} : IsIdentifier w → (∀ t ∈ members, IsMember t) →
    IsClass (.node (.word .classDeclaration w b e) members)

/-- The trees of files: imports, then classes. -/
inductive IsFile : Tree Node → Prop where
  | mk {b e imports classes} : (∀ t ∈ imports, IsImport t) → (∀ t ∈ classes, IsClass t) →
    IsFile (.node (.plain .compilationUnit b e) (imports ++ classes))

end TreeMetrics.Twig
