import ScriptBlocks.Proofs.Comparisons

/-!
# Expressions

Compiling an expression fills the slot that waits for it with what reads as its translation, and
splices in the calls that have to run before.
-/
namespace ScriptBlocks

namespace Env

variable (env : Env)

theorem binary_single (op : BinaryOp) {left right : Content} (hl : left.Single)
    (hr : right.Single) : (binary op left right).Single := by
  unfold binary
  split
  all_goals
    simp only [Tree.arithmetic, Tree.relation, Tree.negation, Tree.plain, Tree.Single, SlotsSingle,
      Content.Single, ScriptSingle]
    simp only [hl, hr, and_self]

theorem unary_single (op : UnaryOp) {operand : Content} (h : operand.Single) :
    (unary op operand).Single := by
  cases op with
  | not => exact ⟨h, trivial⟩
  | plus => exact ⟨trivial, h, trivial⟩
  | minus => exact ⟨trivial, h, trivial⟩

/-- An expression fills a slot with at most one block, and so do its operands. -/
theorem content_single : (e : Expr) → (env.content e).Single
  | .literal _ _ => trivial
  | .name n _ => by
    simp only [content, name]
    split <;> trivial
  | .paren inner _ => content_single inner
  | .unary op _ e _ => unary_single op (content_single e)
  | .binary op _ left right _ => binary_single op (content_single left) (content_single right)
  | .call _ _ _ => trivial

end Env

namespace Emit

mutual

theorem expression_emits (env : Env) :
    (e : Expr) → Emits env (expression e) (env.content e) (env.calls e)
  | .literal value _ => literal_emits env value
  | .name n span => name_emits env n span
  | .paren inner _ => expression_emits env inner
  | .unary op opSpan e _ => by
    have h := expression_emits env e
    cases op with
    | not => exact negation_emits h opSpan
    | plus => exact sign_emits h "+"
    | minus => exact sign_emits h "-"
  | .binary op opSpan left right _ => by
    have hl := expression_emits env left
    have hr := expression_emits env right
    rcases op with op | op | op
    · exact arithmetic_emits hl hr op opSpan
    · cases op with
      | equal => exact equality_emits hl hr
      | notEqual => exact inequality_emits hl hr
      | less => exact strict_emits .less hl hr
      | greater => exact strict_emits .greater hl hr
      | lessOrEqual =>
        exact inclusive_emits .less hl hr (env.content_single left) (env.content_single right)
      | greaterOrEqual =>
        exact inclusive_emits .greater hl hr (env.content_single left) (env.content_single right)
    · exact logic_emits hl hr op opSpan
  | .call f arguments span =>
    call_emits (expressions_fills env arguments) (by simp) f span

theorem expressions_fills (env : Env) : (es : List Expr) →
    Fills env (expressions es) id (es.map env.content) (env.callsOf es)
  | [] => .nil env
  | e :: es =>
    ((expression_emits env e).operand e.span).append (expressions_fills env es) fun _ _ => rfl

end

end Emit
end ScriptBlocks
