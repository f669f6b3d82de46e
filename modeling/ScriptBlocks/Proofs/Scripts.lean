import ScriptBlocks.Proofs.Bodies

/-!
# Scripts

Compiling statements extends the script by the blocks of their translation. The induction follows
the syntax of statements; the bodies of conditionals are scripts of their own.
-/
namespace ScriptBlocks

mutual

/-- The names that a statement and those in its bodies declare. -/
def Statement.declared : Statement → List String
  | .declare named _ _ => [named.name]
  | .assign _ _ _ _ _ => []
  | .yield _ _ => []
  | .function _ _ body _ => Statement.declaredIn body
  | .call _ _ _ => []
  | .branch _ body otherwise _ => Statement.declaredIn body ++ otherwise.declared
  | .directive _ _ => []
  | .comment _ _ => []

def Statement.declaredIn : List Statement → List String
  | [] => []
  | s :: rest => s.declared ++ Statement.declaredIn rest

def Alternative.declared : Alternative → List String
  | .none => []
  | .block body => Statement.declaredIn body
  | .branch _ body otherwise _ => Statement.declaredIn body ++ otherwise.declared

end

namespace Emit

open Compilation

variable {env : Env} {plain : Bool} {run : Compilation → Compilation} {trees : List Tree}
variable {names names' : List String}

theorem Compiles.names_mono (h : Compiles env plain run trees names)
    (hn : ∀ x ∈ names, x ∈ names') :
    Compiles env plain run trees names' := by
  intro c σ ids hg hs hplain
  obtain ⟨new, hc⟩ := h hg hs hplain
  exact ⟨new, hc.mono hn⟩

/-- Inside of bodies every statement can be compiled. -/
theorem Compiles.inside (h : Compiles env plain run trees names) :
    Compiles env false run trees names :=
  fun _ _ _ hg hs hinside => h hg hs (.inr (hinside.resolve_left (by decide)))

theorem part_fills (env : Env) (e : Expr) :
    Fills env (part e).operand (fun v => [v]) [env.content e] (env.calls e) :=
  (expression_emits env e).operand e.span

mutual

theorem statement_compiles (env : Env) : (s : Statement) →
    Compiles env (needsEntry s) (fun c => (statement s c).2) (env.statement s) s.declared
  | .declare named value _ => declare_compiles (part_fills env value) named
  | .assign named op opSpan value _ => by
    cases op with
    | none => exact assign_compiles (part_fills env value) named none opSpan
    | some op => exact assign_compiles (part_fills env value) named (some op) opSpan
  | .yield value span => yield_compiles (part_fills env value) span
  | .function name params body _ =>
    (function_compiles env name params (statements body)).names_mono (by simp)
  | .call f arguments span =>
    callStatement_compiles (expressions_fills env arguments) (by simp) f span
  | .branch condition body otherwise _ =>
    branch_compiles (part_fills env condition) (statements_compile env body)
      (alternative_compiles env otherwise)
  | .directive name _ => directive_compiles env name
  | .comment text _ => comment_compiles env text

theorem statements_compile (env : Env) : (body : List Statement) →
    Compiles env false (statements body) (env.script body) (Statement.declaredIn body)
  | [] => .nil env false
  | s :: rest =>
    ((statement_compiles env s).inside.inContext s.span).append (statements_compile env rest)

theorem alternative_compiles (env : Env) : (a : Alternative) →
    Option.Rel (fun run trees => Compiles env false run trees a.declared) (alternative a)
      (env.alternative a)
  | .none => .none
  | .block body => .some (statements_compile env body)
  | .branch condition body otherwise span =>
    .some ((branch_compiles (part_fills env condition) (statements_compile env body)
      (alternative_compiles env otherwise)).inContext span)

end

end Emit
end ScriptBlocks
