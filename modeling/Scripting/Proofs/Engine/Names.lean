import Scripting.Proofs.Engine.Sessions
import Scripting.Proofs.Scope.Declared
import Scripting.Proofs.Scope.Threaded

/-!
# Names in the batches of an engine

`Lexical.Resolves` collects what holds of the names in a batch: what they mean, how captured variables
are handed through functions, and which variables are marked as captured.
-/

namespace Scripting

/-- What is known of the names of a batch that was resolved against `p`. -/
structure Lexical.Resolves (p q : Program) (src : Source .parsed) (out : Source .resolved) : Prop where
  names : Lexical.batch p q src.stmts out.stmts
  top : ∀ i ∈ Items.stmts out.stmts, i.Threaded q .top [] ∧ i.Placed q .top []
  functions : ∀ d ∈ Decls.stmts out.stmts, d.Threads q ∧ d.Places q
  /-- Closures at top level are made of functions of the batch. -/
  made : Items.Made (Items.stmts out.stmts) (Decls.stmts out.stmts)
  /-- The variables of the batch that are marked as captured are those that a function lists. -/
  marked : ∀ b, p.bindings.size ≤ b →
    ((q.binding b).captured = true ↔ Resolve.Lists (Decls.stmts out.stmts) b)

namespace Engine

/-- What the functions of a text capture, if it is a batch that a new engine resolves. -/
def captures (text : String) : Option (List (List (Bool × Nat))) :=
  match Source.read text "a.jz" with
  | .error _ => none
  | .ok src =>
    match src.resolve (loader plain.registry) plain.program.begin with
    | (.error _, _) => none
    | (.ok out, _) => some ((Decls.stmts out.stmts).map fun d =>
        d.info.free.map fun v => (v.fromFrame, v.index))

theorem exists_of_captures {text : String} {fs : List (List (Bool × Nat))} (h : captures text = some fs) :
    ∃ src out q, Source.read text "a.jz" = .ok src ∧
      src.resolve (loader plain.registry) plain.program.begin = (.ok out, q) ∧
        ((Decls.stmts out.stmts).map fun d => d.info.free.map fun v => (v.fromFrame, v.index)) = fs := by
  unfold captures at h
  cases hread : Source.read text "a.jz" with
  | error ds => simp [hread] at h
  | ok src =>
    rw [hread] at h
    dsimp only at h
    generalize hresolve : src.resolve (loader plain.registry) plain.program.begin = y at h
    obtain ⟨_ | out, q⟩ := y
    · cases h
    · exact ⟨src, out, q, rfl, hresolve, Option.some.inj h⟩

end Engine

end Scripting
