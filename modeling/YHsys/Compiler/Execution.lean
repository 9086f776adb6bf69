import YHsys.Compiler.Semantics

/-!
# Running a module

A module runs from its `main`. A call shows itself, stores the arguments in the callee's
parameters and runs the callee's code in variables of its own; `callN` allows a depth of
calls, and the behaviour of a program is the union over all depths. What a callee's
variables hold before they are assigned is left open (`init`).

Code that runs past its last instruction has no result: a callee is stuck there, and
`main` ends without an exit value.
-/

namespace YHsys.Compiler

open Flat (Outcome)

variable {V : Type}

/-- The value a function ends with, if it does not run past its end. -/
def exitValue : Ended V → Option V
  | .normal _ => none
  | .returned v => some v

/-- The functions of a module; of a program of one function it has only the code. -/
def IrModule.allFunctions (m : IrModule) : List IrFunction :=
  if m.functions = [] then [⟨"main", [], m.symbols, m.instructions⟩] else m.functions

def IrModule.function (m : IrModule) (name : String) : Option IrFunction :=
  m.allFunctions.find? (·.name = name)

/-- The parameters hold the arguments. -/
def Store.setParams (σ : Store V) : List String → List V → Store V
  | x :: xs, v :: vs => (σ.setVar x v).setParams xs vs
  | _, _ => σ

section

variable (S : OpSem V)

/-- The code of a function. -/
def runCode (call : String → List V → Beh (Event V) V) (constants : List IrConstant)
    (code : List Instr) (σ : Store V) : Beh (Event V) (Option V) :=
  exitValue <$> Flat.run (irSem S call constants) code 0 σ

/-- A call, with at most `n` calls inside each other. -/
def callN (m : IrModule) (init : Store V) : ℕ → String → List V → Beh (Event V) V
  | 0, _, _ => ⊥
  | n + 1, f, vs => do
    Beh.emit (.call f vs)
    let func ← Beh.ofOption (m.function f)
    let r ← runCode S (callN m init n) m.constants func.instructions (init.setParams func.params vs)
    .ofOption r

/-- The behaviour of a module: the events and the exit value of `main`. -/
def behaviour (m : IrModule) (init : Store V) : Beh (Event V) (Option V) :=
  Beh.sup fun n => do
    let main ← Beh.ofOption (m.function "main")
    runCode S (callN S m init n) m.constants main.instructions init

end

end YHsys.Compiler
