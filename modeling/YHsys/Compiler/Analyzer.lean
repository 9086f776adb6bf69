import YHsys.Compiler.Syntax
import YHsys.Lib.ExceptBind

/-!
# Semantic analysis

`frontend/semantic/analyzer.py`. A function has one flat scope: a name is declared once in
it, as a scalar or as an array, and a use must follow the declaration in the text. A call
names a function defined earlier, or the one it stands in. Errors are the source's
messages without their locations.
-/

namespace YHsys.Compiler

structure SemanticError where
  message : String
deriving DecidableEq, Repr

/-- A declared name. The size is that of an array; a scalar has none. -/
structure SymbolInfo where
  name : String
  size : Option ℤ
deriving DecidableEq, Repr

def SymbolInfo.isArray (s : SymbolInfo) : Bool := s.size.isSome

structure FunctionInfo where
  name : String
  params : List String
  symbols : List SymbolInfo
  hasReturn : Bool
deriving DecidableEq, Repr

structure ProgramInfo where
  functions : List FunctionInfo
deriving DecidableEq, Repr

/-- `ProgramInfo.function` (`analyzer.py:54`). -/
def ProgramInfo.function (info : ProgramInfo) (name : String) : Option FunctionInfo :=
  info.functions.find? (·.name = name)

def builtinNames : List String := ["print_int", "print_str", "pause"]

def maxCallArgs : ℕ := 6

/-- The analyzer's state. The dictionaries are lists in the order of insertion. -/
structure Analyzer where
  symbols : List SymbolInfo
  hasReturn : Bool
  functionArities : List (String × ℕ)
deriving DecidableEq, Repr

namespace Analyzer

/-- `_lookup` (`analyzer.py:132`). -/
def lookup (a : Analyzer) (name : String) : Except SemanticError SymbolInfo :=
  match a.symbols.find? (·.name = name) with
  | none => .error ⟨"use of undeclared identifier '" ++ name ++ "'"⟩
  | some sym => .ok sym

/-- The check of an expression that stands for a scalar. -/
def checkScalar (a : Analyzer) (name : String) : Except SemanticError Unit := do
  let sym ← a.lookup name
  if sym.isArray then .error ⟨"array variable requires index"⟩ else .ok ()

/-- The check of the name of an indexed array. -/
def checkArray (a : Analyzer) (name : String) : Except SemanticError Unit := do
  let sym ← a.lookup name
  if sym.isArray then .ok () else .error ⟨"scalar variable cannot be indexed"⟩

/-- The check of the name and the number of arguments of a call. -/
def checkCallee (a : Analyzer) (name : String) (args : ℕ) : Except SemanticError Unit :=
  match a.functionArities.lookup name with
  | none => .error ⟨"call to undefined function '" ++ name ++ "'"⟩
  | some expected =>
    if args ≠ expected then
      .error ⟨"function '" ++ name ++ "' expects " ++ toString expected ++ " arguments, got " ++
        toString args⟩
    else if args > maxCallArgs then
      .error ⟨"function call has too many arguments; RV32 ABI supports a0-a5"⟩
    else .ok ()

mutual
/-- `_check_expr` (`analyzer.py:149`). -/
def checkExpr (a : Analyzer) : Expr → Except SemanticError Unit
  | .int _ => .ok ()
  | .var name => a.checkScalar name
  | .array name index => do
      a.checkArray name
      a.checkExpr index
  | .call name args => do
      a.checkCallee name args.length
      a.checkArgs args
  | .unary _ operand => a.checkExpr operand
  | .binary _ lhs rhs => do
      a.checkExpr lhs
      a.checkExpr rhs

def checkArgs (a : Analyzer) : List Expr → Except SemanticError Unit
  | [] => .ok ()
  | arg :: args => do
      a.checkExpr arg
      a.checkArgs args
end

/-- `_check_lvalue` (`analyzer.py:138`). -/
def checkLvalue (a : Analyzer) : LValue → Except SemanticError Unit
  | .var name => a.checkScalar name
  | .array name index => do
      a.checkArray name
      a.checkExpr index

def declared (a : Analyzer) (name : String) : Bool := a.symbols.any (·.name = name)

/-- `_declare` (`analyzer.py:121`). The name is in scope in its own initialiser. -/
def declare (a : Analyzer) (name : String) (size : Option ℤ) (init : Option Expr) :
    Except SemanticError Analyzer :=
  if a.declared name then .error ⟨"redefinition of '" ++ name ++ "'"⟩
  else if size.any (· ≤ 0) then .error ⟨"array size must be positive"⟩
  else
    let a' := { a with symbols := a.symbols ++ [⟨name, size⟩] }
    match init with
    | none => .ok a'
    | some e =>
      if size.isSome then
        .error ⟨"array declaration does not support scalar initializer"⟩
      else do
        a'.checkExpr e
        .ok a'

/-- The check of a call of a builtin (`analyzer.py:198`). -/
def checkBuiltin (a : Analyzer) (name : BuiltinName) (argExpr : Option Expr)
    (argString : Option String) : Except SemanticError Unit :=
  match name with
  | .printStr =>
    if argString.isNone then .error ⟨"print_str requires string literal"⟩ else .ok ()
  | .printInt =>
    match argExpr with
    | none => .error ⟨"print_int requires expression argument"⟩
    | some e => a.checkExpr e
  | .pause =>
    match argExpr with
    | none => .error ⟨"pause requires expression argument"⟩
    | some e => a.checkExpr e

mutual
/-- `_analyze_stmt` (`analyzer.py:186`). -/
def analyzeStmt (a : Analyzer) : Stmt → Except SemanticError Analyzer
  | .varDecl name size init => a.declare name size init
  | .assign target _ e => do
      a.checkLvalue target
      a.checkExpr e
      .ok a
  | .incDec target _ => do
      a.checkLvalue target
      .ok a
  | .builtin name argExpr argString => do
      a.checkBuiltin name argExpr argString
      .ok a
  | .expr (.call name args) => do
      a.checkExpr (.call name args)
      .ok a
  | .expr _ => .error ⟨"only function calls may be used as expression statements"⟩
  | .ite cond thenBlock elseBranch => do
      a.checkExpr cond
      let a ← a.analyzeBlock thenBlock
      a.analyzeElse elseBranch
  | .while cond body => do
      a.checkExpr cond
      a.analyzeBlock body
  | .ret e => do
      a.checkExpr e
      .ok { a with hasReturn := true }
  | .empty => .ok a

/-- `_analyze_block` (`analyzer.py:232`). -/
def analyzeBlock (a : Analyzer) : List Stmt → Except SemanticError Analyzer
  | [] => .ok a
  | s :: rest => do
      let a ← a.analyzeStmt s
      a.analyzeBlock rest

def analyzeElse (a : Analyzer) : Else → Except SemanticError Analyzer
  | .none => .ok a
  | .block b => a.analyzeBlock b
  | .elif cond thenBlock elseBranch => do
      a.checkExpr cond
      let a ← a.analyzeBlock thenBlock
      a.analyzeElse elseBranch
end

/-- The parameters of a function, declared as scalars (`analyzer.py:108`). -/
def declareParams (a : Analyzer) : List String → Except SemanticError Analyzer
  | [] => .ok a
  | name :: rest =>
    if a.declared name then .error ⟨"redefinition of parameter '" ++ name ++ "'"⟩
    else declareParams { a with symbols := a.symbols ++ [⟨name, none⟩] } rest

end Analyzer

/-- `_analyze_function` (`analyzer.py:104`), after the functions in `arities`. -/
def analyzeFunction (arities : List (String × ℕ)) (func : FunctionDef) :
    Except SemanticError FunctionInfo := do
  let a ← Analyzer.declareParams ⟨[], false, arities⟩ func.params
  let a ← a.analyzeBlock func.body
  .ok ⟨func.name, func.params, a.symbols, a.hasReturn⟩

/-- The loop of `analyze` (`analyzer.py:82`). -/
def analyzeFunctions (arities : List (String × ℕ)) (sawMain : Bool) (infos : List FunctionInfo) :
    List FunctionDef → Except SemanticError (Bool × List FunctionInfo)
  | [] => .ok (sawMain, infos)
  | func :: rest =>
    if func.name ∈ builtinNames then
      .error ⟨"function name '" ++ func.name ++ "' conflicts with builtin"⟩
    else if (arities.lookup func.name).isSome then
      .error ⟨"redefinition of function '" ++ func.name ++ "'"⟩
    else if func.params.length > maxCallArgs then
      .error ⟨"function has too many parameters; RV32 ABI supports a0-a5"⟩
    else if func.name = "main" ∧ sawMain then .error ⟨"redefinition of function 'main'"⟩
    else if func.name = "main" ∧ func.params ≠ [] then .error ⟨"main must not have parameters"⟩
    else do
      let arities' := arities ++ [(func.name, func.params.length)]
      let info ← analyzeFunction arities' func
      analyzeFunctions arities' (sawMain || func.name = "main") (infos ++ [info]) rest

/-- `SemanticAnalyzer.analyze` (`analyzer.py:78`). -/
def analyze (program : Program) : Except SemanticError ProgramInfo := do
  let (sawMain, infos) ← analyzeFunctions [] false [] program.functions
  if sawMain then .ok ⟨infos⟩ else .error ⟨"program must define int main()"⟩

end YHsys.Compiler
