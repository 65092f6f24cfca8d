import LuaGloss.Syntax.Grammar

/-!
# The grammar of statements

    block ::= {stat} [return [explist] [';']]
    stat  ::= ';' | varlist '=' explist | call
            | '::' name '::' | break | goto name
            | do block end | while exp do block end | repeat block until exp
            | if exp then block {elseif exp then block} [else block] end
            | for name '=' exp ',' exp [',' exp] do block end
            | for namelist in explist do block end
            | function funcname body | local function name body
            | local attnamelist ['=' explist]
-/

namespace LuaGloss

def TokenKind.endsBlock : TokenKind → Bool
  | .keyword .end_ | .keyword .else_ | .keyword .elseif_ | .keyword .until_ => true
  | _ => false

namespace Parser

def atBlockEnd : Parser n Bool := do return (← peek).all (·.kind.endsBlock)

def moreNames : (n : Nat) → Parser n Unit
  | 0 => Parser.absurd
  | n + 1 =>
    onToken
      (fun t =>
        if t.kind = .symbol .comma then some do
          let _ ← expectName
          moreNames n
        else none)
      (return)

def dottedNames : (n : Nat) → Parser n (List Ident)
  | 0 => Parser.absurd
  | n + 1 =>
    onToken
      (fun t =>
        if t.kind = .symbol .dot then some do
          let ident ← expectName
          return ident :: (← dottedNames n)
        else none)
      (return [])

def localAttribute : Parser n Unit := do
  if ← accept (.symbol .less) then
    let _ ← expectName
    expectSymbol .greater

def localNames : (n : Nat) → Parser n (List Ident)
  | 0 => Parser.absurd
  | n + 1 =>
    onToken
      (fun t =>
        if t.kind = .name then some do
          localAttribute
          if ← accept (.symbol .comma) then
            return ⟨t.value, t.pos⟩ :: (← localNames n)
          else return [⟨t.value, t.pos⟩]
        else none)
      (fail (.expected .name))

end Parser

namespace Grammar

open LuaGloss.Parser

variable (g : Grammar n)

def scopedBlock : Parser n Unit := within .scope g.block

def branch : Parser n Unit := do
  let _ ← g.expression 0 false
  expectKeyword .then_
  g.scopedBlock

def branchesRule : Parser (n + 1) Unit :=
  onToken
    (fun t =>
      match t.kind with
      | .keyword .elseif_ => some do
        g.branch
        g.branches
      | .keyword .else_ => some g.scopedBlock
      | _ => none)
    (return)

def forRange : Parser n Unit := do
  let _ ← g.expression 0 false
  expectSymbol .comma
  let _ ← g.expression 0 false
  if ← accept (.symbol .comma) then
    let _ ← g.expression 0 false

def forClause : Parser n Unit := do
  if ← accept (.symbol .assign) then g.forRange
  else if (← nextIs (.symbol .comma)) || (← nextIs (.keyword .in_)) then
    moreNames n
    expectKeyword .in_
    let _ ← g.values false
  else fail (.expected .assignOrIn)

def functionRest (isLocal : Bool) (opening : Pos) (ident : Ident)
    (name : FunctionName) : Parser n Unit := do
  let read ← header
  let head : FunctionHead :=
    ⟨isLocal, opening, ident, ⟨name, read.idents, read.isVararg⟩⟩
  match read.closed with
  | .error e =>
    emit (.function head [] none)
    throw e
  | .ok line =>
    let _ ← wrap (fun nodes stop => [.function head nodes stop]) do
      g.functionBody true line opening
      last

def functionStatement (opening : Pos) : Parser n Unit := do
  let first ← expectName
  let more ← dottedNames n
  let idents := first :: more
  if ← accept (.symbol .colon) then
    let method ← expectName
    g.functionRest false opening method
      ⟨idents.map (·.name) ++ [method.name], true⟩
  else
    g.functionRest false opening (more.getLastD first) ⟨idents.map (·.name), false⟩

def assigned (f : List Node → Option (List Value) → Node) : Parser n Unit := do
  let _ ← wrap (fun nodes inits => [f nodes inits]) (g.values true)

def localStatement : Parser n Unit := do
  let pos ← here
  if ← accept (.keyword .function_) then
    let ident ← expectName
    g.functionRest true pos ident ⟨[ident.name], false⟩
  else
    let names ← localNames n
    if ← accept (.symbol .assign) then g.assigned (.locals names)
    else emit (.locals names [] (some []))

def targetsRule : Parser (n + 1) (List Suffixed) :=
  onToken
    (fun t =>
      if t.kind = .symbol .comma then some do
        let target ← g.suffixed
        return target :: (← g.targets)
      else none)
    (return [])

def expressionStatement (t : Token) : Parser n Unit := do
  let first ← g.suffixedFrom t
  if (← nextIs (.symbol .assign)) || (← nextIs (.symbol .comma)) then
    let targets := first :: (← g.targets)
    unless targets.all (·.isAssignable) do fail .notAStatement
    expectSymbol .assign
    g.assigned (.assign (targets.map (·.target)))
  else
    unless first.isCall do fail .notAStatement

def statementFrom (t : Token) : Parser n Unit :=
  match t.kind with
  | .symbol .semicolon | .keyword .break_ => return
  | .symbol .doubleColon => do
    let _ ← expectName
    expectSymbol .doubleColon
  | .keyword .goto_ => do
    let _ ← expectName
  | .keyword .do_ => do
    g.scopedBlock
    emit .forget
    closeKeyword .end_ .do_ t.pos.line
  | .keyword .while_ => do
    let _ ← g.expression 0 false
    expectKeyword .do_
    g.scopedBlock
    emit .forget
    closeKeyword .end_ .while_ t.pos.line
  | .keyword .repeat_ => do
    within .scope do
      g.block
      closeKeyword .until_ .repeat_ t.pos.line
      let _ ← g.expression 0 false
    emit .forget
  | .keyword .if_ => do
    g.branch
    g.branches
    emit .forget
    closeKeyword .end_ .if_ t.pos.line
  | .keyword .for_ => do
    let _ ← expectName
    g.forClause
    expectKeyword .do_
    g.scopedBlock
    emit .forget
    closeKeyword .end_ .for_ t.pos.line
  | .keyword .function_ => g.functionStatement t.pos
  | .keyword .local_ => g.localStatement
  | _ => g.expressionStatement t

def returnStatement : Parser n Unit := do
  unless (← atBlockEnd) || (← nextIs (.symbol .semicolon)) do
    let _ ← g.values false
  let _ ← accept (.symbol .semicolon)
  emit (.comments (← here).offset)
  emit .discard
  unless ← atBlockEnd do fail (.expected .endOfInput)

def blockRule : Parser (n + 1) Unit := do
  emit (.comments (← here).offset)
  onToken
    (fun t =>
      if t.kind.endsBlock then none
      else if t.kind = .keyword .return_ then some g.returnStatement
      else some do
        within .statement (g.statementFrom t)
        g.block)
    (return)

def step : Grammar (n + 1) where
  expression := g.expressionRule
  operators := g.operatorsRule
  suffixes := g.suffixesRule
  values := g.valuesRule
  entries := g.entriesRule
  targets := g.targetsRule
  branches := g.branchesRule
  block := g.blockRule

def zero : Grammar 0 where
  expression _ _ := Parser.absurd
  operators _ _ _ := Parser.absurd
  suffixes _ := Parser.absurd
  values _ := Parser.absurd
  entries := Parser.absurd
  targets := Parser.absurd
  branches := Parser.absurd
  block := Parser.absurd

def upTo : (n : Nat) → Grammar n
  | 0 => zero
  | n + 1 => (upTo n).step

def chunk : Parser n Unit := do
  g.block
  if (← peek).isSome then fail (.expected .endOfInput)

end Grammar

def Outline.ofTokens (source : Bytes) (finish : Pos) (tokens : List Token) :
    Outline :=
  let outcome :=
    (Grammar.upTo (tokens.length + 1)).chunk ⟨source, finish⟩ ⟨tokens, .none,
      Nat.lt_succ_self _⟩
  match outcome.result with
  | .ok _ => ⟨outcome.nodes, none⟩
  | .error e => ⟨outcome.nodes, some e⟩

end LuaGloss
