import LuaGloss.Token.Basic

/-!
# Derivations

The grammar of Lua as a relation, apart from any parser.  Only the kinds of
tokens count.  A derivation is read from left to right: it takes a phrase away
from the front of a list of kinds and leaves the rest.

    block     ::= {stat} [return [explist] [';']]
    stat      ::= ';' | varlist '=' explist | call
                | '::' name '::' | break | goto name
                | do block end | while exp do block end | repeat block until exp
                | if exp then block {elseif exp then block} [else block] end
                | for name '=' exp ',' exp [',' exp] do block end
                | for namelist in explist do block end
                | function funcname body | local function name body
                | local attnamelist ['=' explist]
    exp       ::= operand {binop operand}
    operand   ::= unop operand | simple
    simple    ::= number | string | nil | true | false | '...'
                | table | function body | suffixed
    suffixed  ::= (name | '(' exp ')')
                  {'.' name | '[' exp ']' | ':' name args | args}
    args      ::= '(' [explist] ')' | table | string
    table     ::= '{' [field {sep field} [sep]] '}'
    field     ::= '[' exp ']' '=' exp | name '=' exp | exp
    body      ::= '(' [parlist] ')' block end

Expressions are flat: how tightly operators bind decides nothing about which
texts are expressions.  A suffixed expression is a variable or a call by its
last suffix.
-/

namespace LuaGloss

namespace TokenKind

def binaryOperators : List TokenKind :=
  [.keyword .or_, .keyword .and_, .symbol .less, .symbol .greater,
    .symbol .lessEqual, .symbol .greaterEqual,
    .symbol .notEqual, .symbol .equal, .symbol .pipe, .symbol .tilde,
    .symbol .ampersand, .symbol .shiftLeft,
    .symbol .shiftRight, .symbol .concat, .symbol .plus, .symbol .minus,
    .symbol .star, .symbol .slash,
    .symbol .floorDiv, .symbol .percent, .symbol .caret]

def unaryOperators : List TokenKind :=
  [.keyword .not_, .symbol .minus, .symbol .hash, .symbol .tilde]

def atoms : List TokenKind :=
  [.number, .string, .keyword .nil_, .keyword .true_, .keyword .false_,
    .symbol .ellipsis]

end TokenKind

/-- What a suffixed expression is: something that can be assigned to, a call, or
neither. -/
inductive SuffixedForm where
  | variable_
  | call
  | parens
  deriving DecidableEq

inductive Phrase where
  | block
  | statement
  /-- What may follow the word `return`. -/
  | result
  | values
  | expression
  | operand
  /-- More operators, each with its operand. -/
  | operators
  | simple
  | suffixed (form : SuffixedForm)
  /-- Suffixes behind an expression of one form that make it one of another. -/
  | suffixes (before after : SuffixedForm)
  | arguments
  /-- A table constructor. -/
  | table
  | entries
  | entry
  /-- The parameters and the block of a function. -/
  | body
  | parameters
  | functionName
  /-- More parts of a function's name. -/
  | nameParts
  | localNames
  | attrib
  | moreNames
  | moreVariables
  | branches
  | step
  deriving DecidableEq

variable (isSeparated : Bool)

/-- `Derives isSeparated p ks rest`: a phrase `p` stands at the front of `ks`,
and `rest` is left behind it.  In a separated derivation every statement but the
empty one is followed by a semicolon. -/
inductive Derives : Phrase → List TokenKind → List TokenKind → Prop where
  -- blocks
  | blockEnd {ks} : Derives .block ks ks
  | blockStatement {ks mid rest} :
      Derives .statement ks mid →
      (isSeparated → ks = .symbol .semicolon :: mid ∨
        mid.head? = some (.symbol .semicolon)) →
      Derives .block mid rest → Derives .block ks rest
  | blockReturn {ks rest} :
      Derives .result ks rest → Derives .block (.keyword .return_ :: ks) rest
  | resultNone {ks} : Derives .result ks ks
  | resultSemicolon {rest} : Derives .result (.symbol .semicolon :: rest) rest
  | resultValues {ks rest} : Derives .values ks rest → Derives .result ks rest
  | resultValuesSemicolon {ks rest} :
      Derives .values ks (.symbol .semicolon :: rest) → Derives .result ks rest
  -- statements
  | empty {rest} : Derives .statement (.symbol .semicolon :: rest) rest
  | assign {ks mid mid' rest} :
      Derives (.suffixed .variable_) ks mid →
      Derives .moreVariables mid (.symbol .assign :: mid') →
      Derives .values mid' rest → Derives .statement ks rest
  | callStatement {ks rest} :
      Derives (.suffixed .call) ks rest → Derives .statement ks rest
  | label {rest} :
      Derives .statement (.symbol .doubleColon :: .name ::
        .symbol .doubleColon :: rest) rest
  | break_ {rest} : Derives .statement (.keyword .break_ :: rest) rest
  | goto_ {rest} : Derives .statement (.keyword .goto_ :: .name :: rest) rest
  | do_ {ks rest} :
      Derives .block ks (.keyword .end_ :: rest) →
      Derives .statement (.keyword .do_ :: ks) rest
  | while_ {ks mid rest} :
      Derives .expression ks (.keyword .do_ :: mid) →
      Derives .block mid (.keyword .end_ :: rest) →
      Derives .statement (.keyword .while_ :: ks) rest
  | repeat_ {ks mid rest} :
      Derives .block ks (.keyword .until_ :: mid) →
      Derives .expression mid rest →
      Derives .statement (.keyword .repeat_ :: ks) rest
  | if_ {ks mid mid' rest} :
      Derives .expression ks (.keyword .then_ :: mid) →
      Derives .block mid mid' →
      Derives .branches mid' (.keyword .end_ :: rest) →
      Derives .statement (.keyword .if_ :: ks) rest
  | forRange {ks mid mid' mid'' rest} :
      Derives .expression ks (.symbol .comma :: mid) →
      Derives .expression mid mid' →
      Derives .step mid' (.keyword .do_ :: mid'') →
      Derives .block mid'' (.keyword .end_ :: rest) →
      Derives .statement (.keyword .for_ :: .name :: .symbol .assign :: ks) rest
  | forIn {ks mid mid' rest} :
      Derives .moreNames ks (.keyword .in_ :: mid) →
      Derives .values mid (.keyword .do_ :: mid') →
      Derives .block mid' (.keyword .end_ :: rest) →
      Derives .statement (.keyword .for_ :: .name :: ks) rest
  | function_ {ks mid rest} :
      Derives .functionName ks mid → Derives .body mid rest →
      Derives .statement (.keyword .function_ :: ks) rest
  | localFunction {ks rest} :
      Derives .body ks rest →
      Derives .statement (.keyword .local_ :: .keyword .function_ ::
        .name :: ks) rest
  | local_ {ks rest} :
      Derives .localNames ks rest →
      Derives .statement (.keyword .local_ :: ks) rest
  | localAssign {ks mid rest} :
      Derives .localNames ks (.symbol .assign :: mid) → Derives .values mid rest →
      Derives .statement (.keyword .local_ :: ks) rest
  -- parts of statements
  | noBranch {ks} : Derives .branches ks ks
  | elseif_ {ks mid mid' rest} :
      Derives .expression ks (.keyword .then_ :: mid) →
      Derives .block mid mid' → Derives .branches mid' rest →
      Derives .branches (.keyword .elseif_ :: ks) rest
  | else_ {ks rest} :
      Derives .block ks rest → Derives .branches (.keyword .else_ :: ks) rest
  | noStep {ks} : Derives .step ks ks
  | byStep {ks rest} :
      Derives .expression ks rest → Derives .step (.symbol .comma :: ks) rest
  | noMoreNames {ks} : Derives .moreNames ks ks
  | moreNames {ks rest} :
      Derives .moreNames ks rest →
      Derives .moreNames (.symbol .comma :: .name :: ks) rest
  | noMoreVariables {ks} : Derives .moreVariables ks ks
  | moreVariables {ks mid rest} :
      Derives (.suffixed .variable_) ks mid → Derives .moreVariables mid rest →
      Derives .moreVariables (.symbol .comma :: ks) rest
  | localName {ks rest} :
      Derives .attrib ks rest → Derives .localNames (.name :: ks) rest
  | localNames {ks mid rest} :
      Derives .attrib ks (.symbol .comma :: mid) → Derives .localNames mid rest →
      Derives .localNames (.name :: ks) rest
  | noAttrib {ks} : Derives .attrib ks ks
  | attrib {rest} :
      Derives .attrib (.symbol .less :: .name :: .symbol .greater :: rest) rest
  | functionName {ks rest} :
      Derives .nameParts ks rest → Derives .functionName (.name :: ks) rest
  | methodName {ks rest} :
      Derives .nameParts ks (.symbol .colon :: .name :: rest) →
      Derives .functionName (.name :: ks) rest
  | noNamePart {ks} : Derives .nameParts ks ks
  | namePart {ks rest} :
      Derives .nameParts ks rest →
      Derives .nameParts (.symbol .dot :: .name :: ks) rest
  -- function bodies
  | body {ks mid rest} :
      Derives .parameters ks (.symbol .rightParen :: mid) →
      Derives .block mid (.keyword .end_ :: rest) →
      Derives .body (.symbol .leftParen :: ks) rest
  | bodyWithoutParameters {ks rest} :
      Derives .block ks (.keyword .end_ :: rest) →
      Derives .body (.symbol .leftParen :: .symbol .rightParen :: ks) rest
  | varargs {rest} : Derives .parameters (.symbol .ellipsis :: rest) rest
  | parameter {rest} : Derives .parameters (.name :: rest) rest
  | parameters {ks rest} :
      Derives .parameters ks rest →
      Derives .parameters (.name :: .symbol .comma :: ks) rest
  -- expressions
  | value {ks rest} : Derives .expression ks rest → Derives .values ks rest
  | values {ks mid rest} :
      Derives .expression ks (.symbol .comma :: mid) → Derives .values mid rest →
      Derives .values ks rest
  | expression {ks mid rest} :
      Derives .operand ks mid → Derives .operators mid rest →
      Derives .expression ks rest
  | noOperator {ks} : Derives .operators ks ks
  | operator {op ks mid rest} :
      op ∈ TokenKind.binaryOperators → Derives .operand ks mid →
      Derives .operators mid rest → Derives .operators (op :: ks) rest
  | unary {op ks rest} :
      op ∈ TokenKind.unaryOperators → Derives .operand ks rest →
      Derives .operand (op :: ks) rest
  | simple {ks rest} : Derives .simple ks rest → Derives .operand ks rest
  | atom {k rest} : k ∈ TokenKind.atoms → Derives .simple (k :: rest) rest
  | tableValue {ks rest} : Derives .table ks rest → Derives .simple ks rest
  | functionValue {ks rest} :
      Derives .body ks rest → Derives .simple (.keyword .function_ :: ks) rest
  | suffixedValue {form ks rest} :
      Derives (.suffixed form) ks rest → Derives .simple ks rest
  -- suffixed expressions
  | ofName {form ks rest} :
      Derives (.suffixes .variable_ form) ks rest →
      Derives (.suffixed form) (.name :: ks) rest
  | ofParens {form ks mid rest} :
      Derives .expression ks (.symbol .rightParen :: mid) →
      Derives (.suffixes .parens form) mid rest →
      Derives (.suffixed form) (.symbol .leftParen :: ks) rest
  | noSuffix {form ks} : Derives (.suffixes form form) ks ks
  | dot {before form ks rest} :
      Derives (.suffixes .variable_ form) ks rest →
      Derives (.suffixes before form) (.symbol .dot :: .name :: ks) rest
  | bracket {before form ks mid rest} :
      Derives .expression ks (.symbol .rightBracket :: mid) →
      Derives (.suffixes .variable_ form) mid rest →
      Derives (.suffixes before form) (.symbol .leftBracket :: ks) rest
  | method {before form ks mid rest} :
      Derives .arguments ks mid → Derives (.suffixes .call form) mid rest →
      Derives (.suffixes before form) (.symbol .colon :: .name :: ks) rest
  | call {before form ks mid rest} :
      Derives .arguments ks mid → Derives (.suffixes .call form) mid rest →
      Derives (.suffixes before form) ks rest
  | argumentString {rest} : Derives .arguments (.string :: rest) rest
  | argumentTable {ks rest} : Derives .table ks rest → Derives .arguments ks rest
  | noArguments {rest} :
      Derives .arguments (.symbol .leftParen :: .symbol .rightParen :: rest) rest
  | arguments {ks rest} :
      Derives .values ks (.symbol .rightParen :: rest) →
      Derives .arguments (.symbol .leftParen :: ks) rest
  -- table constructors
  | table {ks rest} :
      Derives .entries ks (.symbol .rightBrace :: rest) →
      Derives .table (.symbol .leftBrace :: ks) rest
  | noEntry {ks} : Derives .entries ks ks
  | lastEntry {ks rest} : Derives .entry ks rest → Derives .entries ks rest
  | entries {sep ks mid rest} :
      sep = .symbol .comma ∨ sep = .symbol .semicolon →
      Derives .entry ks (sep :: mid) → Derives .entries mid rest →
      Derives .entries ks rest
  | keyedEntry {ks mid rest} :
      Derives .expression ks (.symbol .rightBracket :: .symbol .assign :: mid) →
      Derives .expression mid rest →
      Derives .entry (.symbol .leftBracket :: ks) rest
  | namedEntry {ks rest} :
      Derives .expression ks rest →
      Derives .entry (.name :: .symbol .assign :: ks) rest
  | entry {ks rest} : Derives .expression ks rest → Derives .entry ks rest

end LuaGloss
