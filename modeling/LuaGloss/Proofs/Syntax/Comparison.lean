import LuaGloss.Syntax.Statement
import Mathlib.Data.List.Forall2

/-!
# Comparing parsers

A comparison relates parsers, possibly for different bounds on the number of
tokens, and has one clause for each combinator.  The parsers for single tokens
and for lists of names are related to themselves by every comparison, because
they are put together from the combinators.

What the clauses say of nodes is said of the nodes that the grammar yields, so
that a comparison need not know what its parsers do with others.  A property of
parsers is a comparison that looks at one of two parsers only.
-/

namespace LuaGloss

/-- Suffixed expressions that differ at most in their values, which are
related. -/
structure Suffixed.Rel (V : Value → Value → Prop) (s s' : Suffixed) : Prop where
  start : s.start = s'.start
  path : s.path = s'.path
  pos : s.pos = s'.pos
  index : V s.index s'.index
  isCall : s.isCall = s'.isCall
  isAssignable : s.isAssignable = s'.isAssignable
  isNameChain : s.isNameChain = s'.isNameChain
  value : V s.value s'.value

namespace Node

/-- The nodes that say where comments are read. -/
inductive IsMark : (Nat → Node) → Prop
  | comments : IsMark .comments
  | tableComments : IsMark .tableComments

/-- The nodes that hold others and nothing else to compare. -/
inductive IsFrame : (List Node → Node) → Prop
  | statement : IsFrame .statement
  | scope : IsFrame .scope
  | body (owned : Bool) (line : Nat) : IsFrame (.body owned line)
  | table (owned : Bool) : IsFrame (.table owned)
  | value : IsFrame .value

/-- The nodes that are yielded without others in them. -/
inductive IsPlain : Node → Prop
  | tableEnd : IsPlain .tableEnd
  | discard : IsPlain .discard
  | forget : IsPlain .forget
  | locals (names : List Ident) : IsPlain (.locals names [] (some []))
  | function (head : FunctionHead) : IsPlain (.function head [] none)

end Node

/-- Which tokens, values and errors are related.  The grammar must not tell
related tokens apart. -/
structure Parser.Basis where
  token : Token → Token → Prop
  value : Value → Value → Prop
  error : SyntaxError → SyntaxError → Prop
  token_kind {t t' : Token} : token t t' → t.kind = t'.kind
  token_value {t t' : Token} : token t t' → t.value = t'.value
  token_pos {t t' : Token} : token t t' → t.pos = t'.pos
  value_none : value .none .none
  value_shape {v v' : Value} : value v v' → v.shape = v'.shape
  value_ref {v v' : Value} (ref : Bytes) : value v v' →
    value { v with ref } { v' with ref }

/-- A relation between parsers with a clause for each combinator. -/
structure Parser.Comparison extends Parser.Basis where
  /-- Parsers whose values are related as `R` says. -/
  rel {n m : Nat} {α : Type} (R : α → α → Prop) (p : Parser n α)
    (p' : Parser m α) : Prop
  absurd {n m : Nat} {α : Type} {R : α → α → Prop} (p : Parser n α)
    (p' : Parser m α) : n = 0 ∨ m = 0 → rel R p p'
  pure {R : α → α → Prop} {a a' : α} :
    R a a' → rel R (Pure.pure a : Parser n α) (Pure.pure a' : Parser m α)
  bind {R : α → α → Prop} {S : β → β → Prop} {p : Parser n α} {p' : Parser m α}
    {f : α → Parser n β} {f' : α → Parser m β} :
    rel R p p' → (∀ a a', R a a' → rel S (f a) (f' a')) →
    rel S (p >>= f) (p' >>= f')
  peek : rel (Option.Rel token) (Parser.peek : Parser n _)
    (Parser.peek : Parser m _)
  peekSecond : rel (Option.Rel token) (Parser.peekSecond : Parser n _)
    (Parser.peekSecond : Parser m _)
  here : rel Eq (Parser.here : Parser n _) (Parser.here : Parser m _)
  last : rel Eq (Parser.last : Parser n _) (Parser.last : Parser m _)
  span (shape : ValueShape) (start : Pos) :
    rel value (Parser.span shape start : Parser n _)
      (Parser.span shape start : Parser m _)
  errorHere (fault : SyntaxFault) :
    rel error (Parser.errorHere fault : Parser n _)
      (Parser.errorHere fault : Parser m _)
  throw {R : α → α → Prop} {e e' : SyntaxError} :
    error e e' → rel R (Parser.throw e : Parser n α) (Parser.throw e' : Parser m α)
  failAt {R : α → α → Prop} {t t' : Token} (fault : SyntaxFault) :
    token t t' →
    rel R (Parser.failAt (some t) fault : Parser n α)
      (Parser.failAt (some t') fault : Parser m α)
  skip : rel Eq (Parser.skip : Parser n _) (Parser.skip : Parser m _)
  onToken {R : α → α → Prop} {f : Token → Option (Parser n α)} {f' : Token →
    Option (Parser m α)}
    {p : Parser (n + 1) α} {p' : Parser (m + 1) α} :
    (∀ t t', token t t' → Option.Rel (rel R) (f t) (f' t')) → rel R p p' →
      rel R (Parser.onToken f p) (Parser.onToken f' p')
  mark {R : α → α → Prop} {f : Nat → Node} {p : Parser n α} {p' : Parser m α} :
    Node.IsMark f → rel R p p' →
      rel R (Parser.here >>= fun pos => Parser.emit (f pos.offset) >>= fun _ => p)
        (Parser.here >>= fun pos => Parser.emit (f pos.offset) >>= fun _ => p')
  emit {node : Node} : node.IsPlain →
    rel Eq (Parser.emit node : Parser n _) (Parser.emit node : Parser m _)
  within {R : α → α → Prop} {f : List Node → Node} {p : Parser n α}
    {p' : Parser m α} :
    Node.IsFrame f → rel R p p' → rel R (p.within f) (p'.within f)
  entry {ident : Ident} {index index' : Value} {p : Parser n Value}
    {p' : Parser m Value} :
    value index index' → rel value p p' →
      rel value (Grammar.entryValue ⟨ident, index⟩ p)
        (Grammar.entryValue ⟨ident, index'⟩ p')
  locals {names : List Ident} {p : Parser n (List Value)}
    {p' : Parser m (List Value)} :
    rel (List.Forall₂ value) p p' → rel (List.Forall₂ value)
      (p.wrap fun nodes inits => [.locals names nodes inits])
      (p'.wrap fun nodes inits => [.locals names nodes inits])
  assign {ss ss' : List Suffixed} {p : Parser n (List Value)}
    {p' : Parser m (List Value)} :
    List.Forall₂ (Suffixed.Rel value) ss ss' → rel (List.Forall₂ value) p p' →
      rel (List.Forall₂ value)
      (p.wrap fun nodes inits => [.assign (ss.map (·.target)) nodes inits])
      (p'.wrap fun nodes inits => [.assign (ss'.map (·.target)) nodes inits])
  function {head : FunctionHead} {p : Parser n Pos} {p' : Parser m Pos} :
    rel Eq p p' → rel Eq (p.wrap fun nodes stop => [.function head nodes stop])
      (p'.wrap fun nodes stop => [.function head nodes stop])

inductive Parameters.Rel (E : SyntaxError → SyntaxError → Prop) :
    Parameters → Parameters → Prop where
  | complete {idents : List Ident} {isVararg : Bool} :
      Rel E ⟨idents, isVararg, none⟩ ⟨idents, isVararg, none⟩
  | broken {idents : List Ident} {isVararg : Bool} {e e' : SyntaxError}
      (he : E e e') :
      Rel E ⟨idents, isVararg, some e⟩ ⟨idents, isVararg, some e'⟩

inductive Header.Rel (E : SyntaxError → SyntaxError → Prop) :
    Header → Header → Prop where
  | complete {idents : List Ident} {isVararg : Bool} {line : Nat} :
      Rel E ⟨idents, isVararg, .ok line⟩ ⟨idents, isVararg, .ok line⟩
  | broken {idents : List Ident} {isVararg : Bool} {e e' : SyntaxError}
      (he : E e e') :
      Rel E ⟨idents, isVararg, .error e⟩ ⟨idents, isVararg, .error e'⟩

namespace Parser.Comparison

variable (C : Comparison) {n m : Nat}

theorem rel.then_ {C : Comparison} {S : β → β → Prop} {p : Parser n α}
    {p' : Parser m α} {f : α → Parser n β} {f' : α → Parser m β}
    (hp : C.rel Eq p p') (hf : ∀ a, C.rel S (f a) (f' a)) :
    C.rel S (p >>= f) (p' >>= f') :=
  C.bind hp fun a _ ha => ha ▸ hf a

/-! ## Parsers for single tokens -/

theorem fail {R : α → α → Prop} (fault : SyntaxFault) :
    C.rel R (Parser.fail fault : Parser n α) (Parser.fail fault : Parser m α) :=
  C.bind (C.errorHere fault) fun _ _ he => C.throw he

theorem nextIs (kind : TokenKind) :
    C.rel Eq (Parser.nextIs kind : Parser n _)
      (Parser.nextIs kind : Parser m _) := by
  refine C.bind C.peek fun t t' ht => C.pure ?_
  cases ht with
  | none => rfl
  | some ht => simp [C.token_kind ht]

theorem atBlockEnd :
    C.rel Eq (Parser.atBlockEnd : Parser n _)
      (Parser.atBlockEnd : Parser m _) := by
  refine C.bind C.peek fun t t' ht => C.pure ?_
  cases ht with
  | none => rfl
  | some ht => simp [C.token_kind ht]

theorem accept (kind : TokenKind) :
    C.rel Eq (Parser.accept kind : Parser n _)
      (Parser.accept kind : Parser m _) := by
  refine (C.nextIs kind).then_ fun isNext => ?_
  split
  · exact C.skip.then_ fun _ => C.pure rfl
  · exact C.pure rfl

theorem acceptOr (kind : TokenKind) {p : Parser n Unit} {p' : Parser m Unit}
    (h : C.rel Eq p p') :
    C.rel Eq (do unless ← Parser.accept kind do p)
      (do unless ← Parser.accept kind do p') := by
  refine (C.accept kind).then_ fun isNext => ?_
  split
  · exact C.pure rfl
  · exact h

theorem expectSymbol (sign : Symbol) :
    C.rel Eq (Parser.expectSymbol sign : Parser n _)
      (Parser.expectSymbol sign : Parser m _) :=
  C.acceptOr _ (C.fail _)

theorem expectKeyword (word : Keyword) :
    C.rel Eq (Parser.expectKeyword word : Parser n _)
      (Parser.expectKeyword word : Parser m _) :=
  C.acceptOr _ (C.fail _)

theorem expectName :
    C.rel Eq (Parser.expectName : Parser n _)
      (Parser.expectName : Parser m _) := by
  refine C.bind C.peek fun t t' ht => ?_
  cases ht with
  | none => exact C.fail _
  | some ht =>
      dsimp only
      rw [← C.token_kind ht, ← C.token_value ht, ← C.token_pos ht]
      split
      · exact C.skip.then_ fun _ => C.pure rfl
      · exact C.fail _

theorem missing (closer : TokenKind) (what : Expected) (opener : TokenKind)
    (line : Nat) :
    C.rel Eq (Parser.missing closer what opener line : Parser n _)
      (Parser.missing closer what opener line : Parser m _) := by
  refine C.here.then_ fun pos => ?_
  split <;> exact C.fail _

theorem closeSymbol (sign opener : Symbol) (line : Nat) :
    C.rel Eq (Parser.closeSymbol sign opener line : Parser n _)
      (Parser.closeSymbol sign opener line : Parser m _) :=
  C.acceptOr _ (C.missing _ _ _ _)

theorem closeKeyword (word opener : Keyword) (line : Nat) :
    C.rel Eq (Parser.closeKeyword word opener line : Parser n _)
      (Parser.closeKeyword word opener line : Parser m _) :=
  C.acceptOr _ (C.missing _ _ _ _)

/-! ## Lists of names -/

theorem recurring {R : α → α → Prop} {p : (n : Nat) → Parser n α}
    (h : ∀ n m, C.rel R (p n) (p m) → C.rel R (p (n + 1)) (p (m + 1)))
    (n m : Nat) : C.rel R (p n) (p m) := by
  induction n generalizing m with
  | zero => exact C.absurd _ _ (.inl rfl)
  | succ n ih =>
      cases m with
      | zero => exact C.absurd _ _ (.inr rfl)
      | succ m => exact h n m (ih m)

theorem parameters (n m : Nat) :
    C.rel (Parameters.Rel C.error) (Parser.parameters n)
      (Parser.parameters m) := by
  refine C.recurring (fun n m ih => ?_) n m
  refine C.onToken (fun t t' ht => ?_) (C.bind (C.errorHere _) fun _ _ he =>
    C.pure (.broken he))
  dsimp only
  rw [← C.token_kind ht, ← C.token_value ht, ← C.token_pos ht]
  split
  · exact .some (C.pure .complete)
  · split
    · refine .some ((C.accept _).then_ fun hasMore => ?_)
      split
      · refine C.bind ih fun more more' hmore => C.pure ?_
        cases hmore with
        | complete => exact .complete
        | broken he => exact .broken he
      · exact C.pure .complete
    · exact .none

theorem header :
    C.rel (Header.Rel C.error) (Parser.header : Parser n _)
      (Parser.header : Parser m _) := by
  refine (C.accept _).then_ fun isOpen => ?_
  split
  · refine (C.nextIs _).then_ fun isEmpty => ?_
    split
    on_goal 1 =>
      refine C.bind (R := Parameters.Rel C.error) (C.pure .complete)
        fun read read' hread => ?_
    on_goal 2 => refine C.bind (C.parameters n m) fun read read' hread => ?_
    all_goals
      cases hread with
      | broken he => exact C.pure (.broken he)
      | complete =>
          refine (C.accept _).then_ fun isClosed => ?_
          split
          · exact C.last.then_ fun _ => C.pure .complete
          · exact C.bind (C.errorHere _) fun _ _ he => C.pure (.broken he)
  · exact C.bind (C.errorHere _) fun _ _ he => C.pure (.broken he)

theorem moreNames (n m : Nat) :
    C.rel Eq (Parser.moreNames n) (Parser.moreNames m) := by
  refine C.recurring (fun n m ih => ?_) n m
  refine C.onToken (fun t t' ht => ?_) (C.pure rfl)
  rw [← C.token_kind ht]
  split
  · exact .some (C.expectName.then_ fun _ => ih)
  · exact .none

theorem dottedNames (n m : Nat) :
    C.rel Eq (Parser.dottedNames n) (Parser.dottedNames m) := by
  refine C.recurring (fun n m ih => ?_) n m
  refine C.onToken (fun t t' ht => ?_) (C.pure rfl)
  rw [← C.token_kind ht]
  split
  · exact .some (C.expectName.then_ fun _ => ih.then_ fun _ => C.pure rfl)
  · exact .none

theorem localAttribute :
    C.rel Eq (Parser.localAttribute : Parser n _)
      (Parser.localAttribute : Parser m _) := by
  refine (C.accept _).then_ fun hasAttribute => ?_
  split
  · exact C.expectName.then_ fun _ => C.expectSymbol _
  · exact C.pure rfl

theorem localNames (n m : Nat) :
    C.rel Eq (Parser.localNames n) (Parser.localNames m) := by
  refine C.recurring (fun n m ih => ?_) n m
  refine C.onToken (fun t t' ht => ?_) (C.fail _)
  rw [← C.token_kind ht, ← C.token_value ht, ← C.token_pos ht]
  split
  · refine .some (C.localAttribute.then_ fun _ =>
      (C.accept _).then_ fun hasMore => ?_)
    split
    · exact ih.then_ fun _ => C.pure rfl
    · exact C.pure rfl
  · exact .none

end Parser.Comparison

end LuaGloss
