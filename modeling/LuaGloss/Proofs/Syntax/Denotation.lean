import LuaGloss.Proofs.Syntax.Growth
import LuaGloss.Proofs.Syntax.Soundness

/-!
# Values of expressions

The value of an expression by its syntax tree.  It reaches from the first token
to the last, and its shape is that of the root: a constant, a table constructor,
a function or a chain of names if there is nothing else, and otherwise just an
expression.
-/

namespace LuaGloss

/-! ## Chains of names -/

/-- Whether tokens are names with dots between them. -/
inductive NameChain : List Token → List Bytes → Prop
  | name {t : Token} : t.kind = .name → NameChain [t] [t.value]
  | dot {t d : Token} {ts : List Token} {names : List Bytes} :
      t.kind = .name → d.kind = .symbol .dot →
      NameChain ts names → NameChain (t :: d :: ts) (t.value :: names)

namespace NameChain

variable {ts : List Token} {names : List Bytes} {d t : Token}

theorem ne_nil (h : NameChain ts names) : names ≠ [] := by
  cases h <;> simp

theorem head (h : NameChain ts names) :
    ∃ t more, ts = t :: more ∧ t.kind = .name := by
  cases h with
  | name ht => exact ⟨_, _, rfl, ht⟩
  | dot ht _ _ => exact ⟨_, _, rfl, ht⟩

theorem kind (h : NameChain ts names) :
    ∀ t ∈ ts, t.kind = .name ∨ t.kind = .symbol .dot := by
  induction h with
  | name ht => simp [ht]
  | dot ht hd _ ih =>
      intro t hmem
      rcases List.mem_cons.1 hmem with rfl | hmem
      · exact .inl ht
      · rcases List.mem_cons.1 hmem with rfl | hmem
        · exact .inr hd
        · exact ih t hmem

theorem lengthen (h : NameChain ts names) (hd : d.kind = .symbol .dot)
    (ht : t.kind = .name) : NameChain (ts ++ [d, t]) (names ++ [t.value]) := by
  induction h with
  | name hfirst => exact .dot hfirst hd (.name ht)
  | dot hfirst hdot _ ih => exact .dot hfirst hdot ih

theorem shorten (h : NameChain (ts ++ [d, t]) names) :
    ∃ names', NameChain ts names' := by
  generalize hall : ts ++ [d, t] = all at h
  induction h generalizing ts with
  | name => simp [List.append_eq_cons_iff] at hall
  | @dot first dot more names hfirst hdot hmore ih =>
      match ts with
      | [] =>
          obtain ⟨-, -, rfl⟩ : d = first ∧ t = dot ∧
              [] = more := by simpa using hall
          exact nomatch hmore
      | [_] =>
          obtain ⟨rfl, -⟩ := List.cons.inj hall
          exact ⟨_, .name hfirst⟩
      | _ :: _ :: ts =>
          obtain ⟨rfl, htail⟩ := List.cons.inj hall
          obtain ⟨rfl, hrest⟩ := List.cons.inj htail
          obtain ⟨names', hnames⟩ := ih hrest
          exact ⟨_, .dot hfirst hdot hnames⟩

end NameChain

namespace Tree

/-! ## First tokens -/

theorem IsA.table_tokens {tree : Tree} (h : tree.IsA .table) :
    ∃ t more, tree.tokens = t :: more ∧ t.kind = .symbol .leftBrace := by
  cases h with
  | node hproduction hspells =>
      cases hproduction
      obtain ⟨t, more, rfl, ht, -⟩ := spells_token.1 hspells
      exact ⟨t, tokensAll more, rfl, ht⟩

theorem IsA.suffixed_tokens {tree : Tree} {form : SuffixedForm}
    (h : tree.IsA (.suffixed form)) :
    ∃ t more, tree.tokens = t :: more ∧
    (t.kind = .name ∨ t.kind = .symbol .leftParen) := by
  induction tree using Tree.induct generalizing form with
  | leaf t => simp at h
  | node p children ih =>
      obtain ⟨rfl, syms, hproduction, hspells⟩ := isA_node.1 h
      -- suffixes stand behind another suffixed expression, which has the first
      -- token
      have hbefore {before : SuffixedForm} {syms : List Sym}
          (hspells : Spells children (.phrase (.suffixed before) :: syms)) :
          ∃ t more, (Tree.node (.suffixed form) children).tokens = t :: more ∧
            (t.kind = .name ∨ t.kind = .symbol .leftParen) := by
        obtain ⟨c, more, rfl, hc, -⟩ := spells_phrase.1 hspells
        obtain ⟨t, behind, htokens, hkind⟩ := ih c (by simp) hc
        exact ⟨t, behind ++
          tokensAll more, by
          rw [tokens, tokensAll, htokens, List.cons_append], hkind⟩
      cases hproduction with
      | ofName =>
          obtain ⟨t, more, rfl, ht, -⟩ := spells_token.1 hspells
          exact ⟨t, tokensAll more, rfl, .inl ht⟩
      | ofParens =>
          obtain ⟨t, more, rfl, ht, -⟩ := spells_token.1 hspells
          exact ⟨t, tokensAll more, rfl, .inr ht⟩
      | dot => exact hbefore hspells
      | bracket => exact hbefore hspells
      | method => exact hbefore hspells
      | call => exact hbefore hspells

/-- What the tokens of an expression begin with: a whole table constructor or
function, or another token than theirs. -/
inductive Begins : List Token → Prop
  | table {tree : Tree} {more : List Token} :
      tree.IsA .table → Begins (tree.tokens ++ more)
  | function {t : Token} {tree : Tree} {more : List Token} :
      t.kind = .keyword .function_ → tree.IsA .body →
      Begins (t :: tree.tokens ++ more)
  | other {t : Token} {more : List Token} :
      t.kind ≠ .symbol .leftBrace → t.kind ≠ .keyword .function_ →
      Begins (t :: more)

namespace Begins

variable {ts : List Token}

theorem append (h : Begins ts) (more : List Token) : Begins (ts ++ more) := by
  cases h with
  | table htree =>
      rw [List.append_assoc]
      exact .table htree
  | function ht htree =>
      rw [List.append_assoc]
      exact .function ht htree
  | other hbrace hfunction => exact .other hbrace hfunction

theorem ne_nil (h : Begins ts) : ts ≠ [] := by
  cases h with
  | table htree =>
      obtain ⟨t, more, htokens, -⟩ := htree.table_tokens
      simp [htokens]
  | function => simp
  | other => simp

end Begins

theorem IsA.begins {tree : Tree} (h : tree.IsA .expression) :
    Begins tree.tokens := by
  -- neither an operator nor an atom opens a table constructor or a function
  have hplain : ∀ k ∈ TokenKind.atoms ++ TokenKind.unaryOperators,
      k ≠ .symbol .leftBrace ∧ k ≠ .keyword .function_ := by decide
  induction tree using Tree.induct with
  | leaf t => simp at h
  | node p children ih =>
      obtain ⟨rfl, syms, hproduction, hspells⟩ := isA_node.1 h
      rw [tokens]
      cases hproduction with
      | atom hk =>
          obtain ⟨t, more, rfl, rfl, -⟩ := spells_token.1 hspells
          obtain ⟨hbrace, hfunction⟩ := hplain t.kind (List.mem_append_left _ hk)
          exact .other hbrace hfunction
      | unary hop =>
          obtain ⟨t, more, rfl, rfl, -⟩ := spells_token.1 hspells
          obtain ⟨hbrace, hfunction⟩ := hplain t.kind (List.mem_append_right _ hop)
          exact .other hbrace hfunction
      | binary hop =>
          obtain ⟨left, more, rfl, hleft, -⟩ := spells_phrase.1 hspells
          exact (ih left (by simp) hleft).append _
      | tableValue =>
          obtain ⟨c, more, rfl, hc, -⟩ := spells_phrase.1 hspells
          exact .table hc
      | functionValue =>
          obtain ⟨t, more, rfl, ht, hmore⟩ := spells_token.1 hspells
          obtain ⟨body, more, rfl, hbody, -⟩ := spells_phrase.1 hmore
          exact .function ht hbody
      | suffixedValue =>
          obtain ⟨c, more, rfl, hc, -⟩ := spells_phrase.1 hspells
          obtain ⟨t, behind, htokens, ht⟩ := hc.suffixed_tokens
          rw [tokensAll, htokens]
          rcases ht with hname | hparen
          · exact .other (by simp [hname]) (by simp [hname])
          · exact .other (by simp [hparen]) (by simp [hparen])

theorem IsA.tokens_ne_nil {tree : Tree} (h : tree.IsA .expression) :
    tree.tokens ≠ [] := h.begins.ne_nil

/-! ## Shapes and values -/

/-- The shape of an expression, and the dotted name if it is a reference. -/
inductive Shapes : Tree → ValueShape → Bytes → Prop
  | constant {t : Token} :
      t.kind.isConstant = true → Shapes (node .expression [leaf t]) .constant []
  | varargs {t : Token} :
      t.kind = .symbol .ellipsis →
      Shapes (node .expression [leaf t]) .expression []
  | table {c : Tree} :
      c.IsA .table → Shapes (node .expression [c]) (.table none) []
  | function {t : Token} {c : Tree} {signature : Signature} :
      t.kind = .keyword .function_ → c.IsA .body →
      Shapes (node .expression [leaf t, c]) (.function signature) []
  | names {c : Tree} {names : List Bytes} : NameChain c.tokens names →
      Shapes (node .expression [c]) .reference (Bytes.join (utf8 ".") names)
  | suffixed {c : Tree} {form : SuffixedForm} :
      c.IsA (.suffixed form) → (∀ names, ¬NameChain c.tokens names) →
      Shapes (node .expression [c]) .expression []
  | unary {t : Token} {c : Tree} :
      t.kind ∈ TokenKind.unaryOperators →
      Shapes (node .expression [leaf t, c]) .expression []
  | binary {t : Token} {left right : Tree} :
      left.IsA .expression → t.kind ∈ TokenKind.binaryOperators →
      Shapes (node .expression [left, leaf t, right]) .expression []

theorem Shapes.ne_empty {tree : Tree} {shape : ValueShape} {ref : Bytes}
    (h : tree.Shapes shape ref) : shape ≠ .empty := by
  cases h <;> simp

def covering (source : Bytes) (tree : Tree) (shape : ValueShape) (ref : Bytes) :
    Value :=
  { (Value.ofToken shape source tree.first).extend tree.last with ref }

def Denotes (source : Bytes) (tree : Tree) (v : Value) : Prop :=
  ∃ shape ref, tree.Shapes shape ref ∧ v = tree.covering source shape ref

theorem Denotes.start {source : Bytes} {tree : Tree} {v : Value}
    (h : tree.Denotes source v) :
    v.start = min tree.first.offset tree.last.offset := by
  obtain ⟨shape, ref, hshapes, rfl⟩ := h
  simp only [covering, Value.extend, Value.extendTo, Value.ofToken,
    Value.ofSpan, Value.isEmpty, beq_iff_eq, hshapes.ne_empty, if_false]
  omega

/-- What a span comes to: the value that covers the tree. -/
theorem Regroups.covering {tree first : Tree} {trees : List Tree}
    (h : Regroups [tree] (first :: trees)) (hne : first.tokens ≠ [])
    (source : Bytes) (shape : ValueShape) :
    (Value.ofToken shape source first.first).extend (lastOf first.last trees) =
      tree.covering source shape [] := by
  obtain ⟨hfirst, hlast⟩ := h.ends hne
  rw [Tree.covering, hfirst, hlast, Value.extend, Value.extendTo]
  split <;> rfl

/-- What is read for an expression: its value, and nodes among which the table
of an owner is the first. -/
structure Yields (source : Bytes) (owned : Bool) (tree : Tree) (v : Value)
    (nodes : List Node) : Prop where
  isA : tree.IsA .expression
  denotes : tree.Denotes source v
  fits : Node.Fits (fun _ => tree.Leads) v nodes
  free : owned = false → Node.AreFree nodes

end Tree

/-! ## Suffixed expressions -/

namespace Suffixed

open LuaGloss.Tree

/-- Whether `tree` is what has been read of a suffixed expression. -/
structure Reads (s : Suffixed) (tree : Tree) : Prop where
  isA : ∃ form, s.HasForm form ∧ tree.IsA (.suffixed form)
  start : s.start = tree.first
  chain : if s.isNameChain then
    NameChain tree.tokens s.path else ∀ names, ¬NameChain tree.tokens names

def valueOf (source : Bytes) (s : Suffixed) (tree : Tree) : Value :=
  if s.isNameChain then
    tree.covering source .reference (Bytes.join (utf8 ".") s.path)
  else tree.covering source .expression []

theorem not_nameChain {tree : Tree} {t : Token} (hmem : t ∈ tree.tokens)
    (hkind : t.kind ≠ .name ∧ t.kind ≠ .symbol .dot) :
    ∀ names, ¬NameChain tree.tokens names := by
  intro names hnames
  rcases hnames.kind t hmem with hname | hdot
  · exact hkind.1 hname
  · exact hkind.2 hdot

namespace Reads

variable {s : Suffixed} {tree : Tree}

theorem tokens_ne_nil (h : s.Reads tree) : tree.tokens ≠ [] := by
  obtain ⟨form, -, hisA⟩ := h.isA
  obtain ⟨t, more, htokens, -⟩ := hisA.suffixed_tokens
  simp [htokens]

theorem ofName {t : Token} (ht : t.kind = .name) :
    (Suffixed.ofName ⟨t.value, t.pos⟩).Reads
      (.node (.suffixed .variable_) [.leaf t]) where
  isA := ⟨.variable_, hasForm_ofName _, .node .ofName (.token ht .nil)⟩
  start := rfl
  chain := NameChain.name ht

theorem ofParens {t u : Token} {e : Tree} (ht : t.kind = .symbol .leftParen)
    (he : e.IsA .expression) (hu : u.kind = .symbol .rightParen) :
    (Suffixed.ofParens t.pos).Reads
      (.node (.suffixed .parens) [.leaf t, e, .leaf u]) where
  isA :=
    ⟨.parens, hasForm_ofParens _,
      .node .ofParens (.token ht (.phrase he (.token hu .nil)))⟩
  start := rfl
  chain := not_nameChain (t := t) (by simp [tokens, tokensAll]) (by simp [ht])

theorem first_suffix (h : s.Reads tree) (form : SuffixedForm)
    (suffix : List Tree) :
    (Tree.node (.suffixed form) (tree :: suffix)).first = tree.first :=
  ((Regroups.node (.suffixed form) (tree :: suffix) nofun).ends h.tokens_ne_nil).1

theorem dot (h : s.Reads tree) {d t : Token} (hd : d.kind = .symbol .dot)
    (ht : t.kind = .name) :
    (s.dot ⟨t.value, t.pos⟩).Reads
      (.node (.suffixed .variable_) [tree, .leaf d, .leaf t]) where
  isA := by
    obtain ⟨form, -, hisA⟩ := h.isA
    exact ⟨.variable_, hasForm_dot _ _,
      .node .dot (.phrase hisA (.token hd (.token ht .nil)))⟩
  start := by
    rw [h.first_suffix, ← h.start]
    unfold Suffixed.dot extendPath
    split <;> rfl
  chain := by
    have hchain := h.chain
    have hflag : (s.dot ⟨t.value, t.pos⟩).isNameChain = s.isNameChain := by
      unfold Suffixed.dot extendPath
      split <;> rfl
    rw [hflag]
    change if s.isNameChain then NameChain (tree.tokens ++ [d, t]) _ else
      ∀ names, ¬NameChain (tree.tokens ++ [d, t]) names
    split at hchain
    next hnames =>
      have hpath : s.path.isEmpty = false := by simpa using hchain.ne_nil
      rw [if_pos hnames]
      simpa [Suffixed.dot, extendPath, hpath] using hchain.lengthen hd ht
    next hnames =>
      rw [if_neg hnames]
      intro names hlonger
      obtain ⟨names', hshorter⟩ := hlonger.shorten
      exact hchain names' hshorter

theorem bracket (h : s.Reads tree) {t u : Token} {e : Tree}
    (ht : t.kind = .symbol .leftBracket) (he : e.IsA .expression)
    (hu : u.kind = .symbol .rightBracket) (key : Option Ident) (index : Value) :
    (s.bracket key index).Reads
      (.node (.suffixed .variable_) [tree, .leaf t, e, .leaf u]) where
  isA := by
    obtain ⟨form, -, hisA⟩ := h.isA
    exact ⟨.variable_, hasForm_bracket _ _ _,
      .node .bracket (.phrase hisA (.token ht (.phrase he (.token hu .nil))))⟩
  start := by
    rw [h.first_suffix, ← h.start]
    unfold Suffixed.bracket extendPath
    cases key with
    | none => rfl
    | some ident =>
        dsimp only
        split <;> rfl
  chain := not_nameChain (t := t) (by simp [tokens, tokensAll]) (by simp [ht])

theorem call (h : s.Reads tree) {suffix : List Tree} {t : Token}
    {more : List Token} (hsuffix : tokensAll suffix = t :: more)
    (ht : t.kind ≠ .name ∧ t.kind ≠ .symbol .dot)
    (hisA : ∀ form, tree.IsA (.suffixed form) →
      (Tree.node (.suffixed .call) (tree :: suffix)).IsA (.suffixed .call)) :
    s.call.Reads (.node (.suffixed .call) (tree :: suffix)) where
  isA := by
    obtain ⟨form, -, htree⟩ := h.isA
    exact ⟨.call, s.hasForm_call, hisA form htree⟩
  start := by rw [h.first_suffix, ← h.start, Suffixed.call]
  chain := not_nameChain (t := t) (by simp [tokens, tokensAll, hsuffix]) ht

theorem withValue (h : s.Reads tree) (v : Value) :
    { s with value := v }.Reads tree where
  isA := by
    obtain ⟨form, hform, hisA⟩ := h.isA
    exact ⟨form, by cases form <;> exact hform, hisA⟩
  start := h.start
  chain := h.chain

theorem denotes (h : s.Reads tree) (source : Bytes) :
    (Tree.node .expression [tree]).Denotes source (s.valueOf source tree) := by
  have hends := (Regroups.node .expression [tree] nofun).ends h.tokens_ne_nil
  have hcovering (shape : ValueShape) (ref : Bytes) :
      tree.covering source shape ref = (Tree.node .expression [tree]).covering
        source shape ref := by
    rw [Tree.covering, Tree.covering, hends.1, hends.2]
    rfl
  have hchain := h.chain
  unfold valueOf
  split at hchain
  next hnames =>
    rw [if_pos hnames]
    exact ⟨.reference, _, .names hchain, hcovering _ _⟩
  next hnames =>
    obtain ⟨form, -, hisA⟩ := h.isA
    rw [if_neg hnames]
    exact ⟨.expression, [], .suffixed hisA hchain, hcovering _ _⟩

end Reads

end Suffixed

end LuaGloss
