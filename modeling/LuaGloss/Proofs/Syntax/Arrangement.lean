import LuaGloss.Proofs.Syntax.Denotation

/-!
# Trees of what the parsers read

Whenever a parser of the grammar succeeds, the tokens that it took away form a
tree of its phrase.  An expression comes to the value of its tree, and the nodes
that were yielded fit the tree.

Operators and suffixes are read one after the other behind what they belong to.
Their parsers are told the tree so far and put it under a new root with each
further operator or suffix.
-/

namespace LuaGloss

open LuaGloss.Tree LuaGloss.Node

/-! ## Nodes and trees of expressions -/

namespace Node

theorem Fits.append {opens : Value → List Node → Prop} {v : Value}
    {nodes more : List Node} (h : Fits opens v nodes) (hmore : AreFree more) :
    Fits opens v (nodes ++ more) := by
  cases h with
  | free hfree => exact .free (areFree_append.2 ⟨hfree, hmore⟩)
  | table hopens hfree => exact .table hopens (areFree_append.2 ⟨hfree, hmore⟩)

theorem FitAll.opensIn {tree : Tree} {vs : List Value} {nodes : List Node}
    (h : FitAll tree.Opens vs nodes) : FitAll (OpensIn [tree]) vs nodes :=
  h.mono fun _ _ hopens => ⟨tree, List.mem_singleton_self tree, hopens⟩

end Node

namespace Tree

variable {source : Bytes} {owned : Bool} {tree root : Tree} {v : Value}
  {nodes : List Node}

theorem Leads.sub {inner : List Node} (h : tree.Leads inner)
    (hsub : tree.Sub root) (hfirst : root.first = tree.first) :
    root.Leads inner := by
  obtain ⟨c, hc, hisA, hcfirst, hstops⟩ := h
  exact ⟨c, hc.trans hsub, hisA, hcfirst.trans hfirst.symm, hstops⟩

theorem Yields.opens (h : tree.Yields source owned v nodes)
    (hsub : tree.Sub root) : Fits root.Opens v nodes :=
  h.fits.mono fun _ hleads => ⟨tree, hsub, hleads, h.denotes.start⟩

/-- Nothing is built for an owner in an expression that is not the first operand
of an initializer. -/
theorem Yields.of_free (hisA : tree.IsA .expression)
    (hdenotes : tree.Denotes source v) (hfree : AreFree nodes) :
    tree.Yields source owned v nodes :=
  ⟨hisA, hdenotes, .free hfree, fun _ => hfree⟩

theorem Yields.lengthen {v' : Value} {more : List Node} {trees : List Tree}
    (h : tree.Yields source owned v nodes)
    (hgroup : Regroups [root] (tree :: trees)) (hisA : root.IsA .expression)
    (hdenotes : root.Denotes source v') (hmore : AreFree more) :
    root.Yields source owned v' (nodes ++ more) where
  isA := hisA
  denotes := hdenotes
  fits := by
    obtain ⟨hfirst, -⟩ := hgroup.ends h.isA.tokens_ne_nil
    obtain ⟨t, ht, hsub⟩ := hgroup.sub tree (by simp)
    obtain rfl := List.mem_singleton.1 ht
    have hleads : Fits (fun _ => t.Leads) v' nodes := by
      cases h.fits with
      | free hfree => exact .free hfree
      | table hopens hfree => exact .table (hopens.sub hsub hfirst) hfree
    exact hleads.append hmore
  free howned := areFree_append.2 ⟨h.free howned, hmore⟩

theorem IsA.entrySpots_eq_nil (h : tree.IsA .entry) (rest : List Token) :
    tree.entrySpots rest = [] := by
  cases h
  rfl

theorem entrySpots_subset {children : List Tree} {ts more : List Token}
    {t : Token} {stops : List Nat} (finish : Pos)
    (htokens : ts = tokensAll children ++ t :: more)
    (hend : t.pos.offset ∈ stops) (hinner : entrySpotsAll children [t] ⊆ stops) :
    (node .entries children).entrySpots [t] ⊆ nextOffset finish ts :: stops := by
  have hbegin :
      nextOffset .none (tokensAll children ++ [t]) = nextOffset finish ts := by
    rw [htokens]
    cases tokensAll children <;> rfl
  rw [entrySpots, hbegin]
  exact List.cons_subset_cons _ (List.cons_subset.2 ⟨hend, hinner⟩)

theorem IsA.nextOffset_mem_entrySpots (h : tree.IsA .entries) (rest : List Token) :
    nextOffset .none rest ∈ tree.entrySpots rest := by
  cases h
  exact List.mem_cons_of_mem _ List.mem_cons_self

end Tree

namespace Parser

variable {chunk : Chunk}

/-! ## Lists of names -/

theorem parameters_grows (n : Nat) (ts : List Token) (past : Pos) :
    Grows chunk (parameters n) ts past fun read trees _ nodes =>
      ∃ tree, trees = [tree] ∧ (read.error = none → tree.IsA .parameters) ∧
      AreFree nodes := by
  induction n generalizing ts past with
  | zero => exact .absurd
  | succ n ih =>
      refine .node .parameters nofun
        (.onToken ?_ (.bind (.errorHere fun e => .pure ⟨by simp, trivial⟩)))
      rintro t ts rfl p hp
      split at hp
      next hkind =>
        obtain rfl := Option.some.inj hp
        exact .pure ⟨fun _ => .node .varargs (.token hkind .nil), trivial⟩
      next =>
        split at hp
        next hkind =>
          obtain rfl := Option.some.inj hp
          refine .bind
            (.accept ?_
              (.pure ⟨fun _ => .node .parameter (.token hkind .nil), trivial⟩))
          rintro comma ts rfl hcomma
          refine .bind ((ih ts _).mono ?_)
          rintro read _ rest nodes - ⟨more, rfl, hmore, hfree⟩
          refine .pure ⟨fun he => ?_, by simpa [AreFree] using hfree⟩
          exact .node .parameters
            (.token hkind (.token hcomma (.phrase (hmore he) .nil)))
        next => simp at hp

theorem header_grows (ts : List Token) (past : Pos) :
    Grows chunk (header : Parser n Header) ts past fun head trees _ nodes =>
      AreFree nodes ∧ ∀ line, head.closed = .ok line →
        ∃ syms, Production .body
          (syms ++ [.phrase .block, .token (.keyword .end_)]) ∧
          Spells trees syms := by
  refine .bind (.accept ?_ (.bind (.errorHere fun e => .pure ⟨trivial, by simp⟩)))
  rintro t ts rfl ht
  refine .bind (.nextIs ?_)
  split
  · refine .bind
      (.pure (.bind
        (.accept ?_ (.bind (.errorHere fun e => .pure ⟨trivial, by simp⟩)))))
    rintro u ts rfl hu
    refine .bind (.last (.pure ⟨trivial, fun _ _ => ?_⟩))
    exact ⟨_, .bodyWithoutParameters, .token ht (.token hu .nil)⟩
  · refine .bind ((parameters_grows n ts _).mono ?_)
    rintro read _ mid nodes - ⟨tree, rfl, htree, hfree⟩
    dsimp only
    split
    next e he => exact .pure ⟨by simpa using hfree, by simp⟩
    next he =>
      refine .bind
        (.accept ?_
          (.bind (.errorHere fun e => .pure ⟨by simpa using hfree, by simp⟩)))
      rintro u mid rfl hu
      refine .bind (.last (.pure ⟨by simpa using hfree, fun _ _ => ?_⟩))
      exact ⟨_, .body, .token ht (.phrase (htree he) (.token hu .nil))⟩

theorem moreNames_grows (n : Nat) (ts : List Token) (past : Pos) :
    Grows chunk (moreNames n) ts past fun _ trees _ _ =>
      ∃ tree, trees = [tree] ∧ tree.IsA .moreNames := by
  induction n generalizing ts past with
  | zero => exact .absurd
  | succ n ih =>
      refine .node .moreNames nofun (.onToken ?_ (.pure (.node .noMoreNames .nil)))
      rintro t ts rfl p hp
      split at hp
      next hkind =>
        obtain rfl := Option.some.inj hp
        refine .bind (.expectName ?_)
        rintro name ts rfl hname
        refine (ih ts _).mono ?_
        rintro _ _ rest nodes - ⟨more, rfl, hmore⟩
        exact .node .moreNames (.token hkind (.token hname (.phrase hmore .nil)))
      next => simp at hp

theorem dottedNames_grows (n : Nat) (ts : List Token) (past : Pos) :
    Grows chunk (dottedNames n) ts past fun _ trees _ _ =>
      ∃ tree, trees = [tree] ∧ tree.IsA .nameParts := by
  induction n generalizing ts past with
  | zero => exact .absurd
  | succ n ih =>
      refine .node .nameParts nofun (.onToken ?_ (.pure (.node .noNamePart .nil)))
      rintro t ts rfl p hp
      split at hp
      next hkind =>
        obtain rfl := Option.some.inj hp
        refine .bind (.expectName ?_)
        rintro name ts rfl hname
        refine .bind ((ih ts _).mono ?_)
        rintro _ _ rest nodes - ⟨more, rfl, hmore⟩
        exact .pure
          (.node .namePart (.token hkind (.token hname (.phrase hmore .nil))))
      next => simp at hp

theorem localAttribute_grows (ts : List Token) (past : Pos) :
    Grows chunk (localAttribute : Parser n Unit) ts past fun _ trees _ _ =>
      ∃ tree, trees = [tree] ∧ tree.IsA .attrib := by
  refine .node .attrib nofun (.bind (.accept ?_ (.pure (.node .noAttrib .nil))))
  rintro t ts rfl ht
  refine .bind (.expectName ?_)
  rintro name ts rfl hname
  refine .expectSymbol ?_
  rintro u rest rfl hu
  exact .node .attrib (.token ht (.token hname (.token hu .nil)))

theorem localNames_grows (n : Nat) (ts : List Token) (past : Pos) :
    Grows chunk (localNames n) ts past fun _ trees _ _ =>
      ∃ tree, trees = [tree] ∧ tree.IsA .localNames := by
  induction n generalizing ts past with
  | zero => exact .absurd
  | succ n ih =>
      refine .node .localNames nofun (.onToken ?_ .fail)
      rintro t ts rfl p hp
      split at hp
      next hkind =>
        obtain rfl := Option.some.inj hp
        refine .bind ((localAttribute_grows ts _).mono ?_)
        rintro _ _ mid nodes - ⟨attrib, rfl, hattrib⟩
        refine .bind
          (.accept ?_
            (.pure (.node .localName (.token hkind (.phrase hattrib .nil)))))
        rintro comma mid rfl hcomma
        refine .bind ((ih mid _).mono ?_)
        rintro _ _ rest nodes' - ⟨more, rfl, hmore⟩
        exact .pure
          (.node .localNames
            (.token hkind (.phrase hattrib (.token hcomma (.phrase hmore .nil)))))
      next => simp at hp

end Parser

namespace Grammar

open LuaGloss.Parser

/-- Every parser of the grammar arranges what it reads in a tree of its
phrase. -/
structure Arranges (g : Grammar n) (chunk : Chunk) : Prop where
  expression : ∀ limit owned ts past,
    Grows chunk (g.expression limit owned) ts past fun v trees _ nodes =>
      ∃ tree, trees = [tree] ∧ tree.Yields chunk.source owned v nodes
  operators : ∀ limit operand first ts, first.IsA .expression →
    first.Denotes chunk.source operand →
    Grows chunk (g.operators limit first.first operand) ts first.last
      fun v trees _ nodes =>
      ∃ tree, Regroups [tree] (first :: trees) ∧ tree.IsA .expression ∧
        tree.Denotes chunk.source v ∧ AreFree nodes
  suffixes : ∀ s first ts, s.Reads first →
    Grows chunk (g.suffixes s) ts first.last fun s' trees _ nodes =>
      ∃ tree, Regroups [tree] (first :: trees) ∧ s'.Reads tree ∧
        s'.value = s'.valueOf chunk.source tree ∧ AreFree nodes
  values : ∀ owned ts past,
    Grows chunk (g.values owned) ts past fun vs trees _ nodes =>
      ∃ tree, trees = [tree] ∧ tree.IsA .values ∧ FitAll tree.Opens vs nodes ∧
        (owned = false → AreFree nodes)
  entries : ∀ ts past,
    Grows chunk g.entries ts past fun _ trees rest nodes =>
      ∃ tree, trees = [tree] ∧ tree.IsA .entries ∧
        ∀ t more, rest = t :: more → tree.entrySpots [t] ⊆ entryStops nodes
  targets : ∀ ts past,
    Grows chunk g.targets ts past fun targets trees _ _ =>
      ∃ tree, trees = [tree] ∧
        (targets.all (·.isAssignable) → tree.IsA .moreVariables)
  branches : ∀ ts past, Grows chunk g.branches ts past fun _ trees _ _ =>
    ∃ tree, trees = [tree] ∧ tree.IsA .branches
  block : ∀ ts past,
    Grows chunk g.block ts past fun _ trees rest nodes =>
      ∃ tree, trees = [tree] ∧ tree.IsA .block ∧
        nextOffset chunk.finish rest ∈ offsetsIn nodes

namespace Arranges

variable {g : Grammar n} {chunk : Chunk} (hg : g.Arranges chunk)
  {ts : List Token} {past : Pos}

include hg

/-! ## Expressions -/

theorem functionBody {owned : Bool} {line : Nat} {opening : Pos} :
    Grows chunk (g.functionBody owned line opening) ts past fun _ trees _ nodes =>
      AreFree nodes ∧ Spells trees [.phrase .block, .token (.keyword .end_)] := by
  refine .bind
    (.within (fun _ => rfl) (fun _ _ h => h) ((hg.block ts past).mono ?_))
  rintro _ _ mid nodes - ⟨tree, rfl, htree, -⟩
  refine .closeKeyword ?_
  rintro t rest rfl ht
  exact ⟨⟨trivial, trivial⟩, .phrase htree (.token ht .nil)⟩

theorem tableBody {owned : Bool} {t : Token} (ht : t.kind = .symbol .leftBrace)
    {opening : Pos} :
    Grows chunk (g.tableBody owned opening) ts past fun _ trees _ nodes =>
      ∃ inner, nodes = [.table owned inner] ∧
        (Tree.node .table (.leaf t :: trees)).IsA .table ∧
        (Tree.node .table (.leaf t :: trees)).entryOffsets ⊆ entryStops inner := by
  refine .bind
    (.within (fun _ => rfl) (fun _ _ h => h) ((hg.entries ts past).mono ?_))
  rintro _ _ mid inner - ⟨tree, rfl, htree, hstops⟩
  refine .closeSymbol ?_
  rintro u rest rfl hu
  refine ⟨inner, rfl,
    .node .table (.token ht (.phrase htree (.token hu .nil))), ?_⟩
  have hspots : (Tree.node .table [.leaf t, tree, .leaf u]).entryOffsets =
      tree.entrySpots [u] := by
    simp [entryOffsets, entrySpotsAll, entrySpots, tokensAll, tokens]
  exact hspots ▸ hstops u rest rfl

variable {t : Token}

theorem argumentsFrom :
    Grows chunk (g.argumentsFrom t) ts past fun _ trees _ nodes =>
      Forms .arguments (.leaf t :: trees) ∧ AreFree nodes := by
  unfold Grammar.argumentsFrom
  split
  next hkind =>
    exact .pure ⟨.of_spells nofun .argumentString (.token hkind .nil), trivial⟩
  next hkind =>
    refine (hg.tableBody hkind).mono ?_
    rintro _ trees rest _ - ⟨inner, rfl, htable, -⟩
    have hgroup :
        Regroups [.node .table (.leaf t :: trees)] (.leaf t :: trees) :=
      .node .table _ nofun
    exact ⟨⟨.node .arguments _, hgroup.under nofun,
      .node .argumentTable (.phrase htable .nil)⟩, rfl, trivial⟩
  next hkind =>
    refine .bind (.nextIs ?_)
    split
    · refine .closeSymbol ?_
      rintro u rest rfl hu
      exact ⟨.of_spells nofun .noArguments (.token hkind (.token hu .nil)),
        trivial⟩
    · refine .bind ((hg.values false ts past).mono ?_)
      rintro _ _ mid nodes - ⟨tree, rfl, htree, -, hfree⟩
      refine .closeSymbol ?_
      rintro u rest rfl hu
      refine ⟨.of_spells nofun .arguments
        (.token hkind (.phrase htree (.token hu .nil))), ?_⟩
      simpa using hfree rfl
  next => exact .failAt

theorem arguments :
    Grows chunk g.arguments ts past fun _ trees _ nodes =>
      (∃ tree, trees = [tree] ∧ tree.IsA .arguments ∧ AreFree nodes) := by
  refine .group (.bind (.peek ?_))
  cases ts with
  | nil => exact .fail
  | cons t ts =>
      refine .bind (.skip (hg.argumentsFrom.mono ?_))
      rintro _ trees rest nodes - ⟨⟨tree, hgroup, htree⟩, hfree⟩
      exact ⟨tree, hgroup, htree, hfree⟩

theorem suffixedFrom :
    Grows chunk (g.suffixedFrom t) ts t.pos fun s trees _ nodes =>
      ∃ tree, Regroups [tree] (.leaf t :: trees) ∧ s.Reads tree ∧
        s.value = s.valueOf chunk.source tree ∧
        AreFree nodes := by
  unfold Grammar.suffixedFrom
  split
  next hkind =>
    refine (hg.suffixes _ _ ts (.ofName hkind)).mono ?_
    rintro s trees rest nodes - ⟨tree, hgroup, hreads⟩
    exact ⟨tree, hgroup.children nofun, hreads⟩
  next hkind =>
    refine .bind ((hg.expression 0 false ts _).mono ?_)
    rintro _ _ mid nodes - ⟨e, rfl, he⟩
    refine .bind (.closeSymbol ?_)
    rintro u mid rfl hu
    refine .after ((hg.suffixes _ _ mid (.ofParens hkind he.isA hu)).mono ?_)
      (last_node _ [.leaf t, e] u [])
    rintro s trees rest nodes' - ⟨tree, hgroup, hreads, hvalue, hfree⟩
    exact ⟨tree, hgroup.children nofun, hreads, hvalue,
      areFree_append.2 ⟨he.free rfl, hfree⟩⟩
  next => exact .failAt

theorem suffixed :
    Grows chunk g.suffixed ts past fun s trees _ _ => ∃ tree, trees = [tree] ∧
    s.Reads tree := by
  refine .group (.bind (.peek ?_))
  cases ts with
  | nil => exact .fail
  | cons t ts =>
      refine .bind (.skip (hg.suffixedFrom.mono ?_))
      rintro s trees rest nodes - ⟨tree, hgroup, hreads, -⟩
      exact ⟨tree, hgroup, hreads⟩

theorem simpleFrom {owned : Bool} {t : Token} :
    Grows chunk (g.simpleFrom owned t) ts t.pos fun v trees _ nodes =>
      ∃ tree, Regroups [tree] (.leaf t :: trees) ∧
      tree.Yields chunk.source owned v nodes := by
  -- the value of a tree with the first token `t` and a given shape at its root
  have hvalue {tree : Tree} {trees : List Tree} {shape : ValueShape}
      (hgroup : Regroups [tree] (.leaf t :: trees))
      (hshapes : tree.Shapes shape []) :
      tree.Denotes chunk.source
        ((Value.ofToken shape chunk.source t.pos).extend (lastOf t.pos trees)) :=
    ⟨shape, [], hshapes, hgroup.covering (by simp [tokens]) chunk.source shape⟩
  unfold Grammar.simpleFrom
  split
  next hconstant =>
    have hgroup := Regroups.node .expression [.leaf t] (by simp)
    have hatom : t.kind ∈ TokenKind.atoms := TokenKind.mem_atoms.2 (.inl hconstant)
    exact .span ⟨_, hgroup,
      .of_free (.node (.atom hatom) (.token rfl .nil))
        (hvalue hgroup (.constant hconstant)) trivial⟩
  next =>
    split
    next hkind =>
      have hgroup := Regroups.node .expression [.leaf t] (by simp)
      have hatom : t.kind ∈ TokenKind.atoms := TokenKind.mem_atoms.2 (.inr hkind)
      exact .span ⟨_, hgroup,
        .of_free (.node (.atom hatom) (.token rfl .nil))
          (hvalue hgroup (.varargs hkind)) trivial⟩
    next hkind =>
      refine .bind ((hg.tableBody hkind).mono ?_)
      rintro _ trees rest _ - ⟨inner, rfl, htable, hstops⟩
      have hgroup :
          Regroups [.node .expression [.node .table (.leaf t :: trees)]]
            (.leaf t :: (trees ++ [])) := by
        rw [List.append_nil]
        exact (Regroups.node .table (.leaf t :: trees) (by simp)).under (by simp)
      have hdenotes := hvalue hgroup (.table htable)
      rw [List.append_nil] at hdenotes
      refine .span ⟨_, hgroup, .node .tableValue (.phrase htable .nil),
        hdenotes, ?_, ?_⟩
      · cases owned with
        | false => exact .free ⟨rfl, trivial⟩
        | true =>
            refine .table ⟨_, .child (List.mem_singleton_self _) (.refl _),
              htable, ?_, hstops⟩ trivial
            rfl
      · rintro rfl
        exact ⟨rfl, trivial⟩
    next hkind =>
      refine .bind ((header_grows ts _).mono ?_)
      rintro head trees mid nodes - ⟨hfree, hheader⟩
      split
      next e he => exact .throw
      next line hline =>
        obtain ⟨syms, hproduction, hspells⟩ := hheader line hline
        refine .bind (hg.functionBody.mono ?_)
        rintro _ more rest nodes' - ⟨hfree', hspells'⟩
        have hbody : (Tree.node .body (trees ++ more)).IsA .body :=
          .node hproduction (hspells.append hspells')
        have hgroup :
            Regroups [.node .expression [.leaf t, .node .body (trees ++ more)]]
            (.leaf t :: (trees ++ more)) :=
          ((Regroups.refl [.leaf t]).append
            (.node .body (trees ++ more) (by simp))).under (by simp)
        have hshapes : Shapes _ (.function ⟨.none, head.idents, head.isVararg⟩)
            [] := .function hkind hbody
        have hdenotes := hvalue hgroup hshapes
        rw [← lastOf_append] at hdenotes
        refine .span ⟨_, ?_,
          .of_free (.node .functionValue (.token hkind (.phrase hbody .nil)))
            hdenotes ?_⟩
        · simpa using hgroup
        · simpa [areFree_append] using ⟨hfree, hfree'⟩
    next =>
      refine .bind (hg.suffixedFrom.mono ?_)
      rintro s trees rest nodes - ⟨tree, hgroup, hreads, hvalue, hfree⟩
      obtain ⟨form, -, hisA⟩ := hreads.isA
      refine .pure ⟨.node .expression [tree], ?_,
        .of_free (.node .suffixedValue (.phrase hisA .nil)) ?_ ?_⟩
      · rw [List.append_nil]
        exact hgroup.under (by simp)
      · exact hvalue ▸ hreads.denotes chunk.source
      · simpa using hfree

theorem operandFrom {owned : Bool} {t : Token} :
    Grows chunk (g.operandFrom owned t) ts t.pos fun v trees _ nodes =>
      ∃ tree, Regroups [tree] (.leaf t :: trees) ∧
      tree.Yields chunk.source owned v nodes := by
  unfold Grammar.operandFrom
  split
  next hunary =>
    have hop : t.kind ∈ TokenKind.unaryOperators :=
      TokenKind.mem_unaryOperators.2 hunary
    refine .bind ((hg.expression unaryPriority false ts _).mono ?_)
    rintro _ _ rest nodes - ⟨e, rfl, he⟩
    have hgroup := Regroups.node .expression [.leaf t, e] nofun
    refine .span ⟨_, hgroup,
      .of_free (.node (.unary hop) (.token rfl (.phrase he.isA .nil))) ?_ ?_⟩
    · exact ⟨.expression, [], .unary hop, hgroup.covering (by simp [tokens]) _ _⟩
    · simpa using he.free rfl
  next => exact hg.simpleFrom

theorem expressionRule {limit : Nat} {owned : Bool} :
    Grows chunk (g.expressionRule limit owned) ts past fun v trees _ nodes =>
      ∃ tree, trees = [tree] ∧ tree.Yields chunk.source owned v nodes := by
  refine .group (.onToken ?_ .fail)
  rintro t ts rfl p hp
  obtain rfl := Option.some.inj hp
  refine .bind (hg.operandFrom.mono ?_)
  rintro operand trees mid nodes - ⟨first, hfirst, hoperand⟩
  obtain ⟨hbegin, hend⟩ := hfirst.ends (by simp [tokens])
  have hoperators :=
    hg.operators limit operand first mid hoperand.isA hoperand.denotes
  rw [hbegin, hend] at hoperators
  refine hoperators.mono ?_
  rintro v more rest nodes' - ⟨tree, hgroup, hisA, hdenotes, hfree⟩
  exact ⟨tree, hgroup.trans (hfirst.append (.refl more)),
    hoperand.lengthen hgroup hisA hdenotes hfree⟩

theorem operatorsRule {limit : Nat} {operand : Value} {first : Tree}
    (hfirst : first.IsA .expression)
    (hoperand : first.Denotes chunk.source operand) :
    Grows chunk (g.operatorsRule limit first.first operand) ts first.last
      fun v trees _ nodes =>
      ∃ tree, Regroups [tree] (first :: trees) ∧ tree.IsA .expression ∧
        tree.Denotes chunk.source v ∧
        AreFree nodes := by
  refine .onToken ?_ (.pure ⟨first, .refl [first], hfirst, hoperand, trivial⟩)
  rintro t ts rfl p hp
  split at hp
  next left right hpriority =>
    split at hp
    next => simp at hp
    next =>
      obtain rfl := Option.some.inj hp
      have hop : t.kind ∈ TokenKind.binaryOperators := by
        simp [TokenKind.mem_binaryOperators, hpriority]
      refine .bind ((hg.expression right false ts _).mono ?_)
      rintro _ _ mid nodes - ⟨e, rfl, he⟩
      -- the operator puts both operands under a new root
      have hroot : (Tree.node .expression [first, .leaf t, e]).IsA .expression :=
        .node (.binary hop) (.phrase hfirst (.token rfl (.phrase he.isA .nil)))
      have hgroup := Regroups.node .expression [first, .leaf t, e] nofun
      have hlast : (Tree.node .expression [first, .leaf t, e]).last =
          lastOf t.pos [e] := last_node _ [first] t [e]
      obtain ⟨hbegin, hend⟩ := hgroup.ends hfirst.tokens_ne_nil
      have hdenotes :
          (Tree.node .expression [first, .leaf t, e]).Denotes chunk.source
          ((Value.ofToken .expression chunk.source first.first).extend
            (lastOf t.pos [e])) := by
        refine ⟨.expression, [], .binary hfirst hop, ?_⟩
        rw [← hlast, hend]
        exact hgroup.covering hfirst.tokens_ne_nil _ _
      refine .bind (.span ?_)
      have hoperators := hg.operators limit _ _ mid hroot hdenotes
      rw [hbegin] at hoperators
      refine .after (hoperators.mono ?_) hlast
      rintro v trees rest nodes' - ⟨tree, htree, hisA, hvalue, hfree⟩
      exact ⟨tree, htree.children nofun, hisA, hvalue,
        areFree_append.2 ⟨he.free rfl, hfree⟩⟩
  next => simp at hp

theorem suffixesRule {s : Suffixed} {first : Tree} (hs : s.Reads first) :
    Grows chunk (g.suffixesRule s) ts first.last fun s' trees _ nodes =>
      ∃ tree, Regroups [tree] (first :: trees) ∧ s'.Reads tree ∧
        s'.value = s'.valueOf chunk.source tree ∧
        AreFree nodes := by
  -- without a further suffix the expression gets its value
  have hstop : Grows chunk (n := n + 1)
      (do
        if s.isNameChain then
          let value ← span .reference s.start
          return { s with
            value := { value with ref := Bytes.join (utf8 ".") s.path } }
        else return { s with value := ← span .expression s.start })
      ts first.last fun s' trees _ nodes =>
        ∃ tree, Regroups [tree] (first :: trees) ∧ s'.Reads tree ∧
          s'.value = s'.valueOf chunk.source tree ∧
          AreFree nodes := by
    split
    next hnames =>
      refine .bind
        (.span (.pure ⟨first, .refl [first], hs.withValue _, ?_, trivial⟩))
      rw [Suffixed.valueOf, if_pos hnames, hs.start]
      rfl
    next hnames =>
      refine .bind
        (.span (.pure ⟨first, .refl [first], hs.withValue _, ?_, trivial⟩))
      rw [Suffixed.valueOf, if_neg hnames, hs.start]
      exact (Regroups.refl [first]).covering hs.tokens_ne_nil
        chunk.source .expression
  refine .onToken ?_ hstop
  rintro t ts rfl p hp
  have hcall (ht : t.kind ≠ .name ∧ t.kind ≠ .symbol .dot) :
      Grows chunk
      (do
        g.argumentsFrom t
        g.suffixes s.call)
      ts t.pos fun s' trees _ nodes =>
        ∃ tree, Regroups [tree] (first :: .leaf t :: trees) ∧ s'.Reads tree ∧
          s'.value = s'.valueOf chunk.source tree ∧ AreFree nodes := by
    refine .bind (hg.argumentsFrom.mono ?_)
    rintro _ trees mid nodes - ⟨⟨arguments, harguments, hisA⟩, hfree⟩
    have htokens : tokensAll [arguments] = t :: tokensAll trees :=
      harguments.tokens
    have hreads : s.call.Reads (.node (.suffixed .call) [first, arguments]) :=
      hs.call htokens ht fun _ hform =>
        .node .call (.phrase hform (.phrase hisA .nil))
    have hlast : (Tree.node (.suffixed .call) [first, arguments]).last =
        lastOf t.pos trees := by
      have hgroup :=
        ((Regroups.refl [first]).append harguments).under
          (p := .suffixed .call) nofun
      exact (hgroup.ends hs.tokens_ne_nil).2.trans
        (lastOf_append first.last [.leaf t] trees).symm
    refine .after ((hg.suffixes _ _ mid hreads).mono ?_) hlast
    rintro s' more rest nodes' - ⟨tree, hgroup, hreads', hvalue, hfree'⟩
    refine ⟨tree, ?_, hreads', hvalue, areFree_append.2 ⟨hfree, hfree'⟩⟩
    have hrow :
        Regroups ([first] ++ ([arguments] ++ more))
          ([first] ++ ((.leaf t :: trees) ++ more)) :=
      (Regroups.refl [first]).append (harguments.append (.refl more))
    exact (hgroup.children nofun).trans hrow
  split at hp
  next hkind =>
    obtain rfl := Option.some.inj hp
    refine .bind (.expectName ?_)
    rintro name ts rfl hname
    refine .after ((hg.suffixes _ _ ts (hs.dot hkind hname)).mono ?_)
      (last_node _ [first, .leaf t] name [])
    rintro s' trees rest nodes - ⟨tree, hgroup, hreads⟩
    exact ⟨tree, hgroup.children nofun, hreads⟩
  next hkind =>
    obtain rfl := Option.some.inj hp
    refine .bind (.peek (.bind ((hg.expression 0 false ts _).mono ?_)))
    rintro index _ mid nodes - ⟨e, rfl, he⟩
    refine .bind (.closeSymbol ?_)
    rintro u mid rfl hu
    refine .after
      ((hg.suffixes _ _ mid (hs.bracket hkind he.isA hu _ index)).mono ?_)
      (last_node _ [first, .leaf t, e] u [])
    rintro s' trees rest nodes' - ⟨tree, hgroup, hreads, hvalue, hfree⟩
    exact ⟨tree, hgroup.children nofun, hreads,
      hvalue, by simpa [areFree_append] using ⟨he.free rfl, hfree⟩⟩
  next hkind =>
    obtain rfl := Option.some.inj hp
    refine .bind (.expectName ?_)
    rintro name ts rfl hname
    refine .bind (hg.arguments.mono ?_)
    rintro _ _ mid nodes - ⟨arguments, rfl, hisA, hfree⟩
    have hreads :
        s.call.Reads
          (.node (.suffixed .call) [first, .leaf t, .leaf name, arguments]) :=
      hs.call (t := t) rfl (by simp [hkind]) fun _ hform =>
        .node .method
          (.phrase hform (.token hkind (.token hname (.phrase hisA .nil))))
    refine .after ((hg.suffixes _ _ mid hreads).mono ?_)
      (last_node _ [first, .leaf t] name [arguments])
    rintro s' trees rest nodes' - ⟨tree, hgroup, hreads', hvalue, hfree'⟩
    exact ⟨tree, hgroup.children nofun, hreads',
      hvalue, by simpa [areFree_append] using ⟨hfree, hfree'⟩⟩
  next hkind => exact Option.some.inj hp ▸ hcall (by simp [hkind])
  next hkind => exact Option.some.inj hp ▸ hcall (by simp [hkind])
  next hkind => exact Option.some.inj hp ▸ hcall (by simp [hkind])
  next => simp at hp

theorem valuesRule {owned : Bool} :
    Grows chunk (g.valuesRule owned) ts past fun vs trees _ nodes =>
      ∃ tree, trees = [tree] ∧ tree.IsA .values ∧ FitAll tree.Opens vs nodes ∧
      (owned = false → AreFree nodes) := by
  refine .node .values nofun
    (.bind (.within (fun _ => rfl) (fun _ _ h => h) (hg.expressionRule.mono ?_)))
  rintro v _ mid nodes - ⟨e, rfl, he⟩
  refine .onToken ?_
    (.pure ⟨.node .value (.phrase he.isA .nil), ?_, fun howned =>
      ⟨he.free howned, trivial⟩⟩)
  · rintro t mid rfl p hp
    split at hp
    next hkind =>
      obtain rfl := Option.some.inj hp
      refine .bind ((hg.values owned mid _).mono ?_)
      rintro vs _ rest nodes' - ⟨more, rfl, hmore, hfits, hfree⟩
      refine .pure
        ⟨.node .values (.phrase he.isA (.token hkind (.phrase hmore .nil))), ?_,
          fun howned => ?_⟩
      · have hmoreFits :
            FitAll (Tree.node .values [e, .leaf t, more]).Opens vs nodes' :=
          hfits.mono fun _ _ hopens => hopens.sub (.child (by simp) (.refl more))
        simpa using FitAll.cons (he.opens (.child (by simp) (.refl e))) hmoreFits
      · simpa [AreFree, IsFree] using And.intro (he.free howned) (hfree howned)
    next => simp at hp
  · exact .cons (he.opens (.child (by simp) (.refl e))) .nil

/-! ## Table constructors -/

omit hg in
theorem entryValue {head : FieldHead} {p : Parser n Value}
    (h : Grows chunk p ts past fun v trees _ nodes =>
      ∃ tree, trees = [tree] ∧ tree.Yields chunk.source true v nodes) :
    Grows chunk (Grammar.entryValue head p) ts past fun _ trees _ _ =>
      ∃ tree, trees = [tree] ∧ tree.IsA .expression := by
  refine .wrap (h.mono ?_)
  rintro v _ rest nodes - ⟨tree, rfl, htree⟩
  refine ⟨fun hfit => ⟨?_, ⟨?_, hfit.placed⟩, trivial⟩, tree, rfl, htree.isA⟩
  · rw [offsetsIn, offsetsIn, List.append_nil]
    exact hfit.spots
  · exact ⟨v, rfl, (htree.opens (.refl tree)).mono fun _ hopens =>
      ⟨tree, List.mem_singleton_self tree, hopens⟩⟩

theorem entry :
    Grows chunk g.entry ts past fun _ trees _ _ => ∃ tree, trees = [tree] ∧
    tree.IsA .entry := by
  refine .node .entry nofun
    (.bind (.here
      (.bind (.peekSecond
        (.onToken ?_ (.bind ((entryValue hg.expressionRule).mono ?_)))))))
  · rintro t ts rfl p hp
    split at hp
    next hkind =>
      split at hp
      next hassign =>
        obtain rfl := Option.some.inj hp
        obtain ⟨u, ts, rfl, hu⟩ : ∃ u rest, ts = u :: rest ∧
            u.kind = .symbol .assign := by
          cases ts <;> simp_all
        refine .bind
          (.skip (.bind ((entryValue (hg.expression 0 true ts _)).mono ?_)))
        rintro _ _ rest nodes - ⟨e, rfl, he⟩
        exact .pure
          (.node .namedEntry (.token hkind (.token hu (.phrase he .nil))))
      next => simp at hp
    next hkind =>
      obtain rfl := Option.some.inj hp
      refine .bind
        (.peek (.bind (.here (.bind ((hg.expression 0 false ts _).mono ?_)))))
      rintro index _ mid nodes - ⟨key, rfl, hkey⟩
      refine .bind (.closeSymbol ?_)
      rintro u mid rfl hu
      refine .bind (.expectSymbol ?_)
      rintro w mid rfl hw
      refine .bind ((entryValue (hg.expression 0 true mid _)).mono ?_)
      rintro _ _ rest nodes' - ⟨e, rfl, he⟩
      exact .pure
        (.node .keyedEntry
          (.token hkind
            (.phrase hkey.isA (.token hu (.token hw (.phrase he .nil))))))
    next => simp at hp
  · rintro _ _ rest nodes - ⟨e, rfl, he⟩
    exact .pure (.node .entry (.phrase he .nil))

omit hg in
theorem tableEnd {post : Parser.Post Unit}
    (h : post () [] ts [.tableComments (nextOffset chunk.finish ts), .tableEnd]) :
    Grows chunk (Grammar.tableEnd : Parser n Unit) ts past post :=
  .bind (.here (.bind (.emit trivial (.emit trivial h))))

theorem entriesRule :
    Grows chunk g.entriesRule ts past fun _ trees rest nodes =>
      ∃ tree, trees = [tree] ∧ tree.IsA .entries ∧
        ∀ t more, rest = t :: more → tree.entrySpots [t] ⊆ entryStops nodes := by
  refine .node .entries nofun (.located (.bind (.nextIs ?_)))
  split
  · refine tableEnd fun _ => ⟨.node .noEntry .nil, ?_⟩
    rintro t more rfl
    simp [entrySpots, entrySpotsAll, entryStops, nextOffset, tokensAll]
  · refine .bind (.here (.bind (.emit trivial (.bind (hg.entry.mono ?_)))))
    rintro _ _ mid nodes - ⟨tree, rfl, htree⟩
    refine .onToken ?_ (tableEnd fun htokens =>
      ⟨.node .lastEntry (.phrase htree .nil), ?_⟩)
    · rintro sep mid rfl p hp
      split at hp
      next hsep =>
        obtain rfl := Option.some.inj hp
        refine (hg.entries mid _).mono ?_
        rintro _ _ rest nodes' - ⟨more, rfl, hmore, hstops⟩ htokens
        refine ⟨.node (.entries (by simpa using hsep))
          (.phrase htree (.token rfl (.phrase hmore .nil))), ?_⟩
        rintro t rest rfl
        have hinner :
            more.entrySpots [t] ⊆ entryStops nodes ++ entryStops nodes' :=
          List.subset_append_of_subset_right _ (hstops t rest rfl)
        have hspots :=
          entrySpots_subset chunk.finish htokens
            (hinner (hmore.nextOffset_mem_entrySpots [t]))
            (by simpa [entrySpotsAll, entrySpots, htree.entrySpots_eq_nil,
            tokensAll] using hinner)
        simpa [entryStops, nextOffset] using hspots
      next => simp at hp
    · rintro t more rfl
      have hspots : (Tree.node .entries [tree]).entrySpots [t] ⊆
          nextOffset chunk.finish ts :: (entryStops nodes ++ [t.pos.offset]) :=
        entrySpots_subset chunk.finish htokens (by simp)
          (by simp [entrySpotsAll, htree.entrySpots_eq_nil])
      simpa [entryStops, nextOffset] using hspots

/-! ## Statements -/

theorem scopedBlock :
    Grows chunk g.scopedBlock ts past fun _ trees _ _ =>
      ∃ tree, trees = [tree] ∧ tree.IsA .block := by
  refine .within (fun _ => rfl) (fun _ _ h => h) ((hg.block ts past).mono ?_)
  rintro _ _ rest nodes - ⟨tree, rfl, htree, -⟩
  exact ⟨tree, rfl, htree⟩

theorem branch :
    Grows chunk g.branch ts past fun _ trees _ _ =>
      Spells trees [.phrase .expression, .token (.keyword .then_),
        .phrase .block] := by
  refine .bind ((hg.expression 0 false ts past).mono ?_)
  rintro _ _ mid nodes - ⟨e, rfl, he⟩
  refine .bind (.expectKeyword ?_)
  rintro t mid rfl ht
  refine hg.scopedBlock.mono ?_
  rintro _ _ rest nodes' - ⟨block, rfl, hblock⟩
  exact .phrase he.isA (.token ht (.phrase hblock .nil))

theorem branchesRule :
    Grows chunk g.branchesRule ts past fun _ trees _ _ =>
      ∃ tree, trees = [tree] ∧ tree.IsA .branches := by
  refine .node .branches nofun (.onToken ?_ (.pure (.node .noBranch .nil)))
  rintro t ts rfl p hp
  split at hp
  next hkind =>
    obtain rfl := Option.some.inj hp
    refine .bind (hg.branch.mono ?_)
    rintro _ trees mid nodes - hbranch
    refine (hg.branches mid _).mono ?_
    rintro _ _ rest nodes' - ⟨more, rfl, hmore⟩
    exact .node .elseif_ (.token hkind (hbranch.append (.phrase hmore .nil)))
  next hkind =>
    obtain rfl := Option.some.inj hp
    refine hg.scopedBlock.mono ?_
    rintro _ _ rest nodes - ⟨block, rfl, hblock⟩
    exact .node .else_ (.token hkind (.phrase hblock .nil))
  next => simp at hp

theorem forRange :
    Grows chunk g.forRange ts past fun _ trees _ _ =>
      Spells trees [.phrase .expression, .token (.symbol .comma),
        .phrase .expression, .phrase .step] := by
  refine .bind ((hg.expression 0 false ts past).mono ?_)
  rintro _ _ mid nodes - ⟨first, rfl, hfirst⟩
  refine .bind (.expectSymbol ?_)
  rintro t mid rfl ht
  refine .bind ((hg.expression 0 false mid _).mono ?_)
  rintro _ _ mid nodes' - ⟨last, rfl, hlast⟩
  have hstep (past : Pos) : Grows chunk (n := n)
      (do
        if ← accept (.symbol .comma) then
          let _ ← g.expression 0 false)
      mid past fun _ trees _ _ => ∃ tree, trees = [tree] ∧ tree.IsA .step := by
    refine .node .step nofun (.bind (.accept ?_ (.pure (.node .noStep .nil))))
    rintro comma mid rfl hcomma
    refine .bind ((hg.expression 0 false mid _).mono ?_)
    rintro _ _ rest nodes'' - ⟨e, rfl, he⟩
    exact .pure (.node .byStep (.token hcomma (.phrase he.isA .nil)))
  refine (hstep _).mono ?_
  rintro _ _ rest nodes'' - ⟨step, rfl, hisA⟩
  exact .phrase hfirst.isA (.token ht (.phrase hlast.isA (.phrase hisA .nil)))

/-- What a `for` statement runs over lacks only its block to make the
statement. -/
theorem forClause :
    Grows chunk g.forClause ts past fun _ trees _ _ =>
      ∃ syms, Spells trees syms ∧
        Production .statement
          (.token (.keyword .for_) :: .token .name ::
            (syms ++ [.token (.keyword .do_), .phrase .block,
              .token (.keyword .end_)])) := by
  refine .bind (.accept ?_ (.bind (.nextIs (.bind (.nextIs ?_)))))
  · rintro t ts rfl ht
    refine hg.forRange.mono ?_
    rintro _ trees rest nodes - hrange
    exact ⟨_, .token ht hrange, .forRange⟩
  · split
    · refine .bind ((moreNames_grows n ts _).mono ?_)
      rintro _ _ mid nodes - ⟨names, rfl, hnames⟩
      refine .bind (.expectKeyword ?_)
      rintro t mid rfl ht
      refine .bind ((hg.values false mid _).mono ?_)
      rintro _ _ rest nodes' - ⟨values, rfl, hvalues, -⟩
      exact .pure ⟨_, .phrase hnames (.token ht (.phrase hvalues .nil)), .forIn⟩
    · exact .fail

theorem functionRest {isLocal : Bool} {opening : Pos} {ident : Ident}
    {name : FunctionName} :
    Grows chunk (g.functionRest isLocal opening ident name) ts past
      fun _ trees _ _ => ∃ tree, trees = [tree] ∧ tree.IsA .body := by
  refine .node .body nofun (.bind ((header_grows ts past).mono ?_))
  rintro head trees mid nodes - ⟨-, hheader⟩
  dsimp only
  split
  next e he => exact .bind (.emit ⟨trivial, trivial⟩ .throw)
  next line hline =>
    obtain ⟨syms, hproduction, hspells⟩ := hheader line hline
    refine .bind (.wrap (.bind (hg.functionBody.mono ?_)))
    rintro _ more rest nodes' - ⟨hfree, hspells'⟩
    refine .last ⟨fun hfit =>
      ⟨?_, ⟨by simpa using hfree, hfit.placed⟩, trivial⟩, .pure ?_⟩
    · simpa [offsetsIn, offsets] using hfit.spots
    · exact .node hproduction (hspells.append (by simpa using hspells'))

theorem functionStatement (ht : t.kind = .keyword .function_) {opening : Pos} :
    Grows chunk (g.functionStatement opening) ts past fun _ trees _ _ =>
      Forms .statement (.leaf t :: trees) := by
  -- the parts of the name stand under a root of their own
  have hstatement {name : List Tree} {body : Tree}
      (hname : (Tree.node .functionName name).IsA .functionName)
      (hbody : body.IsA .body) :
        Forms .statement (.leaf t :: (name ++ [body])) := by
    refine ⟨.node .statement [.leaf t, .node .functionName name, body],
      .under ?_ nofun, ?_⟩
    · exact (Regroups.refl [.leaf t]).append
        ((Regroups.node .functionName name nofun).append (.refl [body]))
    · exact .node .function_ (.token ht (.phrase hname (.phrase hbody .nil)))
  refine .bind (.expectName ?_)
  rintro first ts rfl hfirst
  refine .bind ((dottedNames_grows n ts _).mono ?_)
  rintro more _ mid nodes - ⟨parts, rfl, hparts⟩
  refine .bind (.accept ?_ ?_)
  · rintro colon mid rfl hcolon
    refine .bind (.expectName ?_)
    rintro method mid rfl hmethod
    refine hg.functionRest.mono ?_
    rintro _ _ rest nodes' - ⟨body, rfl, hbody⟩
    exact hstatement
      (.node .methodName
        (.token hfirst (.phrase hparts (.token hcolon (.token hmethod .nil)))))
        hbody
  · refine hg.functionRest.mono ?_
    rintro _ _ rest nodes' - ⟨body, rfl, hbody⟩
    exact hstatement (.node .functionName (.token hfirst (.phrase hparts .nil)))
      hbody

theorem assigned {f : List Node → Option (List Value) → Node}
    (hstops : ∀ nodes inits, (f nodes inits).offsets = offsetsIn nodes)
    (hplaced : ∀ (opens : Value → List Node → Prop) nodes inits,
      (∃ vs ∈ inits, FitAll opens vs nodes) → ArePlaced opens nodes →
      (f nodes inits).IsPlaced opens) :
    Grows chunk (g.assigned f) ts past fun _ trees _ _ =>
      ∃ tree, trees = [tree] ∧ tree.IsA .values := by
  refine .bind (.wrap ((hg.values true ts past).mono ?_))
  rintro vs _ rest nodes - ⟨tree, rfl, htree, hfits, -⟩
  refine ⟨fun hfit =>
    ⟨?_, hplaced _ _ _ ⟨vs, rfl, hfits.opensIn⟩ hfit.placed, trivial⟩,
      .pure ⟨tree, rfl, htree⟩⟩
  rw [offsetsIn, hstops, offsetsIn, List.append_nil]
  exact hfit.spots

theorem localStatement (ht : t.kind = .keyword .local_) :
    Grows chunk g.localStatement ts past fun _ trees _ _ =>
      Forms .statement (.leaf t :: trees) := by
  refine .bind (.here (.bind (.accept ?_ ?_)))
  · rintro u ts rfl hu
    refine .bind (.expectName ?_)
    rintro name ts rfl hname
    refine hg.functionRest.mono ?_
    rintro _ _ rest nodes - ⟨body, rfl, hbody⟩
    exact .of_spells nofun .localFunction
      (.token ht (.token hu (.token hname (.phrase hbody .nil))))
  · refine .bind ((localNames_grows n ts _).mono ?_)
    rintro names _ mid nodes - ⟨tree, rfl, htree⟩
    refine .bind
      (.accept ?_
        (.emit ?_ (.of_spells nofun .local_ (.token ht (.phrase htree .nil)))))
    · rintro u mid rfl hu
      refine (hg.assigned (f := .locals names) (fun _ _ =>
        rfl) fun _ _ _ hfits hplaced => ⟨hfits, hplaced⟩).mono ?_
      rintro _ _ rest nodes' - ⟨values, rfl, hvalues⟩
      exact .of_spells nofun .localAssign
        (.token ht (.phrase htree (.token hu (.phrase hvalues .nil))))
    · exact ⟨⟨[], rfl, .nil⟩, trivial⟩

theorem targetsRule :
    Grows chunk g.targetsRule ts past fun targets trees _ _ =>
      ∃ tree, trees = [tree] ∧
      (targets.all (·.isAssignable) → tree.IsA .moreVariables) := by
  refine .node .moreVariables nofun
    (.onToken ?_ (.pure fun _ => .node .noMoreVariables .nil))
  rintro t ts rfl p hp
  split at hp
  next hkind =>
    obtain rfl := Option.some.inj hp
    refine .bind (hg.suffixed.mono ?_)
    rintro target _ mid nodes - ⟨tree, rfl, hreads⟩
    refine .bind ((hg.targets mid _).mono ?_)
    rintro targets _ rest nodes' - ⟨more, rfl, hmore⟩
    refine .pure fun hall => ?_
    obtain ⟨htarget, htargets⟩ : target.isAssignable = true ∧
        targets.all (·.isAssignable) := by
      simpa using hall
    obtain ⟨form, hform, hisA⟩ := hreads.isA
    obtain rfl := hform.eq_variable htarget
    exact .node .moreVariables
      (.token hkind (.phrase hisA (.phrase (hmore htargets) .nil)))
  next => simp at hp

theorem expressionStatement :
    Grows chunk (g.expressionStatement t) ts t.pos fun _ trees _ _ =>
      Forms .statement (.leaf t :: trees) := by
  refine .bind (hg.suffixedFrom.mono ?_)
  rintro first trees mid nodes - ⟨tree, hgroup, hreads, -⟩
  obtain ⟨form, hform, hisA⟩ := hreads.isA
  refine .bind (.nextIs (.bind (.nextIs ?_)))
  split
  · refine .bind ((hg.targets mid _).mono ?_)
    rintro more _ mid nodes' - ⟨targets, rfl, htargets⟩
    dsimp only
    split
    next hall =>
      obtain ⟨hassignable, hmore⟩ : first.isAssignable = true ∧
          more.all (·.isAssignable) := by
        simpa using hall
      obtain rfl := hform.eq_variable hassignable
      refine .bind (.expectSymbol ?_)
      rintro u mid rfl hu
      refine (hg.assigned (f := .assign _) (fun _ _ =>
        rfl) fun _ _ _ hfits hplaced => ⟨hfits, hplaced⟩).mono ?_
      rintro _ _ rest nodes'' - ⟨values, rfl, hvalues⟩
      refine ⟨.node .statement [tree, targets, .leaf u, values],
        .under ?_ nofun, ?_⟩
      · exact hgroup.append (.refl [targets, .leaf u, values])
      · exact .node .assign
          (.phrase hisA
            (.phrase (htargets hmore) (.token hu (.phrase hvalues .nil))))
    next => exact .bind .fail
  · split
    next hcall =>
      obtain rfl := hform.eq_call hcall
      refine .pure ⟨.node .statement [tree], .under ?_ nofun,
        .node .callStatement (.phrase hisA .nil)⟩
      simpa using hgroup
    next => exact .fail

theorem statementFrom :
    Grows chunk (g.statementFrom t) ts t.pos fun _ trees _ _ =>
      Forms .statement (.leaf t :: trees) := by
  unfold Grammar.statementFrom
  split
  next hkind => exact .pure (.of_spells nofun .empty (.token hkind .nil))
  next hkind => exact .pure (.of_spells nofun .break_ (.token hkind .nil))
  next hkind =>
    refine .bind (.expectName ?_)
    rintro name ts rfl hname
    refine .expectSymbol ?_
    rintro u rest rfl hu
    exact .of_spells nofun .label (.token hkind (.token hname (.token hu .nil)))
  next hkind =>
    refine .bind (.expectName ?_)
    rintro name rest rfl hname
    exact .pure (.of_spells nofun .goto_ (.token hkind (.token hname .nil)))
  next hkind =>
    refine .bind (hg.scopedBlock.mono ?_)
    rintro _ _ mid nodes - ⟨block, rfl, hblock⟩
    refine .bind (.emit trivial (.closeKeyword ?_))
    rintro u rest rfl hu
    exact .of_spells nofun .do_ (.token hkind (.phrase hblock (.token hu .nil)))
  next hkind =>
    refine .bind ((hg.expression 0 false ts _).mono ?_)
    rintro _ _ mid nodes - ⟨e, rfl, he⟩
    refine .bind (.expectKeyword ?_)
    rintro u mid rfl hu
    refine .bind (hg.scopedBlock.mono ?_)
    rintro _ _ mid nodes' - ⟨block, rfl, hblock⟩
    refine .bind (.emit trivial (.closeKeyword ?_))
    rintro w rest rfl hw
    exact .of_spells nofun .while_
      (.token hkind (.phrase he.isA (.token hu (.phrase hblock (.token hw .nil)))))
  next hkind =>
    refine .bind
      (.within (fun _ => rfl) (fun _ _ h => h) (.bind ((hg.block ts _).mono ?_)))
    rintro _ _ mid nodes - ⟨block, rfl, hblock, -⟩
    refine .bind (.closeKeyword ?_)
    rintro u mid rfl hu
    refine .bind ((hg.expression 0 false mid _).mono ?_)
    rintro _ _ rest nodes' - ⟨e, rfl, he⟩
    exact .pure (.emit trivial
      (.of_spells nofun .repeat_
        (.token hkind (.phrase hblock (.token hu (.phrase he.isA .nil))))))
  next hkind =>
    refine .bind (hg.branch.mono ?_)
    rintro _ trees mid nodes - hbranch
    refine .bind ((hg.branches mid _).mono ?_)
    rintro _ _ mid nodes' - ⟨branches, rfl, hbranches⟩
    refine .bind (.emit trivial (.closeKeyword ?_))
    rintro u rest rfl hu
    exact .of_spells nofun .if_
      (.token hkind (hbranch.append (.phrase hbranches (.token hu .nil))))
  next hkind =>
    refine .bind (.expectName ?_)
    rintro name ts rfl hname
    refine .bind (hg.forClause.mono ?_)
    rintro _ trees mid nodes - ⟨syms, hspells, hproduction⟩
    refine .bind (.expectKeyword ?_)
    rintro u mid rfl hu
    refine .bind (hg.scopedBlock.mono ?_)
    rintro _ _ mid nodes' - ⟨block, rfl, hblock⟩
    refine .bind (.emit trivial (.closeKeyword ?_))
    rintro w rest rfl hw
    exact .of_spells nofun hproduction
      (.token hkind
        (.token hname
          (hspells.append (.token hu (.phrase hblock (.token hw .nil))))))
  next hkind => exact hg.functionStatement hkind
  next hkind => exact hg.localStatement hkind
  next => exact hg.expressionStatement

/-! ## Blocks -/

omit hg in
theorem atBlockEnd {post : Parser.Post Bool}
    (h : post (ts.head?.all (·.kind.endsBlock)) [] ts []) :
    Grows chunk (Parser.atBlockEnd : Parser n Bool) ts past post :=
  .bind (.peek (.pure h))

omit hg in
theorem returnEnd {post : Parser.Post Unit}
    (h : post () [] ts [.comments (nextOffset chunk.finish ts), .discard]) :
    Grows chunk (n := n)
      (do
        emit (.comments (← here).offset)
        emit .discard
        unless ← Parser.atBlockEnd do fail (.expected .endOfInput))
      ts past post := by
  refine .bind
    (.here (.bind (.emit trivial (.bind (.emit trivial (.bind (atBlockEnd ?_)))))))
  split
  · exact .pure h
  · exact .fail

theorem returnStatement :
    Grows chunk g.returnStatement ts past fun _ trees rest nodes =>
      ∃ tree, trees = [tree] ∧ tree.IsA .result ∧
      nextOffset chunk.finish rest ∈ offsetsIn nodes := by
  refine .node .result nofun (.bind (atBlockEnd (.bind (.nextIs ?_))))
  dsimp only
  split
  · refine .bind
      (.accept ?_
        (returnEnd ⟨.node .resultNone .nil, by simp [offsetsIn, offsets]⟩))
    rintro t rest rfl ht
    exact returnEnd
      ⟨.node .resultSemicolon (.token ht .nil), by simp [offsetsIn, offsets]⟩
  · refine .bind ((hg.values false ts _).mono ?_)
    rintro _ _ mid nodes - ⟨values, rfl, hvalues, -⟩
    refine .bind
      (.accept ?_
        (returnEnd
          ⟨.node .resultValues
            (.phrase hvalues .nil), by simp [offsetsIn, offsets]⟩))
    rintro t rest rfl ht
    exact returnEnd
      ⟨.node .resultValuesSemicolon
        (.phrase hvalues (.token ht .nil)), by simp [offsetsIn, offsets]⟩

omit hg in
theorem ofBlock {p : Parser n Unit}
    (h : Grows chunk p ts past fun _ trees rest nodes =>
      (∃ row, Regroups row trees ∧ (Tree.node .block row).IsA .block) ∧
        nextOffset chunk.finish ts ∈ offsetsIn nodes ∧
        nextOffset chunk.finish rest ∈ offsetsIn nodes) :
    Grows chunk p ts past fun _ trees rest nodes =>
      ∃ tree, trees = [tree] ∧ tree.IsA .block ∧
      nextOffset chunk.finish rest ∈ offsetsIn nodes := by
  refine .arrange (h.mono ?_)
  rintro _ trees rest nodes rfl ⟨⟨row, hgroup, hisA⟩, hbegin, hend⟩
  have htokens : tokensAll [.node .block row] = tokensAll trees :=
    (List.append_nil _).trans hgroup.tokens
  rw [← hgroup.tokens] at hbegin
  exact ⟨_, htokens, fun hfit => (hgroup.fit hfit).block hbegin hend, _,
    rfl, hisA, hend⟩

theorem blockRule :
    Grows chunk g.blockRule ts past fun _ trees rest nodes =>
      ∃ tree, trees = [tree] ∧ tree.IsA .block ∧
      nextOffset chunk.finish rest ∈ offsetsIn nodes := by
  have hbegin (nodes : List Node) :
      nextOffset chunk.finish ts ∈
        offsetsIn (.comments (nextOffset chunk.finish ts) :: nodes) :=
          List.mem_cons_self
  refine ofBlock (.bind (.here (.bind (.emit trivial (.onToken ?_ (.pure ?_))))))
  · rintro t ts rfl p hp
    split at hp
    next => simp at hp
    next =>
      split at hp
      next hkind =>
        obtain rfl := Option.some.inj hp
        refine hg.returnStatement.mono ?_
        rintro _ _ rest nodes - ⟨result, rfl, hresult, hend⟩
        refine ⟨⟨_, .refl _,
          .node .blockReturn (.token hkind (.phrase hresult .nil))⟩, hbegin _, ?_⟩
        exact List.mem_cons_of_mem _ hend
      next =>
        obtain rfl := Option.some.inj hp
        refine .bind
          (.within (fun _ => rfl) (fun _ _ h => h) (hg.statementFrom.mono ?_))
        rintro _ trees mid nodes - ⟨statement, hgroup, hstatement⟩
        refine (hg.block mid _).mono ?_
        rintro _ _ rest nodes' - ⟨block, rfl, hblock, hend⟩
        refine ⟨⟨[statement, block], hgroup.append (.refl [block]), ?_⟩,
          hbegin _, ?_⟩
        · exact .node .blockStatement (.phrase hstatement (.phrase hblock .nil))
        · simp [offsetsIn, hend]
  · exact ⟨⟨[], .refl [], .node .blockEnd .nil⟩, hbegin _, hbegin _⟩

/-! ## The grammar as a whole -/

theorem step : g.step.Arranges chunk where
  expression _ _ _ _ := hg.expressionRule
  operators _ _ _ _ := hg.operatorsRule
  suffixes _ _ _ := hg.suffixesRule
  values _ _ _ := hg.valuesRule
  entries _ _ := hg.entriesRule
  targets _ _ := hg.targetsRule
  branches _ _ := hg.branchesRule
  block _ _ := hg.blockRule

theorem wholeChunk :
    Grows chunk g.chunk ts past fun _ trees rest _ => ∃ tree, trees = [tree] ∧
    tree.IsA .block ∧ rest = [] := by
  refine .bind ((hg.block ts past).mono ?_)
  rintro _ _ mid nodes - ⟨tree, rfl, htree, -⟩
  refine .bind (.peek ?_)
  cases mid with
  | nil => exact .pure ⟨tree, rfl, htree, rfl⟩
  | cons t mid => exact .fail

end Arranges

theorem arranges_upTo (n : Nat) (chunk : Chunk) : (upTo n).Arranges chunk := by
  induction n with
  | zero => constructor <;> intros <;> exact .absurd
  | succ n ih => exact ih.step

end Grammar

/-- The tree of a source without a syntax error. -/
theorem Outline.exists_tree {source : Bytes} {finish : Pos} {ts : List Token}
    (h : (Outline.ofTokens source finish ts).error = none) :
    ∃ tree : Tree, tree.IsA .block ∧ tree.tokens = ts ∧
      Fit finish [tree] [] (Outline.ofTokens source finish ts).nodes := by
  have hgrows :
      Parser.Grows ⟨source, finish⟩
        (Grammar.upTo (ts.length + 1)).chunk ts .none _ :=
    (Grammar.arranges_upTo _ _).wholeChunk
  unfold Outline.ofTokens at h ⊢
  dsimp only at h ⊢
  split at h
  next outcome hresult =>
    obtain ⟨a, c⟩ := outcome
    obtain ⟨_, htokens, -, hfit, tree, rfl, htree, hrest⟩ :=
      hgrows _ rfl rfl a c hresult
    rw [hrest, tokensAll, tokensAll, List.append_nil, List.append_nil] at htokens
    rw [hrest] at hfit
    exact ⟨tree, htree, htokens.symm, hfit⟩
  next => simp at h

end LuaGloss
