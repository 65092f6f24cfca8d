import LuaGloss.Syntax.Parser

/-!
# What parsers do to the rest of the input

A judgement on parsers that looks only at the kinds of the tokens that are left:
on them the parser succeeds.  There is one rule for each combinator, so that the
rules of the grammar are verified without a look at cursors.
-/

namespace LuaGloss

namespace Cursor

def kinds (c : Cursor n) : List TokenKind := c.rest.map (·.kind)

@[simp] theorem kinds_weaken (c : Cursor n) : c.weaken.kinds = c.kinds := rfl

theorem rest_tail (c : Cursor n) : c.tail.rest = c.rest.tail := by
  unfold tail
  split
  next h => simp [h]
  next t rest h => simp [h]

theorem kinds_tail (c : Cursor n) : c.tail.kinds = c.kinds.tail := by
  simp [kinds, rest_tail]

theorem head?_kinds (c : Cursor n) :
    c.rest.head?.map (·.kind) = c.kinds.head? := by
  simp [kinds]

end Cursor

namespace Parser

/-- If the kinds `ks` are left, then the parser succeeds as `post` says of its
value and of the kinds left after it. -/
def Meets (p : Parser n α) (ks : List TokenKind)
    (post : α → List TokenKind → Prop) : Prop :=
  ∀ chunk c, c.kinds = ks →
    match (p chunk c).result with
    | .ok (a, c') => post a c'.kinds
    | .error _ => False

variable {f : Token → Option (Parser n α)} {otherwise : Parser (n + 1) α}
  {c : Cursor (n + 1)} {t : Token} {rest : List Token}

theorem onToken_of_nil {chunk : Chunk} (h : c.rest = []) :
    onToken f otherwise chunk c = otherwise chunk c := by
  unfold onToken
  split
  next => rfl
  next t rest h' => simp [h] at h'

theorem onToken_of_none {chunk : Chunk} (h : c.rest = t :: rest)
    (hf : f t = none) : onToken f otherwise chunk c = otherwise chunk c := by
  unfold onToken
  split
  next => rfl
  next t' rest' h' =>
    obtain ⟨rfl, rfl⟩ : t = t' ∧ rest = rest' := by simpa [h] using h'
    simp [hf]

theorem onToken_of_some (chunk : Chunk) {p : Parser n α}
    (h : c.rest = t :: rest) (hf : f t = some p) :
    ∃ hbound : rest.length < n,
      onToken f otherwise chunk c = (p chunk ⟨rest, t.pos, hbound⟩).weaken := by
  have hbound := c.bound
  rw [h] at hbound
  refine ⟨by simpa using hbound, ?_⟩
  unfold onToken
  split
  next h' => simp [h] at h'
  next t' rest' h' =>
    obtain ⟨rfl, rfl⟩ : t = t' ∧ rest = rest' := by simpa [h] using h'
    simp [hf]

namespace Meets

variable {ks : List TokenKind} {post : α → List TokenKind → Prop}

theorem mono {p : Parser n α} {post' : α → List TokenKind → Prop}
    (h : Meets p ks post)
    (himp : ∀ a rest, post a rest → post' a rest) :
    Meets p ks post' := by
  intro chunk c hc
  have := h chunk c hc
  cases hr : (p chunk c).result with
  | error e => simp [hr] at this
  | ok r =>
      rw [hr] at this
      exact himp _ _ this

theorem pure {a : α} (h : post a ks) :
    Meets (Pure.pure a : Parser n α) ks post := by
  intro chunk c hc
  subst hc
  exact h

theorem bind {p : Parser n α} {f : α → Parser n β}
    {post : β → List TokenKind → Prop}
    (h : Meets p ks fun a rest => Meets (f a) rest post) :
    Meets (p >>= f) ks post := by
  intro chunk c hc
  have hp := h chunk c hc
  change match (Parser.bind p f chunk c).result with
    | .ok (a, c') => post a c'.kinds
    | .error _ => False
  unfold Parser.bind
  cases hr : (p chunk c).result with
  | error e => simp [hr] at hp
  | ok r =>
      rw [hr] at hp
      simpa [hr] using hp chunk r.2 rfl

theorem andThen {p : Parser n α} {f : α → Parser n β} {mid : List TokenKind}
    {post : β → List TokenKind → Prop} (h : Meets p ks fun _ rest => rest = mid)
    (hf : ∀ a, Meets (f a) mid post) : Meets (p >>= f) ks post :=
  .bind (h.mono fun a _ hrest => hrest ▸ hf a)

/-! ## Parsers that read nothing -/

theorem emit {node : Node} {post : Unit → List TokenKind → Prop} (h : post () ks) :
    Meets (Parser.emit node : Parser n Unit) ks post := by
  intro chunk c hc
  subst hc
  exact h

theorem wrap {p : Parser n α} {f : List Node → Option α → List Node}
    (h : Meets p ks post) :
    Meets (p.wrap f) ks post := h

theorem within {p : Parser n α} {f : List Node → Node} (h : Meets p ks post) :
    Meets (p.within f) ks post := h

theorem here {post : Pos → List TokenKind → Prop} (h : ∀ pos, post pos ks) :
    Meets (Parser.here : Parser n Pos) ks post := by
  intro chunk c hc
  subst hc
  exact h _

theorem last {post : Pos → List TokenKind → Prop} (h : ∀ pos, post pos ks) :
    Meets (Parser.last : Parser n Pos) ks post := by
  intro chunk c hc
  subst hc
  exact h _

theorem peek {post : Option Token → List TokenKind → Prop}
    (h : ∀ t, t.map (·.kind) = ks.head? → post t ks) :
    Meets (Parser.peek : Parser n (Option Token)) ks post := by
  intro chunk c hc
  subst hc
  exact h _ c.head?_kinds

theorem peekSecond {post : Option Token → List TokenKind → Prop}
    (h : ∀ t, t.map (·.kind) = ks.tail.head? → post t ks) :
    Meets (Parser.peekSecond : Parser n (Option Token)) ks post := by
  intro chunk c hc
  subst hc
  exact h _ (by simp [Cursor.kinds])

theorem span {shape : ValueShape} {start : Pos}
    {post : Value → List TokenKind → Prop} (h : ∀ value, post value ks) :
    Meets (Parser.span shape start : Parser n Value) ks post := by
  intro chunk c hc
  subst hc
  exact h _

variable {kind : TokenKind}

theorem nextIs {post : Bool → List TokenKind → Prop}
    (h : post (ks.head? == some kind) ks) :
    Meets (Parser.nextIs kind : Parser n Bool) ks post := by
  refine bind (peek fun t ht => pure ?_)
  rw [← ht] at h
  cases t with
  | none => exact h
  | some t => simpa using h

/-! ## Parsers that take a token away -/

theorem skip {post : Unit → List TokenKind → Prop} (h : post () ks.tail) :
    Meets (Parser.skip : Parser n Unit) ks post := by
  intro chunk c hc
  subst hc
  rw [← c.kinds_tail] at h
  exact h

theorem accept {post : Bool → List TokenKind → Prop}
    (htrue : ∀ rest, ks = kind :: rest → post true rest)
    (hfalse : ks.head? ≠ some kind → post false ks) :
    Meets (Parser.accept kind : Parser n Bool) ks post := by
  refine bind (nextIs ?_)
  cases ks with
  | nil => exact pure (hfalse (by simp))
  | cons k rest =>
      by_cases hk : k = kind
      · subst hk
        simp only [List.head?_cons, BEq.rfl, if_true]
        exact bind (skip (pure (htrue rest rfl)))
      · have hne : (some k == some kind) = false := by simpa using hk
        simp only [List.head?_cons, hne, Bool.false_eq_true, if_false]
        exact pure (hfalse (by simpa using hk))

theorem accept_cons {post : Bool → List TokenKind → Prop}
    (h : post true ks) :
    Meets (Parser.accept kind : Parser n Bool) (kind :: ks) post := by
  refine accept ?_ (by simp)
  intro rest hrest
  obtain rfl : ks = rest := by simpa using hrest
  exact h

theorem accept_other {post : Bool → List TokenKind → Prop}
    (hk : ks.head? ≠ some kind) (h : post false ks) :
    Meets (Parser.accept kind : Parser n Bool) ks post := by
  refine accept ?_ fun _ => h
  rintro rest rfl
  simp at hk

theorem onToken (hnil : ks = [] → Meets otherwise ks post)
    (hcons : ∀ t rest, ks = t.kind :: rest →
      (∀ p, f t = some p → Meets p rest post) ∧
        (f t = none → Meets otherwise ks post)) :
    Meets (Parser.onToken f otherwise) ks post := by
  intro chunk c hc
  cases hrest : c.rest with
  | nil =>
      rw [onToken_of_nil hrest]
      exact hnil (by simp [← hc, Cursor.kinds, hrest]) chunk c hc
  | cons t rest =>
      have hks : ks = t.kind :: rest.map (·.kind) := by
        simp [← hc, Cursor.kinds, hrest]
      obtain ⟨hsome, hnone⟩ := hcons t _ hks
      cases hf : f t with
      | none =>
          rw [onToken_of_none hrest hf]
          exact hnone hf chunk c hc
      | some p =>
          obtain ⟨hbound, heq⟩ := onToken_of_some chunk hrest hf
          have hp := hsome p hf chunk ⟨rest, t.pos, hbound⟩ rfl
          rw [heq]
          simp only [Outcome.weaken, Except.map]
          split at hp
          next a c' hr => simpa [hr] using hp
          next => simp at hp

theorem onToken_cons
    (h : ∀ t : Token, t.kind = kind → ∃ p, f t = some p ∧ Meets p ks post) :
    Meets (Parser.onToken f otherwise) (kind :: ks) post := by
  refine onToken (by simp) ?_
  intro t rest hks
  obtain ⟨hkind, rfl⟩ : kind = t.kind ∧ ks = rest := by simpa using hks
  obtain ⟨p, hp, hmeets⟩ := h t hkind.symm
  refine ⟨fun q hq => ?_, fun hnone => ?_⟩
  · obtain rfl : p = q := by simpa [hp] using hq
    exact hmeets
  · simp [hp] at hnone

theorem onToken_other (hf : ∀ t : Token, ks.head? = some t.kind → f t = none)
    (h : Meets otherwise ks post) :
    Meets (Parser.onToken f otherwise) ks post := by
  refine onToken (fun _ => h) ?_
  rintro t rest rfl
  have hnone := hf t rfl
  exact ⟨by simp [hnone], fun _ => h⟩

theorem expectSymbol_cons {sign : Symbol} {post : Unit → List TokenKind → Prop}
    (h : post () ks) :
    Meets (Parser.expectSymbol sign : Parser n Unit) (.symbol sign :: ks) post :=
  bind (accept_cons (pure h))

theorem expectKeyword_cons {word : Keyword} {post : Unit → List TokenKind → Prop}
    (h : post () ks) :
    Meets (Parser.expectKeyword word : Parser n Unit) (.keyword word :: ks) post :=
  bind (accept_cons (pure h))

theorem expectName_cons {post : Ident → List TokenKind → Prop}
    (h : ∀ ident, post ident ks) :
    Meets (Parser.expectName : Parser n Ident) (.name :: ks) post := by
  refine bind (peek fun t ht => ?_)
  cases t with
  | none => simp at ht
  | some t =>
      have hkind : t.kind = .name := by simpa using ht
      simp only [hkind, if_true]
      exact bind (skip (pure (h _)))

theorem closeSymbol_cons {sign opener : Symbol} {line : Nat}
    {post : Unit → List TokenKind → Prop} (h : post () ks) :
    Meets (Parser.closeSymbol sign opener line : Parser n Unit)
      (.symbol sign :: ks) post :=
  bind (accept_cons (pure h))

theorem closeKeyword_cons {word opener : Keyword} {line : Nat}
    {post : Unit → List TokenKind → Prop} (h : post () ks) :
    Meets (Parser.closeKeyword word opener line : Parser n Unit)
      (.keyword word :: ks) post :=
  bind (accept_cons (pure h))

end Meets

end Parser

end LuaGloss
