import LuaGloss.Proofs.Comment.Effects
import LuaGloss.Proofs.Item.Growth
import LuaGloss.Proofs.Source.Steps

/-!
# Sources unfold declarations

Going through the outline of a source changes declarations in events only: items
and tables are added, and what is added is completed later.  An item that was
there before is left alone, so that the initializer of a declaration is still
missing when the expressions after it have been read.

Along the way each reference in a comment is bound to what its name has meant at
some point, or waits in the queue.
-/

namespace LuaGloss

def Declarations.Knew (d : Declarations) (name : Bytes) (item : ItemId) : Prop :=
  ∃ before, Declarations.empty.Unfolds before ∧ before.Unfolds d ∧
  before.find name = some item

theorem Declarations.foundIn_knew {d : Declarations}
    (hd : Declarations.empty.Unfolds d) : d.FoundIn d.Knew :=
  fun _ _ hitem => ⟨d, hd, .refl d, hitem⟩

theorem Declarations.Unfolds.knew {d d' : Declarations} (h : d.Unfolds d')
    (name : Bytes) (item : ItemId) (hknew : d.Knew name item) :
    d'.Knew name item := by
  obtain ⟨before, hbefore, hafter, hitem⟩ := hknew
  exact ⟨before, hbefore, hafter.trans h, hitem⟩

/-- What holds of a catalog while sources are read. -/
structure Catalog.Sound (c : Catalog) : Prop where
  declarations : Declarations.empty.Unfolds c.declarations
  docs : c.docs.Sound c.declarations.Knew

namespace Recorder

/-! ## Comments -/

/-- What reading comments does from `r` to `r'`. -/
structure Affects (r r' : Recorder) : Prop where
  file : r'.file = r.file
  locals : r'.locals = r.locals
  depth : r'.depth = r.depth
  reader : r.reader.Affects r'.reader

namespace Affects

theorem refl (r : Recorder) : r.Affects r := ⟨rfl, rfl, rfl, .refl _⟩

theorem trans {r r' r'' : Recorder} (h : r.Affects r') (h' : r'.Affects r'') :
    r.Affects r'' where
  file := h'.file.trans h.file
  locals := h'.locals.trans h.locals
  depth := h'.depth.trans h.depth
  reader := h.reader.trans h'.reader

theorem mapReader {r : Recorder} {f : CommentReader → CommentReader}
    (h : r.reader.Affects (f r.reader)) : r.Affects (r.mapReader f) :=
  ⟨rfl, rfl, rfl, h⟩

theorem mapCatalog {r : Recorder} {f : Catalog → Catalog}
    (h : r.catalog.Quiet (f r.catalog)) : r.Affects (r.mapCatalog f) :=
  mapReader (.mapCatalog h)

theorem warn (r : Recorder) (pos : Pos) (what : Warning) :
    r.Affects (r.warn pos what) := mapCatalog (.warn _ _ _ _)

theorem discard (r : Recorder) : r.Affects r.discard := mapReader (.discard _)

theorem forget (r : Recorder) (last : Option ItemId) :
    r.Affects { r with last } := ⟨rfl, rfl, rfl, .refl _⟩

theorem readInBody (r : Recorder) (t : Token) : r.Affects (r.readInBody t) := by
  unfold Recorder.readInBody
  split
  · split
    · exact mapReader (.readBack _ _ _ _ _)
    · exact .refl r
  · exact .refl r

theorem readComment (r : Recorder) (previous : Option Token) (t : Token) :
    r.Affects (r.readComment previous t) := by
  unfold Recorder.readComment
  split
  · split
    · exact mapReader (.readBack _ _ _ _ _)
    · exact .warn r _ _
  · exact mapReader (.readAhead _ _ _ _ _)

theorem flush (r : Recorder) (offset : Nat) : r.Affects (r.flush offset) := by
  refine flush_of_steps .refl (fun h h' => h.trans h') ?_ readInBody
    readComment r offset
  exact fun r _ => ⟨rfl, rfl, rfl, .refl _⟩

end Affects

/-! ## Unfolding -/

structure Sound (r : Recorder) : Prop where
  declarations : Declarations.empty.Unfolds r.catalog.declarations
  reader : r.reader.Sound r.catalog.declarations.Knew

/-- From `r` to `r'` declarations unfold, and the first `n` items stay as they
are. -/
structure Unfolds (n : Nat) (r r' : Recorder) : Prop where
  declarations : r.catalog.declarations.Unfolds r'.catalog.declarations
  kept : ∀ id, id < n → r'.catalog.item? id = r.catalog.item? id
  sound : r.Sound → r'.Sound

def count (r : Recorder) : Nat := r.catalog.declarations.items.size

namespace Unfolds

variable {r r' r'' : Recorder} {n : Nat}

theorem refl (n : Nat) (r : Recorder) : Unfolds n r r :=
  ⟨.refl _, fun _ _ => rfl, id⟩

theorem trans (h : Unfolds n r r') (h' : Unfolds n r' r'') : Unfolds n r r'' where
  declarations := h.declarations.trans h'.declarations
  kept id hid := (h'.kept id hid).trans (h.kept id hid)
  sound hr := h'.sound (h.sound hr)

theorem mono (h : Unfolds n r r') {m : Nat} (hle : m ≤ n) : Unfolds m r r' :=
  { h with kept := fun id hid => h.kept id (Nat.lt_of_lt_of_le hid hle) }

theorem count_le (h : Unfolds n r r') : r.count ≤ r'.count :=
  h.declarations.grows.size

theorem andThen (h : Unfolds r.count r r') (h' : Unfolds r'.count r' r'') :
    Unfolds r.count r r'' :=
  h.trans (h'.mono h.count_le)

theorem of_reader
    (hdeclarations : r'.catalog.declarations = r.catalog.declarations)
    (hsound : ∀ known, r.catalog.declarations.FoundIn known →
      r.reader.Sound known → r'.reader.Sound known) :
    Unfolds n r r' where
  declarations := by
    rw [hdeclarations]
    exact .refl _
  kept id _ := congrArg (Declarations.item? · id) hdeclarations
  sound hr := by
    constructor
    · rw [hdeclarations]
      exact hr.declarations
    · rw [hdeclarations]
      exact hsound _ (Declarations.foundIn_knew hr.declarations) hr.reader

theorem of_affects (h : r.reader.Affects r'.reader) : Unfolds n r r' :=
  of_reader h.declarations h.sound

theorem of_event (h : r.catalog.declarations.Event r'.catalog.declarations)
    (hkept : ∀ id, id < n → r'.catalog.item? id = r.catalog.item? id)
    (hsound : ∀ known, r.reader.Sound known → r'.reader.Sound known) :
    Unfolds n r r' where
  declarations := .single h
  kept := hkept
  sound hr := by
    have hafter := Declarations.Unfolds.single h
    exact ⟨hr.declarations.trans hafter, (hsound _ hr.reader).mono hafter.knew⟩

/-! ## Comments and scopes -/

theorem mapCatalog {f : Catalog → Catalog} (h : r.catalog.Quiet (f r.catalog)) :
    Unfolds n r (r.mapCatalog f) :=
  of_affects (Affects.mapCatalog h).reader

theorem warn (r : Recorder) (pos : Pos) (what : Warning) :
    Unfolds n r (r.warn pos what) :=
  of_affects (Affects.warn r pos what).reader

theorem discard (r : Recorder) : Unfolds n r r.discard :=
  of_affects (Affects.discard r).reader

theorem forget (r : Recorder) (last : Option ItemId) :
    Unfolds n r { r with last } := of_affects (.refl _)

theorem flush (r : Recorder) (offset : Nat) : Unfolds n r (r.flush offset) :=
  of_affects (Affects.flush r offset).reader

theorem enterScope (r : Recorder) : Unfolds n r r.enterScope :=
  of_reader rfl fun _ _ hr => .of_none hr.docs rfl rfl

theorem leaveScope (r : Recorder) : Unfolds n r r.leaveScope :=
  of_reader rfl fun _ _ hr => .of_none hr.docs rfl rfl

theorem enterBody (r : Recorder) (item : Option ItemId) (line : Nat) :
    Unfolds n r (r.enterBody item line) := by
  unfold Recorder.enterBody
  apply Unfolds.trans ?_ (enterScope _)
  split <;> exact of_affects (.refl _)

theorem leaveBody (h : Unfolds n r r') (before : Recorder) :
    Unfolds n r (r'.leaveBody before) :=
  (h.trans (leaveScope r')).trans (of_affects (.refl _))

/-! ## Items and tables -/

theorem declare (r : Recorder) (item : Item) :
    Unfolds r.count r (r.declare item).2 := by
  apply of_event
  · rw [r.declarations_declare]
    exact .declare _ item
  · intro id hid
    unfold Catalog.item?
    rw [r.declarations_declare, Declarations.item?_add]
    exact if_neg (Nat.ne_of_lt hid)
  · exact fun _ hr => CommentReader.sound_declare hr item

theorem newTable (r : Recorder) (owner : Option ItemId) :
    Unfolds n r (r.newTable owner).2 := by
  unfold Recorder.newTable
  split
  · split
    · refine of_event (.table _ _) (fun _ _ => rfl) ?_
      exact fun _ hr =>
        hr.of_size_le hr.docs (Nat.le_refl _) (fun _ h => h) fun _ h => h
    · exact .refl n r
  · exact .refl n r

theorem modifyItem (r : Recorder) {id : ItemId} {f : Item → Item} (hid : n ≤ id)
    (hevent : r.catalog.declarations.Event
      (r.catalog.declarations.modifyItem id f)) :
    Unfolds n r (r.mapCatalog (·.modifyItem id f)) := by
  apply of_event hevent
  · intro other hother
    change (r.catalog.declarations.modifyItem id f).item? other = _
    rw [Declarations.item?_modifyItem,
      if_neg (Nat.ne_of_gt (Nat.lt_of_lt_of_le hother hid))]
    rfl
  · exact fun _ hr =>
      hr.of_size_le hr.docs (Nat.le_refl _) (fun _ h => h) fun _ h => h

end Unfolds

/-! ## Declarations that wait for an initializer -/

def IsBlank (r : Recorder) (id : ItemId) : Prop :=
  ∃ item, r.catalog.item? id = some item ∧ item.init? = some .none

theorem IsBlank.lt_count {r : Recorder} {id : ItemId} (h : r.IsBlank id) :
    id < r.count := by
  obtain ⟨item, hitem, -⟩ := h
  exact Declarations.lt_size_of_item? hitem

theorem Unfolds.isBlank {r r' : Recorder} (h : Unfolds r.count r r')
    {id : ItemId} (hid : r.IsBlank id) : r'.IsBlank id := by
  have hkept := h.kept id hid.lt_count
  unfold IsBlank
  rw [hkept]
  exact hid

/-- New items, no two of them the same, that have no initializers yet. -/
structure Declares (r : Recorder) (ids : List (Option ItemId)) (r' : Recorder) :
    Prop where
  unfolds : Unfolds r.count r r'
  isNew : ∀ id, some id ∈ ids → r.count ≤ id
  isBlank : ∀ id, some id ∈ ids → r'.IsBlank id
  distinct : ids.Pairwise fun a b => ∀ id, a = some id → b ≠ some id

namespace Declares

variable {r r' r'' : Recorder}

theorem nil (r : Recorder) : r.Declares [] r := ⟨.refl _ r, by simp, by simp, .nil⟩

theorem of_unfolds (h : Unfolds r.count r r') : r.Declares [none] r' :=
  ⟨h, by simp, by simp, by simp⟩

theorem cons {id : Option ItemId} {ids : List (Option ItemId)}
    (h : r.Declares [id] r') (h' : r'.Declares ids r'') :
    r.Declares (id :: ids) r'' where
  unfolds := h.unfolds.andThen h'.unfolds
  isNew other hother := by
    rcases List.mem_cons.1 hother with hfirst | hrest
    · exact h.isNew other (by simp [hfirst])
    · exact Nat.le_trans h.unfolds.count_le (h'.isNew other hrest)
  isBlank other hother := by
    rcases List.mem_cons.1 hother with hfirst | hrest
    · exact h'.unfolds.isBlank (h.isBlank other (by simp [hfirst]))
    · exact h'.isBlank other hrest
  distinct := by
    refine List.pairwise_cons.2 ⟨?_, h'.distinct⟩
    intro other hother first hfirst hsame
    subst hsame
    have hlt : first < r'.count := (h.isBlank first (by simp [hfirst])).lt_count
    exact Nat.not_le_of_lt hlt (h'.isNew first hother)

theorem declare (r : Recorder) {item : Item} (hitem : item.init? = some .none) :
    r.Declares [some (r.declare item).1] (r.declare item).2 := by
  have hid : (r.declare item).1 = r.count := r.reader.fst_declare item
  have hblank : (r.declare item).2.IsBlank r.count := by
    refine ⟨r.catalog.declarations.recorded item, ?_, hitem⟩
    unfold Catalog.item?
    rw [r.declarations_declare, Declarations.item?_add, count, if_pos rfl]
  rw [hid]
  exact ⟨.declare r item, by simp, by simpa using hblank, by simp⟩

theorem addLocal {id : Option ItemId} (h : r.Declares [id] r') (name : Bytes)
    (local' : ItemId) : r.Declares [id] (r'.addLocal name local') :=
  ⟨h.unfolds.trans (.of_affects (.refl _)), h.isNew, h.isBlank, h.distinct⟩

theorem declareLocals (names : List Ident) (r : Recorder) :
    r.Declares (r.declareLocals names).1 (r.declareLocals names).2 := by
  induction names generalizing r with
  | nil => exact .nil r
  | cons ident idents ih =>
      unfold Recorder.declareLocals
      split
      · exact ((declare r rfl).addLocal _ _).cons (ih _)
      · exact (of_unfolds (.refl _ r)).cons (ih r)

theorem declareTarget (r : Recorder) (target : Target) :
    r.Declares [(r.declareTarget target).1] (r.declareTarget target).2 := by
  unfold Recorder.declareTarget
  split
  · exact of_unfolds (.refl _ r)
  · split
    · exact of_unfolds (.refl _ r)
    · exact declare r rfl
    · split
      · exact declare r rfl
      · exact of_unfolds (.mapCatalog (.note _ _))

theorem declareTargets (targets : List Target) (r : Recorder) :
    r.Declares (r.declareTargets targets).1 (r.declareTargets targets).2 := by
  induction targets generalizing r with
  | nil => exact .nil r
  | cons target targets ih => exact (declareTarget r target).cons (ih _)

theorem declareEntry (r : Recorder) (table : Option TableId) (head : FieldHead) :
    r.Declares [(r.declareEntry table head).1] (r.declareEntry table head).2 := by
  unfold Recorder.declareEntry
  split
  · exact declare r rfl
  · exact of_unfolds (.refl _ r)

end Declares

theorem item?_setInit_of_ne (r : Recorder) {id : Option ItemId} {other : ItemId}
    (h : id ≠ some other) (init : Value) (table : Option TableId) :
    (r.setInit id init table).catalog.item? other = r.catalog.item? other := by
  unfold Recorder.setInit
  split
  · rfl
  next item =>
    change (r.catalog.declarations.modifyItem item _).item? other =
      r.catalog.declarations.item? other
    rw [Declarations.item?_modifyItem, if_neg fun heq => h (congrArg some heq)]

theorem walkAll_append (before after : List Node) (r : Recorder)
    (owner : Option ItemId) (table : Option TableId) :
    (Recorder.walkAll owner table r (before ++ after)).2 =
      (Recorder.walkAll owner table (Recorder.walkAll owner table r before).2
        after).2 := by
  induction before generalizing r with
  | nil => rw [Recorder.walkAll, List.nil_append]
  | cons node before ih =>
      rw [List.cons_append, Recorder.walkAll, Recorder.walkAll]
      exact ih _

namespace Unfolds

variable {r r' r'' : Recorder} {n : Nat}

theorem setInit (r : Recorder) {id : Option ItemId}
    (hid : ∀ item, id = some item → n ≤ item ∧ r.IsBlank item) (init : Value)
    (table : Option TableId) : Unfolds n r (r.setInit id init table) := by
  unfold Recorder.setInit
  split
  · exact .refl n r
  next item =>
    obtain ⟨hnew, blank, hblank, hinit⟩ := hid item rfl
    exact modifyItem r hnew (.init _ hblank hinit)

theorem setInits {ids : List (Option ItemId)} (r : Recorder)
    (hnew : ∀ id, some id ∈ ids → n ≤ id)
    (hblank : ∀ id, some id ∈ ids → r.IsBlank id)
    (hdistinct : ids.Pairwise fun a b => ∀ id, a = some id → b ≠ some id)
    (inits : List Value) (tables : List (Option TableId)) :
    Unfolds n r (r.setInits ids inits tables) := by
  induction ids generalizing r inits tables with
  | nil => exact .refl n r
  | cons id ids ih =>
      cases inits with
      | nil => exact .refl n r
      | cons init inits =>
          obtain ⟨hfirst, hrest⟩ := List.pairwise_cons.1 hdistinct
          have hset : Unfolds n r (r.setInit id init tables.head?.join) := by
            apply setInit
            rintro item rfl
            exact ⟨hnew item List.mem_cons_self, hblank item List.mem_cons_self⟩
          unfold Recorder.setInits
          apply hset.trans
          apply ih _ (fun other hother =>
            hnew other (List.mem_cons_of_mem _ hother)) ?_ hrest
          intro other hother
          have hne : id ≠ some other :=
            fun heq => hfirst (some other) hother other heq rfl
          unfold IsBlank
          rw [item?_setInit_of_ne r hne]
          exact hblank other (List.mem_cons_of_mem _ hother)

/-- What the targets of a statement are initialized with is recorded after its
expressions have been read. -/
theorem finish {ids : List (Option ItemId)} (h : r.Declares ids r')
    (h' : Unfolds r'.count r' r'') (inits : Option (List Value))
    (tables : List (Option TableId)) :
    Unfolds r.count r
      ((inits.map fun inits =>
        { r''.setInits ids inits tables with last := ids.getLast?.join }).getD
          r'') := by
  have hread := h.unfolds.andThen h'
  cases inits with
  | none => exact hread
  | some inits =>
      have hset :=
        setInits r'' h.isNew (fun id hid => h'.isBlank (h.isBlank id hid))
          h.distinct inits tables
      exact (hread.trans hset).trans (.forget _ _)

theorem declareStatement (r : Recorder) (head : FunctionHead) :
    Unfolds r.count r (r.declareStatement head).2 ∧
    ∀ id, (r.declareStatement head).1 = some id → r.count ≤ id := by
  have hdeclare (item : Item) :
      Unfolds r.count r (r.declare item).2 ∧
      ∀ id, some (r.declare item).1 = some id → r.count ≤ id := by
    refine ⟨.declare r item, ?_⟩
    rintro _ ⟨⟩
    exact Nat.le_of_eq (r.reader.fst_declare item).symm
  have hnone (r' : Recorder) (h : Unfolds r.count r r') :
      Unfolds r.count r r' ∧ ∀ id, (none : Option ItemId) = some id →
      r.count ≤ id := ⟨h, by simp⟩
  unfold Recorder.declareStatement
  split
  · split
    · obtain ⟨hunfolds, hnew⟩ := hdeclare _
      exact ⟨hunfolds.trans (.of_affects (.refl _)), hnew⟩
    · exact hnone r (.refl _ r)
  · split
    · exact hnone r (.refl _ r)
    · split
      · exact hdeclare _
      · exact hdeclare _
      · split
        · exact hdeclare _
        · exact hnone _ ((warn r _ _).trans (.discard _))

theorem finishStatement (r : Recorder) {id : Option ItemId}
    (hid : ∀ item, id = some item → n ≤ item) (pos : Pos) :
    Unfolds n r (r.finishStatement id pos) := by
  unfold Recorder.finishStatement
  split
  next item =>
    exact (modifyItem r (hid item rfl) (.extend _ item pos)).trans (.forget _ _)
  next => exact .forget r none

/-! ## The walk -/

mutual

theorem walk (node : Node) (r : Recorder) (owner : Option ItemId)
    (table : Option TableId) :
    Unfolds r.count r (Recorder.walk owner table r node).2 := by
  cases node with
  | comments offset =>
      rw [Recorder.walk]
      exact .flush r offset
  | tableComments offset =>
      rw [Recorder.walk]
      dsimp only
      split
      · exact .flush r offset
      · exact .refl _ r
  | tableEnd =>
      rw [Recorder.walk]
      dsimp only
      split
      · exact .discard r
      · exact .refl _ r
  | discard =>
      rw [Recorder.walk]
      exact .discard r
  | forget =>
      rw [Recorder.walk]
      exact .forget r none
  | statement inner =>
      rw [Recorder.walk]
      exact ((forget r none).andThen (walkAll inner _ none none)).trans
        (.discard _)
  | scope inner =>
      rw [Recorder.walk]
      exact ((enterScope r).andThen (walkAll inner _ none none)).trans
        (.leaveScope _)
  | body owned line inner =>
      rw [Recorder.walk]
      exact ((enterBody r _ line).andThen (walkAll inner _ none none)).leaveBody r
  | table owned inner =>
      rw [Recorder.walk]
      exact (newTable r _).andThen (walkAll inner _ none _)
  | value inner =>
      rw [Recorder.walk]
      exact walkAll inner r owner none
  | entry head inner init =>
      rw [Recorder.walk]
      have hdeclares := Declares.declareEntry r table head
      have hinner :=
        walkAll inner (r.declareEntry table head).2
          (r.declareEntry table head).1 none
      have hread := hdeclares.unfolds.andThen hinner
      cases init with
      | none => exact hread
      | some init =>
          apply hread.trans
          apply setInit
          intro item hitem
          have hmem : some item ∈ [(r.declareEntry table head).1] := by
            simp [hitem]
          exact ⟨hdeclares.isNew item hmem,
            hinner.isBlank (hdeclares.isBlank item hmem)⟩
  | locals names inner inits =>
      rw [Recorder.walk]
      exact finish (.declareLocals names r) (walkValues inner _ _) inits _
  | assign targets inner inits =>
      rw [Recorder.walk]
      exact finish (.declareTargets targets r) (walkValues inner _ _) inits _
  | function head inner stop =>
      rw [Recorder.walk]
      obtain ⟨hdeclared, hnew⟩ := declareStatement r head
      have hread :=
        hdeclared.andThen (walkAll inner _ (r.declareStatement head).1 none)
      cases stop with
      | none => exact hread
      | some stop => exact hread.trans (finishStatement _ hnew stop)

theorem walkAll (nodes : List Node) (r : Recorder) (owner : Option ItemId)
    (table : Option TableId) :
    Unfolds r.count r (Recorder.walkAll owner table r nodes).2 := by
  cases nodes with
  | nil =>
      rw [Recorder.walkAll]
      exact .refl _ r
  | cons node nodes =>
      rw [Recorder.walkAll]
      exact (walk node r owner table).andThen (walkAll nodes _ owner table)

theorem walkValues (nodes : List Node) (r : Recorder)
    (ids : List (Option ItemId)) :
    Unfolds r.count r (Recorder.walkValues ids r nodes).2 := by
  cases nodes with
  | nil =>
      rw [Recorder.walkValues]
      exact .refl _ r
  | cons node nodes =>
      rw [Recorder.walkValues]
      exact (walk node r ids.head?.join none).andThen (walkValues nodes _ ids.tail)

end

end Unfolds

end Recorder

/-! ## Sources -/

namespace Catalog

/-- From `c` to `c'` declarations unfold, and references stay accounted for. -/
structure Unfolds (c c' : Catalog) : Prop where
  declarations : c.declarations.Unfolds c'.declarations
  sound : c.Sound → c'.Sound

namespace Unfolds

variable {c c' c'' : Catalog}

theorem refl (c : Catalog) : c.Unfolds c := ⟨.refl _, id⟩

theorem trans (h : c.Unfolds c') (h' : c'.Unfolds c'') : c.Unfolds c'' :=
  ⟨h.declarations.trans h'.declarations, fun hc => h'.sound (h.sound hc)⟩

theorem note (c : Catalog) (notice : Notice) : c.Unfolds (c.note notice) where
  declarations := .refl _
  sound hc := ⟨hc.declarations, hc.docs.quiet (.note _ _)⟩

theorem addSource (c : Catalog) (source : SourceText) :
    c.Unfolds { c with declarations := c.declarations.addSource source } where
  declarations := .single (.source _ source)
  sound hc := by
    have hafter := Declarations.Unfolds.single (.source c.declarations source)
    exact ⟨hc.declarations.trans hafter, hc.docs.mono hafter.knew⟩

theorem recordSource (c : Catalog) (file source : Bytes) (tokens : List Token)
    (outline : Outline) :
    c.Unfolds (Recorder.recordSource c file source tokens outline).catalog := by
  have hstart : c.Sound → (Recorder.start c file source tokens).Sound := fun hc =>
    ⟨hc.declarations, hc.docs, by simp [Recorder.start, CommentReader.ofCatalog],
      by simp [Recorder.start, CommentReader.ofCatalog]⟩
  have hwalk :=
    Recorder.Unfolds.walkAll outline.nodes
      (Recorder.start c file source tokens) none none
  have hleave (r : Recorder) : Recorder.Unfolds 0 r r.leaveFile :=
    .of_reader rfl fun _ _ hr => .of_none hr.docs rfl rfl
  have hrecorded (r : Recorder)
      (h : Recorder.Unfolds 0 (Recorder.start c file source tokens) r) :
      c.Unfolds r.catalog :=
    ⟨h.declarations, fun hc =>
      ⟨(h.sound (hstart hc)).declarations, (h.sound (hstart hc)).reader.docs⟩⟩
  unfold Recorder.recordSource
  dsimp only
  split
  · exact hrecorded _ ((hwalk.mono (Nat.zero_le _)).trans (hleave _))
  · exact hrecorded _ (hwalk.mono (Nat.zero_le _))

theorem readSource (c : Catalog) (file source : Bytes) :
    c.Unfolds (c.readSource file source).2 := by
  have hsource := addSource c ⟨file, source⟩
  unfold Catalog.readSource
  dsimp only
  split
  · exact hsource
  · split
    · exact hsource.trans (.recordSource _ _ _ _ _)
    · exact (hsource.trans (.recordSource _ _ _ _ _)).trans (.note _ _)

end Unfolds

end Catalog

end LuaGloss
