import LuaGloss.Proofs.Source.Bodies
import LuaGloss.Proofs.Source.Steps

/-!
# The course of a walk

Whatever an outline looks like, going through it comes down to a few things:
comments are read, items are declared, the waiting block is dropped, something
is noted, and scopes are entered and left again.  Everything else concerns only
what the recorder remembers and how the declarations look.

A course can be sound, which means that the recorder is ready wherever comments
are read or items are declared.  A sound course changes the catalog in steps
only, and a table that is built on the way for an item belongs to that item, so
that it can become its initializer.
-/

namespace LuaGloss

namespace Recorder

/-- A recorder goes on without its comment reader taking part: the
documentation, the commands, the regions, the scopes, the waiting block and the
comments to come stay as they are. -/
structure Aside (r r' : Recorder) : Prop where
  reader : r'.reader = { r.reader with catalog := r'.catalog }
  docs : r'.catalog.docs = r.catalog.docs
  vocabulary : r'.catalog.vocabulary = r.catalog.vocabulary
  comments : r'.comments = r.comments
  lastScope : r'.lastScope = r.lastScope

namespace Aside

theorem withLast (r : Recorder) (last : Option ItemId) :
    r.Aside { r with last } := ⟨rfl, rfl, rfl, rfl, rfl⟩

theorem addLocal (r : Recorder) (name : Bytes) (id : ItemId) :
    r.Aside (r.addLocal name id) := ⟨rfl, rfl, rfl, rfl, rfl⟩

theorem newTable (r : Recorder) (owner : Option ItemId) :
    r.Aside (r.newTable owner).2 := by
  unfold Recorder.newTable
  split
  · split <;> exact ⟨rfl, rfl, rfl, rfl, rfl⟩
  · exact ⟨rfl, rfl, rfl, rfl, rfl⟩

theorem setInit (r : Recorder) (id : Option ItemId) (init : Value)
    (table : Option TableId) : r.Aside (r.setInit id init table) := by
  cases id <;> exact ⟨rfl, rfl, rfl, rfl, rfl⟩

theorem finishStatement (r : Recorder) (id : Option ItemId) (pos : Pos) :
    r.Aside (r.finishStatement id pos) := by
  cases id <;> exact ⟨rfl, rfl, rfl, rfl, rfl⟩

end Aside

/-! ## Single comments -/

/-- What becomes of a comment behind the given one.  It is read with its own
text, as a remark on an item or for what comes next; or it is warned about; or,
in a function body, skipped. -/
inductive Treats (r : Recorder) (previous : Option Token) (t : Token) :
    Recorder → Prop
  | remark {item : ItemId} : r.isDeclaring = true → t.isRetroactive = true →
      r.last = some item →
      Treats r previous t (r.mapReader (·.readBack t.value r.file t.pos item))
  | astray : r.isDeclaring = true → t.isRetroactive = true → r.last = none →
      Treats r previous t (r.warn t.pos .nothingToReferBackTo)
  | ahead : r.isDeclaring = true → t.isRetroactive = false →
      Treats r previous t (r.mapReader
        (·.readAhead t.value r.file t.pos (continues previous t)))
  | onHead {item : ItemId} : r.isDeclaring = false → t.isRetroactive = true →
      r.header = some item → t.pos.line = r.headerLine →
      Treats r previous t (r.mapReader (·.readBack t.value r.file t.pos item))
  | skipped : r.isDeclaring = false →
      (t.isRetroactive = true → r.header.isSome = true →
        t.pos.line ≠ r.headerLine) →
      Treats r previous t r

theorem Treats.readComment (r : Recorder) (previous : Option Token) (t : Token)
    (hr : r.isDeclaring = true) :
    r.Treats previous t (r.readComment previous t) := by
  unfold Recorder.readComment
  split
  next hback =>
    split
    next item hlast => exact .remark hr hback hlast
    next hlast => exact .astray hr hback hlast
  next hahead => exact .ahead hr (eq_false_of_ne_true hahead)

theorem Treats.readInBody (r : Recorder) (previous : Option Token) (t : Token)
    (hr : r.isDeclaring = false) : r.Treats previous t (r.readInBody t) := by
  unfold Recorder.readInBody
  split
  next item hheader =>
    split
    next hback =>
      rw [Bool.and_eq_true, beq_iff_eq] at hback
      exact .onHead hr hback.1 hheader hback.2
    next hother =>
      exact .skipped hr fun hback _ hline => hother (by simp [hback, hline])
  next hheader => exact .skipped hr fun _ hsome => by simp [hheader] at hsome

theorem Treats.comments {r r' : Recorder} {previous : Option Token} {t : Token}
    (h : r.Treats previous t r') : r'.comments = r.comments := by
  cases h <;> rfl

theorem Treats.isDeclaring {r r' : Recorder} {previous : Option Token} {t : Token}
    (h : r.Treats previous t r') : r'.isDeclaring = r.isDeclaring := by
  cases h <;> rfl

/-- The comments of a run are treated one after the other. -/
inductive TreatsAll : Recorder → Option Token → List Token → Recorder → Prop
  | nil (r : Recorder) (previous : Option Token) : TreatsAll r previous [] r
  | cons {r r' r'' : Recorder} {previous : Option Token} {t : Token}
      {ts : List Token} : r.Treats previous t r' → TreatsAll r' (some t) ts r'' →
      TreatsAll r previous (t :: ts) r''

theorem TreatsAll.comments {r r' : Recorder} {previous : Option Token}
    {run : List Token} (h : r.TreatsAll previous run r') :
    r'.comments = r.comments := by
  induction h with
  | nil r previous => rfl
  | cons hfirst _ ih => exact ih.trans hfirst.comments

theorem TreatsAll.readComments (run : List Token) (r : Recorder)
    (previous : Option Token) (hr : r.isDeclaring = true) :
    r.TreatsAll previous run (r.readComments previous run) := by
  induction run generalizing r previous with
  | nil => exact .nil r previous
  | cons t ts ih =>
      have hfirst := Treats.readComment r previous t hr
      exact .cons hfirst (ih _ _ (hfirst.isDeclaring.trans hr))

theorem TreatsAll.foldl_readInBody (run : List Token) (r : Recorder)
    (previous : Option Token) (hr : r.isDeclaring = false) :
    r.TreatsAll previous run (run.foldl Recorder.readInBody r) := by
  induction run generalizing r previous with
  | nil => exact .nil r previous
  | cons t ts ih =>
      have hfirst := Treats.readInBody r previous t hr
      exact .cons hfirst (ih _ _ (hfirst.isDeclaring.trans hr))

theorem TreatsAll.flush {r : Recorder} {offset : Nat} {run : List Token}
    (hrun : r.comments.lookup offset = some run) :
    TreatsAll { r with comments := r.comments.filter (·.1 != offset) } none run
      (r.flush offset) := by
  unfold Recorder.flush
  rw [hrun]
  dsimp only
  split
  next hr => exact .readComments run _ none hr
  next hr => exact .foldl_readInBody run _ none (eq_false_of_ne_true hr)

theorem comments_flush (r : Recorder) (offset : Nat) :
    (r.flush offset).comments = r.comments.filter (·.1 != offset) := by
  cases hrun : r.comments.lookup offset with
  | none =>
      have hother := List.lookup_eq_none_iff.1 hrun
      rw [List.filter_eq_self.2 fun run hmem => bne_comm.trans (hother run hmem)]
      unfold flush
      rw [hrun]
  | some run => exact (TreatsAll.flush hrun).comments

/-! ## Courses -/

theorem Leads.enterBody (r : Recorder) {item : Option ItemId} (line : Nat)
    (hitem : ∀ id, item = some id → id < r.catalog.declarations.items.size) :
    r.Leads (r.enterBody item line) := by
  rw [Passes.enterBody_eq]
  exact (Leads.beginBody r line hitem).trans (.enterScope _)

/-- What going through nodes comes down to. -/
inductive Course (sound : Prop) : Recorder → Recorder → Prop
  | aside {r r' : Recorder} : r.Aside r' → (sound → r.Leads r') → Course sound r r'
  | trans {r r' r'' : Recorder} :
      Course sound r r' → Course sound r' r'' → Course sound r r''
  | flush {r : Recorder} (offset : Nat) :
      (sound → r.Ready) → Course sound r (r.flush offset)
  | declare {r : Recorder} {item : Item} :
      (sound → r.Ready) → (sound → r.catalog.declarations.Accepts item) →
      Course sound r (r.declare item).2
  | discard (r : Recorder) : Course sound r r.discard
  | note (r : Recorder) (notice : Notice) :
      Course sound r (r.mapCatalog (·.note notice))
  | warn (r : Recorder) (pos : Pos) (what : Warning) :
      Course sound r (r.warn pos what)
  | scope {r r' : Recorder} :
      Course sound r.enterScope r' → Course sound r r'.leaveScope

namespace Course

variable {sound : Prop} {r r' : Recorder}

theorem refl (r : Recorder) : Course sound r r :=
  .aside ⟨rfl, rfl, rfl, rfl, rfl⟩ fun _ => .refl r

theorem leads (h : Course sound r r') (hsound : sound) : r.Leads r' := by
  induction h with
  | aside _ hleads => exact hleads hsound
  | trans _ _ ih ih' => exact ih.trans ih'
  | flush offset _ => exact .flush _ offset
  | declare _ hitem => exact .declare _ (hitem hsound)
  | discard r => exact .discard r
  | note r notice => exact .mapCatalog (.note _ _)
  | warn r pos what => exact .warn r pos what
  | scope _ ih => exact (Leads.enterScope _).trans (ih.trans (.leaveScope _))

section

variable (h : Course sound r r') (hr : sound → r.Ready)

include h hr

theorem reaches (hsound : sound) : r.catalog.Reaches r'.catalog :=
  (h.leads hsound (hr hsound)).1

theorem ready (hsound : sound) : r'.Ready := (h.leads hsound (hr hsound)).2

end

theorem forget (r : Recorder) : Course sound r { r with last := none } :=
  .aside (.withLast r none) fun _ => .forget r

theorem body {item : Option ItemId} {line : Nat} (hr : sound → r.Ready)
    (hitem : sound → ∀ id, item = some id → id < r.catalog.declarations.items.size)
    (h : Course sound (r.enterBody item line) r') :
    Course sound r (r'.leaveBody r) := by
  have hreaches (hsound : sound) : r.catalog.Reaches r'.leaveScope.catalog :=
    (((Leads.enterBody r line (hitem hsound)).trans (h.leads hsound)).trans
      (.leaveScope r') (hr hsound)).1
  rw [Passes.enterBody_eq] at h
  refine .trans (.aside ?_ fun hsound => .beginBody r line (hitem hsound))
    (h.scope.trans (.aside ?_ ?_))
  · exact ⟨rfl, rfl, rfl, rfl, rfl⟩
  · exact ⟨rfl, rfl, rfl, rfl, rfl⟩
  intro hsound hready
  have hle := (hreaches hsound).size_le
  refine ⟨.refl _, hready.reader, hready.locals, ?_, ?_⟩
  · exact fun id hid => Nat.lt_of_lt_of_le ((hr hsound).last id hid) hle
  · exact fun id hid => Nat.lt_of_lt_of_le ((hr hsound).header id hid) hle

end Course

/-! ## Declarations -/

/-- The comments to come stay, and so do the tables, except for their
entries. -/
structure Stays (r r' : Recorder) : Prop where
  comments : r'.comments = r.comments
  tables : r'.catalog.declarations.tables.size = r.catalog.declarations.tables.size

namespace Stays

variable {r r' r'' : Recorder}

theorem refl (r : Recorder) : r.Stays r := ⟨rfl, rfl⟩

theorem trans (h : r.Stays r') (h' : r'.Stays r'') : r.Stays r'' :=
  ⟨h'.comments.trans h.comments, h'.tables.trans h.tables⟩

theorem declare (r : Recorder) (item : Item) : r.Stays (r.declare item).2 := by
  refine ⟨rfl, ?_⟩
  rw [r.declarations_declare]
  unfold Declarations.add Declarations.addField
  cases item.table? <;> simp

theorem setInit (r : Recorder) (id : Option ItemId) (init : Value)
    (table : Option TableId) : r.Stays (r.setInit id init table) := by
  cases id <;> exact ⟨rfl, rfl⟩

theorem setInits (ids : List (Option ItemId)) (r : Recorder)
    (inits : List Value) (tables : List (Option TableId)) :
    r.Stays (r.setInits ids inits tables) := by
  induction ids generalizing r inits tables with
  | nil => exact .refl r
  | cons id ids ih =>
      cases inits with
      | nil => exact .refl r
      | cons init inits => exact (setInit r id init _).trans (ih _ _ _)

theorem finish (r : Recorder) (ids : List (Option ItemId))
    (inits : Option (List Value)) (tables : List (Option TableId)) :
    r.Stays ((inits.map fun inits =>
      { r.setInits ids inits tables with last := ids.getLast?.join }).getD r) := by
  cases inits with
  | none => exact .refl r
  | some inits => exact (setInits ids r inits tables).trans ⟨rfl, rfl⟩

theorem finishStatement (r : Recorder) (id : Option ItemId) (pos : Pos) :
    r.Stays (r.finishStatement id pos) := by
  cases id <;> exact ⟨rfl, rfl⟩

end Stays

/-- On its course a recorder finds items. -/
structure Finds (sound : Prop) (r : Recorder) (ids : List (Option ItemId))
    (r' : Recorder) : Prop where
  course : Course sound r r'
  stays : r.Stays r'
  bound : sound → ∀ id, some id ∈ ids → id < r'.catalog.declarations.items.size

namespace Finds

variable {sound : Prop} {r r' r'' : Recorder}

theorem nil (r : Recorder) : Finds sound r [] r := ⟨.refl r, .refl r, by simp⟩

theorem of_course (h : Course sound r r') (hstays : r.Stays r') :
    Finds sound r [none] r' := ⟨h, hstays, by simp⟩

theorem none (r : Recorder) : Finds sound r [.none] r :=
  of_course (.refl r) (.refl r)

variable (hr : sound → r.Ready)

include hr

theorem cons {id : Option ItemId} {ids : List (Option ItemId)}
    (h : Finds sound r [id] r') (h' : Finds sound r' ids r'') :
    Finds sound r (id :: ids) r'' where
  course := h.course.trans h'.course
  stays := h.stays.trans h'.stays
  bound hsound other hother := by
    rcases List.mem_cons.1 hother with hfirst | hrest
    · have hle := (h'.course.reaches (h.course.ready hr) hsound).size_le
      exact Nat.lt_of_lt_of_le (h.bound hsound other (by simp [hfirst])) hle
    · exact h'.bound hsound other hrest

theorem declare {item : Item}
    (hitem : sound → r.catalog.declarations.Accepts item) :
    Finds sound r [some (r.declare item).1] (r.declare item).2 := by
  refine ⟨.declare hr hitem, .declare r item, ?_⟩
  intro hsound id hid
  obtain rfl : id = (r.declare item).1 := by simpa using hid
  exact r.fst_declare_lt item

theorem declareVariable (ident : Ident) (isLocal : Bool) :
    Finds sound r [some (r.declareVariable ident isLocal).1]
      (r.declareVariable ident isLocal).2 :=
  .declare hr fun _ => ⟨by simp [Item.table?], rfl⟩

theorem declareFunction (head : FunctionHead) (isLocal : Bool) :
    Finds sound r [some (r.declareFunction head isLocal).1]
      (r.declareFunction head isLocal).2 :=
  .declare hr fun _ => ⟨by simp [Item.table?], rfl⟩

theorem declareField {table : TableId} (ident : Ident) {init : Value}
    (index : Value)
    (htable : sound → (r.catalog.declarations.table? table).isSome)
    (hinit : init.table? = .none) :
    Finds sound r [some (r.declareField table ident init index).1]
      (r.declareField table ident init index).2 := by
  refine .declare hr fun hsound => ⟨?_, hinit⟩
  intro id hid
  obtain rfl : table = id := by simpa [Item.table?] using hid
  exact htable hsound

omit hr in
theorem addLocal {id : ItemId} (name : Bytes) (h : Finds sound r [some id] r') :
    Finds sound r [some id] (r'.addLocal name id) := by
  have hid (hsound : sound) := h.bound hsound id (by simp)
  exact ⟨h.course.trans (.aside (.addLocal r' name id) fun hsound =>
    .addLocal r' name (hid hsound)),
    h.stays.trans ⟨rfl, rfl⟩, h.bound⟩

theorem declareLocals (names : List Ident) :
    Finds sound r (r.declareLocals names).1 (r.declareLocals names).2 := by
  induction names generalizing r with
  | nil => exact .nil r
  | cons ident idents ih =>
      unfold Recorder.declareLocals
      split
      · have hfirst := addLocal ident.name (declareVariable hr ident true)
        exact hfirst.cons hr (ih (hfirst.course.ready hr))
      · exact (Finds.none r).cons hr (ih hr)

omit hr in
theorem resolveTable_isSome (hr : r.Ready) {path : List Bytes} {table : TableId}
    (h : r.resolveTable path = some table) :
    (r.catalog.declarations.table? table).isSome := by
  unfold Recorder.resolveTable at h
  split at h
  · simp at h
  · obtain ⟨id, -, hid⟩ := Option.bind_eq_some_iff.1 h
    exact hr.reader.catalog.declarations.tableOf_isSome hid

theorem declareTarget (target : Target) :
    Finds sound r [(r.declareTarget target).1] (r.declareTarget target).2 := by
  unfold Recorder.declareTarget
  split
  · exact .none r
  · split
    · exact .none r
    · exact declareVariable hr _ _
    · split
      next table htable =>
        exact declareField hr _ _ (fun hsound =>
          resolveTable_isSome (hr hsound) htable) rfl
      next => exact of_course (.note r _) ⟨rfl, rfl⟩

theorem declareTargets (targets : List Target) :
    Finds sound r (r.declareTargets targets).1 (r.declareTargets targets).2 := by
  induction targets generalizing r with
  | nil => exact .nil r
  | cons target targets ih =>
      have hfirst := declareTarget hr target
      exact hfirst.cons hr (ih (hfirst.course.ready hr))

theorem declareStatement (head : FunctionHead) :
    Finds sound r [(r.declareStatement head).1] (r.declareStatement head).2 := by
  unfold Recorder.declareStatement
  split
  · split
    · exact addLocal _ (declareFunction hr head true)
    · exact .none r
  · split
    · exact .none r
    · split
      · exact declareFunction hr head _
      · exact declareFunction hr head _
      · split
        next table htable =>
          exact declareField hr _ _ (fun hsound =>
            resolveTable_isSome (hr hsound) htable) rfl
        next => exact of_course ((Course.warn r _ _).trans (.discard _)) ⟨rfl, rfl⟩

theorem declareEntry {table : Option TableId} (head : FieldHead)
    (htable : sound → ∀ id, table = some id →
      (r.catalog.declarations.table? id).isSome) :
    Finds sound r [(r.declareEntry table head).1]
      (r.declareEntry table head).2 := by
  unfold Recorder.declareEntry
  split
  next id => exact declareField hr _ _ (fun hsound => htable hsound id rfl) rfl
  next => exact .none r

end Finds

/-! ## Initializers -/

/-- The tables in a list belong to the items at the same places of another
list. -/
def OwnedBy (c : Catalog) (ids : List (Option ItemId))
    (tables : List (Option TableId)) : Prop :=
  ∀ (k : Nat) (table : TableId), tables[k]?.join = some table →
    ∃ id, ids[k]?.join = some id ∧ c.Owns id table

namespace Course

variable {sound : Prop}

theorem setInits (ids : List (Option ItemId)) {r : Recorder}
    (hr : sound → r.Ready) (inits : List Value) (tables : List (Option TableId))
    (howned : sound → OwnedBy r.catalog ids tables) :
    Course sound r (r.setInits ids inits tables) := by
  induction ids generalizing r inits tables with
  | nil => exact .refl r
  | cons id ids ih =>
      cases inits with
      | nil => exact .refl r
      | cons init inits =>
          have hfirst : Course sound r (r.setInit id init tables.head?.join) := by
            refine .aside (.setInit r id init _) fun hsound =>
              .setInit r id init _ ?_
            intro item t hitem ht
            rw [List.head?_eq_getElem?] at ht
            obtain ⟨other, hother, howns⟩ := howned hsound 0 t ht
            obtain rfl : item = other := by simpa [hitem] using hother
            exact howns
          refine hfirst.trans (ih (hfirst.ready hr) _ _ fun hsound => ?_)
          intro k t ht
          rw [List.getElem?_tail] at ht
          obtain ⟨other, hother, howns⟩ := howned hsound (k + 1) t ht
          exact ⟨other, by simpa using hother,
            (hfirst.reaches hr hsound).owns howns⟩

theorem finish {r : Recorder} (hr : sound → r.Ready)
    {ids : List (Option ItemId)} (inits : Option (List Value))
    {tables : List (Option TableId)}
    (hids : sound → ∀ id, some id ∈ ids → id < r.catalog.declarations.items.size)
    (howned : sound → OwnedBy r.catalog ids tables) :
    Course sound r
      ((inits.map fun inits =>
        { r.setInits ids inits tables with last := ids.getLast?.join }).getD
          r) := by
  cases inits with
  | none => exact .refl r
  | some inits =>
      have hset := setInits ids hr inits tables howned
      refine hset.trans (.aside (.withLast _ _) fun hsound => ?_)
      refine .of_reader (.refl _) (fun _ => .inl) (fun id hid => .inr ?_)
        fun _ => .inl
      have hlt :=
        hids hsound id (List.mem_of_getLast? (Option.join_eq_some_iff.1 hid))
      exact Nat.lt_of_lt_of_le hlt (hset.reaches hr hsound).size_le

end Course

/-! ## The walk -/

/-- On its course a recorder builds a table at most for the owner. -/
structure Builds (sound : Prop) (r : Recorder) (owner : Option ItemId)
    (built : Option TableId) (r' : Recorder) : Prop where
  course : Course sound r r'
  owns : sound → ∀ table, built = some table → ∃ id, owner = some id ∧
    r'.catalog.Owns id table

namespace Builds

/-- The items and tables that a walk starts with. -/
structure Start (r : Recorder) (owner : Option ItemId) (table : Option TableId) :
    Prop where
  owner : ∀ id, owner = some id → id < r.catalog.declarations.items.size
  table : ∀ id, table = some id → (r.catalog.declarations.table? id).isSome

theorem Start.none (r : Recorder) : Start r .none .none := ⟨by simp, by simp⟩

theorem Start.owned {r : Recorder} {owner : Option ItemId}
    {table : Option TableId} (h : Start r owner table) (isOwned : Bool) :
    ∀ id, (if isOwned then owner else .none) = some id →
    id < r.catalog.declarations.items.size := by
  intro id hid
  split at hid
  · exact h.owner id hid
  · simp at hid

theorem Start.of_finds {sound : Prop} {r r' : Recorder} {id : Option ItemId}
    (h : Finds sound r [id] r') (hsound : sound) : Start r' id .none :=
  ⟨fun item hitem => h.bound hsound item (by simp [hitem]), by simp⟩

variable {sound : Prop} {r : Recorder}

theorem of_course {r' : Recorder} {owner : Option ItemId}
    (h : Course sound r r') : Builds sound r owner none r' :=
  ⟨h, by simp⟩

theorem newTable {owner : Option ItemId}
    (howner : sound → ∀ id, owner = some id →
      id < r.catalog.declarations.items.size) :
    Builds sound r owner (r.newTable owner).1 (r.newTable owner).2 := by
  refine ⟨.aside (.newTable r owner) fun hsound => .newTable r (howner hsound), ?_⟩
  intro _ table htable
  unfold Recorder.newTable at htable ⊢
  split at htable
  next item =>
    split at htable
    next hdeclaring =>
      obtain rfl := Option.some.inj htable
      refine ⟨item, rfl, ⟨some item, []⟩, ?_, rfl⟩
      simp only [hdeclaring, if_true]
      change (r.catalog.declarations.addTable (some item)).table?
        r.catalog.declarations.tables.size = _
      rw [Declarations.table?_addTable, if_pos rfl]
    next => simp at htable
  next => simp at htable

theorem statement {r' r'' : Recorder} {ids : List (Option ItemId)}
    {tables : List (Option TableId)} (hr : sound → r.Ready)
    (hfound : Finds sound r ids r')
    (hvalues : Course sound r' r'' ∧ (sound → OwnedBy r''.catalog ids tables))
    (inits : Option (List Value)) :
    Course sound r
      ((inits.map fun inits =>
        { r''.setInits ids inits tables with last := ids.getLast?.join }).getD
          r'') := by
  obtain ⟨hinner, howned⟩ := hvalues
  have hready := hfound.course.ready hr
  refine (hfound.course.trans hinner).trans
    (.finish (hinner.ready hready) inits ?_ howned)
  intro hsound id hid
  exact Nat.lt_of_lt_of_le (hfound.bound hsound id hid)
    (hinner.reaches hready hsound).size_le

mutual

theorem walk (node : Node) {r : Recorder} {owner : Option ItemId}
    {table : Option TableId} (hr : sound → r.Ready)
    (hstart : sound → Start r owner table) :
    Builds sound r owner (Recorder.walk owner table r node).1
      (Recorder.walk owner table r node).2 := by
  cases node with
  | comments offset =>
      rw [Recorder.walk]
      exact of_course (.flush offset hr)
  | tableComments offset =>
      rw [Recorder.walk]
      apply of_course
      split
      · exact .flush offset hr
      · exact .refl r
  | tableEnd =>
      rw [Recorder.walk]
      apply of_course
      split
      · exact .discard r
      · exact .refl r
  | discard =>
      rw [Recorder.walk]
      exact of_course (.discard r)
  | forget =>
      rw [Recorder.walk]
      exact of_course (.forget r)
  | statement inner =>
      rw [Recorder.walk]
      have hforget : Course sound r { r with last := none } := .forget r
      have hinner := walkAll inner (hforget.ready hr) fun _ => .none _
      exact of_course (hforget.trans (hinner.course.trans (.discard _)))
  | scope inner =>
      rw [Recorder.walk]
      have hinner :=
        walkAll inner (fun hsound => (Leads.enterScope r (hr hsound)).2)
          fun _ => .none _
      exact of_course (.scope hinner.course)
  | body owned line inner =>
      rw [Recorder.walk]
      have howner (hsound : sound) := (hstart hsound).owned owned
      have henter (hsound : sound) :=
        (Leads.enterBody r line (howner hsound) (hr hsound)).2
      exact of_course
        (.body hr howner (walkAll inner henter fun _ => .none _).course)
  | table owned inner =>
      rw [Recorder.walk]
      have hbuilt := newTable (r := r) fun hsound => (hstart hsound).owned owned
      have hready := hbuilt.course.ready hr
      have hinner (hsound : sound) :
          Start (r.newTable (if owned then owner else .none)).2 .none
          (r.newTable (if owned then owner else .none)).1 := by
        refine ⟨by simp, ?_⟩
        intro id hid
        obtain ⟨item, -, howns⟩ := hbuilt.owns hsound id hid
        exact howns.isSome
      have hwalk := (walkAll inner hready hinner).course
      refine ⟨hbuilt.course.trans hwalk, ?_⟩
      intro hsound id hid
      obtain ⟨item, hitem, howns⟩ := hbuilt.owns hsound id hid
      refine ⟨item, ?_, (hwalk.reaches hready hsound).owns howns⟩
      split at hitem
      · exact hitem
      · simp at hitem
  | value inner =>
      rw [Recorder.walk]
      exact walkAll inner hr fun hsound => ⟨(hstart hsound).owner, by simp⟩
  | entry head inner init =>
      rw [Recorder.walk]
      have hfound := Finds.declareEntry hr head fun hsound => (hstart hsound).table
      have hready := hfound.course.ready hr
      have hinner := walkAll inner hready (.of_finds hfound)
      apply of_course
      refine (hfound.course.trans hinner.course).trans ?_
      cases init with
      | none => exact .refl _
      | some init =>
          refine .aside (.setInit _ _ init _) fun hsound => .setInit _ _ init _ ?_
          intro item t hitem ht
          obtain ⟨other, hother, howns⟩ := hinner.owns hsound t ht
          obtain rfl : item = other := Option.some.inj (hitem.symm.trans hother)
          exact howns
  | locals names inner inits =>
      rw [Recorder.walk]
      have hfound := Finds.declareLocals hr names
      exact of_course
        (statement hr hfound
          (walkValues inner (hfound.course.ready hr) hfound.bound) inits)
  | assign targets inner inits =>
      rw [Recorder.walk]
      have hfound := Finds.declareTargets hr targets
      exact of_course
        (statement hr hfound
          (walkValues inner (hfound.course.ready hr) hfound.bound) inits)
  | function head inner stop =>
      rw [Recorder.walk]
      have hfound := Finds.declareStatement hr head
      have hready := hfound.course.ready hr
      have hinner := (walkAll inner hready (.of_finds hfound)).course
      apply of_course
      refine (hfound.course.trans hinner).trans ?_
      cases stop with
      | none => exact .refl _
      | some stop =>
          refine .aside (.finishStatement _ _ stop) fun hsound =>
            .finishStatement _ stop ?_
          intro item hitem
          have hle := (hinner.reaches hready hsound).size_le
          exact Nat.lt_of_lt_of_le (hfound.bound hsound item (by simp [hitem])) hle

theorem walkAll (nodes : List Node) {r : Recorder} {owner : Option ItemId}
    {table : Option TableId} (hr : sound → r.Ready)
    (hstart : sound → Start r owner table) :
    Builds sound r owner (Recorder.walkAll owner table r nodes).1
      (Recorder.walkAll owner table r nodes).2 := by
  cases nodes with
  | nil =>
      rw [Recorder.walkAll]
      exact of_course (.refl r)
  | cons node nodes =>
      rw [Recorder.walkAll]
      have hfirst := walk node hr hstart
      have hready := hfirst.course.ready hr
      have hrest (hsound : sound) :
          Start (Recorder.walk owner table r node).2 owner table := by
        have hreaches := hfirst.course.reaches hr hsound
        constructor
        · exact fun id hid =>
            Nat.lt_of_lt_of_le ((hstart hsound).owner id hid) hreaches.size_le
        · exact fun id hid => hreaches.table_isSome ((hstart hsound).table id hid)
      have hmore := walkAll nodes hready hrest
      refine ⟨hfirst.course.trans hmore.course, ?_⟩
      intro hsound t ht
      rcases Option.or_eq_some_iff.1 ht with hbuilt | ⟨-, hlater⟩
      · obtain ⟨id, hid, howns⟩ := hfirst.owns hsound t hbuilt
        exact ⟨id, hid, (hmore.course.reaches hready hsound).owns howns⟩
      · exact hmore.owns hsound t hlater

theorem walkValues (nodes : List Node) {r : Recorder}
    {ids : List (Option ItemId)} (hr : sound → r.Ready)
    (hids : sound → ∀ id, some id ∈ ids → id < r.catalog.declarations.items.size) :
    Course sound r (Recorder.walkValues ids r nodes).2 ∧
      (sound → OwnedBy (Recorder.walkValues ids r nodes).2.catalog ids
        (Recorder.walkValues ids r nodes).1) := by
  cases nodes with
  | nil =>
      rw [Recorder.walkValues]
      exact ⟨.refl r, by simp [OwnedBy]⟩
  | cons node nodes =>
      rw [Recorder.walkValues]
      have hstart (hsound : sound) : Start r ids.head?.join .none :=
        ⟨fun id hid =>
          hids hsound id
            (List.mem_of_head? (Option.join_eq_some_iff.1 hid)), by simp⟩
      have hfirst := walk node hr hstart
      have hready := hfirst.course.ready hr
      have hrest (hsound : sound) : ∀ id, some id ∈ ids.tail →
          id < (Recorder.walk ids.head?.join .none r
            node).2.catalog.declarations.items.size := fun id hid =>
        Nat.lt_of_lt_of_le (hids hsound id (List.mem_of_mem_tail hid))
          (hfirst.course.reaches hr hsound).size_le
      obtain ⟨hmore, howned⟩ := walkValues nodes hready hrest
      refine ⟨hfirst.course.trans hmore, ?_⟩
      intro hsound k t ht
      cases k with
      | zero =>
          obtain ⟨id, hid, howns⟩ := hfirst.owns hsound t (by simpa using ht)
          rw [List.head?_eq_getElem?] at hid
          exact ⟨id, hid, (hmore.reaches hready hsound).owns howns⟩
      | succ k =>
          obtain ⟨id, hid, howns⟩ := howned hsound k t (by simpa using ht)
          exact ⟨id, by rw [← List.getElem?_tail]; exact hid, howns⟩

end

end Builds

theorem Course.record {sound : Prop} {r : Recorder} (hr : sound → r.Ready)
    (outline : Outline) : Course sound r (r.record outline) :=
  (Builds.walkAll outline.nodes hr fun _ => .none r).course

end Recorder

/-! ## Sources -/

namespace Catalog

theorem reaches_recordSource {c : Catalog} (hc : c.Consistent)
    (file source : Bytes) (tokens : List Token) (outline : Outline) :
    c.Reaches (Recorder.recordSource c file source tokens outline).catalog := by
  have hready := Recorder.Ready.start hc file source tokens
  have hcourse : Recorder.Course True _ _ := .record (fun _ => hready) outline
  obtain ⟨hreaches, hrecorded⟩ := hcourse.leads trivial hready
  unfold Recorder.recordSource
  dsimp only
  split
  · obtain ⟨hleft, -⟩ := Recorder.Leads.leaveFile _ hrecorded
    exact hreaches.trans hleft
  · exact hreaches

/-- Reading a source changes the catalog in steps, whether the source has an
error or not. -/
theorem reaches_readSource {c : Catalog} (hc : c.Consistent)
    (file source : Bytes) : c.Reaches (c.readSource file source).2 := by
  have hsource := Step.source c ⟨file, source⟩
  have hrecorded (tokens : List Token) (outline : Outline) :=
    (Reaches.single hsource).trans
      (reaches_recordSource (hsource.consistent hc) file source tokens outline)
  unfold readSource
  dsimp only
  split
  · exact .single hsource
  · split
    · exact hrecorded _ _
    · exact (hrecorded _ _).tail (.note _ _)

end Catalog

end LuaGloss
