import LuaGloss.Proofs.Source.Events
import LuaGloss.Proofs.Source.Handling
import LuaGloss.Proofs.Syntax.Arrangement
import LuaGloss.Proofs.Token.Tiling
import Mathlib.Data.List.Flatten

/-!
# Every comment arrives

While a source is recorded, each of its comments is handed over at most once,
and in the order of the source.  If the source has no syntax error, then each
comment directly before a statement or the end of a block is handed over, and so
is each comment before an entry or the closing brace of a table constructor, if
a table has been built from it.

A table is built when its constructor begins, before the initializer that the
constructor belongs to is known.  It waits for that initializer, and is settled
when its owner has got it.
-/

namespace LuaGloss

open LuaGloss.Node

/-! ## Tables that an initializer builds -/

namespace Node

mutual

/-- The insides of the table constructors from which tables are built for the
owner of the expression. -/
def builds : Node → List (List Node)
  | table true inner => [inner]
  | value inner => buildsAll inner
  | _ => []

def buildsAll : List Node → List (List Node)
  | [] => []
  | node :: nodes => node.builds ++ buildsAll nodes

end

mutual

theorem IsFree.builds_eq_nil : (node : Node) → node.IsFree → node.builds = []
  | table owned _, h => by
      obtain rfl : owned = false := h
      rfl
  | value inner, h => AreFree.buildsAll_eq_nil inner h
  | comments _, _ | tableComments _, _ | tableEnd, _ | discard, _ | forget, _
  | statement _, _ | scope _, _
  | body _ _ _, _ | entry _ _ _, _ | locals _ _ _, _ | assign _ _ _, _
  | function _ _ _, _ => rfl

theorem AreFree.buildsAll_eq_nil :
    (nodes : List Node) → AreFree nodes → buildsAll nodes = []
  | [], _ => rfl
  | node :: nodes, h => by
      rw [buildsAll, IsFree.builds_eq_nil node h.1,
        AreFree.buildsAll_eq_nil nodes h.2, List.nil_append]

end

variable {opens : Value → List Node → Prop}

theorem Fits.opens_of_mem {v : Value} {nodes : List Node}
    (h : Fits opens v nodes) : ∀ inner ∈ buildsAll nodes, opens v inner := by
  cases h with
  | free hfree => simp [AreFree.buildsAll_eq_nil _ hfree]
  | table hopens hmore =>
      simpa [buildsAll, builds, AreFree.buildsAll_eq_nil _ hmore] using hopens

theorem FitAll.opens_of_mem {vs : List Value} {nodes : List Node}
    (h : FitAll opens vs nodes) (ids : List (Option ItemId)) :
    ∀ pair ∈ ids.zip (nodes.map builds), ∃ v, (pair.1, v) ∈ ids.zip vs ∧
    ∀ inner ∈ pair.2, opens v inner := by
  induction h generalizing ids with
  | nil => simp
  | @cons v vs inner nodes hfits _ ih =>
      intro pair hmem
      cases ids with
      | nil => simp at hmem
      | cons id ids =>
          rcases List.mem_cons.1 hmem with rfl | hrest
          · exact ⟨v, List.mem_cons_self, hfits.opens_of_mem⟩
          · obtain ⟨v', hv', hopens⟩ := ih ids pair hrest
            exact ⟨v', List.mem_cons_of_mem _ hv', hopens⟩

end Node

theorem Catalog.Owns.unfolds {c c' : Catalog} {item : ItemId} {table : TableId}
    (h : c.Owns item table) (hunfolds : c.declarations.Unfolds c'.declarations) :
    c'.Owns item table := by
  unfold Catalog.Owns at h ⊢
  generalize c.declarations = d at h hunfolds
  generalize c'.declarations = d' at hunfolds
  induction hunfolds with
  | refl => exact h
  | tail _ hevent ih =>
      obtain ⟨t, ht, howner⟩ := ih
      cases hevent with
      | source _ => exact ⟨t, ht, howner⟩
      | table owner =>
          refine ⟨t, ?_, howner⟩
          rw [Declarations.table?_addTable,
            if_neg (Nat.ne_of_lt (Declarations.lt_size_of_table? ht))]
          exact ht
      | declare _ =>
          rw [Declarations.table?_add, ht]
          split
          · exact ⟨_, rfl, howner⟩
          · exact ⟨t, rfl, howner⟩
      | init _ _ _ => exact ⟨t, ht, howner⟩
      | extend _ _ => exact ⟨t, ht, howner⟩

namespace Recorder

variable {opens : Value → List Node → Prop} {r r' r'' : Recorder} {n : Nat}
  {table : TableId}

theorem Delivered.mono {offsets : List Nat} (h : r.Delivered offsets)
    (hcomments : r'.comments.Sublist r.comments) : r'.Delivered offsets :=
  fun offset hoffset =>
    CommentRuns.lookup_eq_none_of_sublist hcomments (h offset hoffset)

/-- A table whose owner is one of the items from the `n`-th on and has got its
initializer, which `opens` with a table constructor: no comments are left
between the entries. -/
def Settled (opens : Value → List Node → Prop) (n : Nat) (r : Recorder)
    (table : TableId) : Prop :=
  ∃ owner item v inner, n ≤ owner ∧ r.catalog.Owns owner table ∧
    r.catalog.item? owner = some item ∧
    item.init?.map (·.start) = some v.start ∧ opens v inner ∧
    r.Delivered (entryStops inner)

/-- A table that has been built for the owner from one of the given insides: no
comments are left between the entries. -/
def Waits (owner : Option ItemId) (insides : List (List Node)) (r : Recorder)
    (table : TableId) : Prop :=
  ∃ item inner, owner = some item ∧ inner ∈ insides ∧
    r.catalog.Owns item table ∧ r.Delivered (entryStops inner)

theorem Settled.mono {m : Nat} (h : Settled opens n r table) (hle : m ≤ n) :
    Settled opens m r table := by
  obtain ⟨owner, item, v, inner, hn, hsettled⟩ := h
  exact ⟨owner, item, v, inner, Nat.le_trans hle hn, hsettled⟩

theorem Settled.kept (h : Settled opens n r table)
    (hunfolds : r.catalog.declarations.Unfolds r'.catalog.declarations)
    (hcomments : r'.comments.Sublist r.comments)
    (hitems : ∀ id, n ≤ id → id < r.count →
      r'.catalog.item? id = r.catalog.item? id) :
    Settled opens n r' table := by
  obtain ⟨owner, item, v, inner, hn, howns, hitem, hinit, hopens, hdelivered⟩ := h
  refine ⟨owner, item, v, inner, hn, howns.unfolds hunfolds, ?_, hinit, hopens,
    hdelivered.mono hcomments⟩
  rw [hitems owner hn (Declarations.lt_size_of_item? hitem)]
  exact hitem

theorem Waits.kept {owner : Option ItemId} {insides : List (List Node)}
    (h : Waits owner insides r table)
    (hunfolds : r.catalog.declarations.Unfolds r'.catalog.declarations)
    (hcomments : r'.comments.Sublist r.comments) :
    Waits owner insides r' table := by
  obtain ⟨item, inner, howner, hinner, howns, hdelivered⟩ := h
  exact ⟨item, inner, howner, hinner, howns.unfolds hunfolds,
    hdelivered.mono hcomments⟩

theorem Waits.subset {owner : Option ItemId} {insides more : List (List Node)}
    (h : Waits owner insides r table) (hsub : insides ⊆ more) :
    Waits owner more r table := by
  obtain ⟨item, inner, howner, hinner, hwaits⟩ := h
  exact ⟨item, inner, howner, hsub hinner, hwaits⟩

@[simp] theorem not_waits_none {insides : List (List Node)} :
    ¬Waits none insides r table := by
  rintro ⟨_, _, howner, -⟩
  simp at howner

@[simp] theorem not_waits_nil {owner : Option ItemId} :
    ¬Waits owner [] r table := by
  rintro ⟨_, _, -, hinner, -⟩
  simp at hinner

/-! ## Initializers -/

theorem item?_setInits_of_notMem {ids : List (Option ItemId)} {other : ItemId}
    (h : some other ∉ ids) (r : Recorder) (inits : List Value)
    (tables : List (Option TableId)) :
    (r.setInits ids inits tables).catalog.item? other = r.catalog.item? other := by
  induction ids generalizing r inits tables with
  | nil => rfl
  | cons id ids ih =>
      obtain ⟨hfirst, hrest⟩ := not_or.1 (mt List.mem_cons.2 h)
      cases inits with
      | nil => rfl
      | cons init inits =>
          unfold Recorder.setInits
          rw [ih hrest, item?_setInit_of_ne r (Ne.symm hfirst)]

theorem start_withTable (v : Value) (table : Option TableId) :
    (v.withTable table).start = v.start := by
  unfold Value.withTable
  split <;> rfl

theorem init_setInits {ids : List (Option ItemId)} (r : Recorder)
    (hblank : ∀ id, some id ∈ ids → r.IsBlank id)
    (hdistinct : ids.Pairwise fun a b => ∀ id, a = some id → b ≠ some id)
    (inits : List Value) (tables : List (Option TableId)) {id : ItemId}
    {v : Value} (hmem : (some id, v) ∈ ids.zip inits) :
    ∃ item, (r.setInits ids inits tables).catalog.item? id = some item ∧
    item.init?.map (·.start) = some v.start := by
  induction ids generalizing r inits tables with
  | nil => simp at hmem
  | cons first ids ih =>
      cases inits with
      | nil => simp at hmem
      | cons init inits =>
          obtain ⟨hfirst, hrest⟩ := List.pairwise_cons.1 hdistinct
          unfold Recorder.setInits
          rcases List.mem_cons.1 hmem with heq | hmore
          · obtain ⟨rfl, rfl⟩ := Prod.mk.inj heq
            obtain ⟨blank, hitem, hinit⟩ := hblank id List.mem_cons_self
            refine ⟨blank.withInit (v.withTable tables.head?.join), ?_, ?_⟩
            · rw [item?_setInits_of_notMem fun hlater =>
                hfirst _ hlater id rfl rfl]
              change (r.catalog.declarations.modifyItem id _).item? id = _
              rw [Declarations.item?_modifyItem, if_pos rfl]
              exact congrArg (Option.map _) hitem
            · unfold Item.withInit
              cases hshape : blank.shape <;> simp_all [Item.init?, start_withTable]
          · apply ih _ ?_ hrest _ _ hmore
            intro other hother
            have hne : first ≠ some other :=
              fun heq => hfirst (some other) hother other heq rfl
            unfold IsBlank
            rw [item?_setInit_of_ne r hne]
            exact hblank other (List.mem_cons_of_mem _ hother)

section

variable {ids : List (Option ItemId)} (hids : r.Declares ids r')
  (hread : Unfolds r'.count r' r'') (inits : List Value)
  (tables : List (Option TableId))

include hids hread

theorem unfolds_setInits : Unfolds r.count r'' (r''.setInits ids inits tables) :=
  .setInits r'' hids.isNew (fun id hid => hread.isBlank (hids.isBlank id hid))
    hids.distinct inits tables

theorem Settled.setInits (h : Settled opens r'.count r'' table) :
    Settled opens r.count (r''.setInits ids inits tables) table := by
  refine (h.kept (unfolds_setInits hids hread inits tables).declarations ?_
    ?_).mono hids.unfolds.count_le
  · rw [(Stays.setInits ids r'' inits tables).comments]
  · intro id hid _
    refine item?_setInits_of_notMem (fun hmem => ?_) r'' inits tables
    exact Nat.not_lt_of_le hid (hids.isBlank id hmem).lt_count

theorem Waits.setInits {id : Option ItemId} {insides : List (List Node)}
    (h : Waits id insides r'' table) {v : Value}
    (hmem : (id, v) ∈ ids.zip inits) (hopens : ∀ inner ∈ insides, opens v inner) :
    Settled opens r.count (r''.setInits ids inits tables) table := by
  obtain ⟨owner, inner, rfl, hinner, howns, hdelivered⟩ := h
  have hblank (id : ItemId) (hid : some id ∈ ids) : r''.IsBlank id :=
    hread.isBlank (hids.isBlank id hid)
  obtain ⟨item, hitem, hinit⟩ :=
    init_setInits r'' hblank hids.distinct inits tables hmem
  refine ⟨owner, item, v, inner, hids.isNew owner (List.of_mem_zip hmem).1, ?_,
    hitem, hinit, hopens inner hinner, ?_⟩
  · exact howns.unfolds (unfolds_setInits hids hread inits tables).declarations
  · refine hdelivered.mono ?_
    rw [(Stays.setInits ids r'' inits tables).comments]

end

/-! ## The walk -/

def Accounts (opens : Value → List Node → Prop) (r : Recorder)
    (waits : TableId → Prop) (r' : Recorder) : Prop :=
  ∀ table, r.catalog.declarations.tables.size ≤ table →
    table < r'.catalog.declarations.tables.size →
    Settled opens r.count r' table ∨ waits table

namespace Accounts

variable {waits waits' : TableId → Prop}

theorem of_tables (h : r'.catalog.declarations.tables.size =
      r.catalog.declarations.tables.size) :
    Accounts opens r waits r' := by
  intro table hlow hhigh
  omega

theorem around {before after : Recorder} (h : Accounts opens r waits r')
    (hbefore : r.catalog.declarations.tables.size =
      before.catalog.declarations.tables.size)
    (hafter : after.catalog.declarations.tables.size =
      r'.catalog.declarations.tables.size)
    (hsettled : ∀ table, Settled opens r.count r' table →
      Settled opens before.count after table)
    (hwaits : ∀ table, waits table → Settled opens before.count after table ∨
      waits' table) :
    Accounts opens before waits' after := by
  intro table hlow hhigh
  rcases h table (hbefore ▸ hlow) (hafter ▸ hhigh) with hdone | hlater
  · exact .inl (hsettled table hdone)
  · exact hwaits table hlater

theorem trans (h : Accounts opens r waits r')
    (h' : Accounts opens r' waits' r'') (hread : Unfolds r.count r r')
    (hmore : Unfolds r'.count r' r'')
    (hcomments : r''.comments.Sublist r'.comments) {waits'' : TableId → Prop}
    (hwaits : ∀ table, waits table → waits'' table)
    (hwaits' : ∀ table, waits' table → waits'' table) :
    Accounts opens r waits'' r'' := by
  intro table hlow hhigh
  by_cases hearly : table < r'.catalog.declarations.tables.size
  · rcases h table hlow hearly with hdone | hlater
    · exact .inl (hdone.kept hmore.declarations hcomments fun id _ hid =>
        hmore.kept id hid)
    · exact .inr (hwaits table hlater)
  · rcases h' table (Nat.le_of_not_lt hearly) hhigh with hdone | hlater
    · exact .inl (hdone.mono hread.count_le)
    · exact .inr (hwaits' table hlater)

theorem setInits {ids : List (Option ItemId)} {inits : List Value}
    {pairs : List (Option ItemId × List (List Node))}
    (h : Accounts opens r' (fun table =>
      ∃ pair ∈ pairs, Waits pair.1 pair.2 r'' table) r'')
    (hids : r.Declares ids r') (hread : Unfolds r'.count r' r'')
    (hfound : Finds False r ids r')
    (hinits : ∀ pair ∈ pairs, ∃ v, (pair.1, v) ∈ ids.zip inits ∧
      ∀ inner ∈ pair.2, opens v inner)
    (tables : List (Option TableId)) :
    Accounts opens r waits (r''.setInits ids inits tables) := by
  refine h.around hfound.stays.tables
    (Stays.setInits ids r'' inits tables).tables ?_ ?_
  · exact fun table hdone => hdone.setInits hids hread inits tables
  · rintro table ⟨pair, hpair, hwaits⟩
    obtain ⟨v, hmem, hopens⟩ := hinits pair hpair
    exact .inl (hwaits.setInits hids hread inits tables hmem hopens)

theorem setInit {id : Option ItemId} {v : Value} {insides : List (List Node)}
    (h : Accounts opens r' (Waits id insides r'') r'')
    (hids : r.Declares [id] r') (hread : Unfolds r'.count r' r'')
    (hfound : Finds False r [id] r') (hopens : ∀ inner ∈ insides, opens v inner)
    (table : Option TableId) :
    Accounts opens r waits (r''.setInit id v table) := by
  have hone :
      Accounts opens r' (fun table => ∃ pair ∈ [(id, insides)],
        Waits pair.1 pair.2 r'' table) r'' := by
    simpa using h
  change Accounts opens r waits (r''.setInits [id] [v] [table])
  exact hone.setInits hids hread hfound (by simpa using hopens) [table]

end Accounts

theorem newTable_cases (r : Recorder) (owner : Option ItemId) :
    r.newTable owner = (none, r) ∨
      ∃ item r', owner = some item ∧
        r.newTable owner = (some r.catalog.declarations.tables.size, r') ∧
        r'.catalog.declarations.tables.size =
          r.catalog.declarations.tables.size + 1 ∧ r'.count = r.count ∧
        r'.catalog.Owns item r.catalog.declarations.tables.size := by
  unfold Recorder.newTable
  split
  next item =>
    split
    · right
      refine ⟨item, _, rfl, rfl, Array.size_push _, rfl, ⟨some item, []⟩, ?_, rfl⟩
      change (r.catalog.declarations.addTable (some item)).table?
        r.catalog.declarations.tables.size = _
      rw [Declarations.table?_addTable, if_pos rfl]
    · exact .inl rfl
  next => exact .inl rfl

theorem declareStatement_lt_count (r : Recorder) (head : FunctionHead) :
    ∀ id, (r.declareStatement head).1 = some id →
    id < (r.declareStatement head).2.count := by
  have hdeclare (item : Item) : ∀ id, some (r.declare item).1 = some id →
      id < (r.declare item).2.count := by
    rintro _ ⟨⟩
    have hid : (r.declare item).1 = r.catalog.declarations.items.size :=
      r.reader.fst_declare item
    rw [hid, count, r.declarations_declare, Declarations.items_size_add]
    exact Nat.lt_succ_self _
  have hnone (r' : Recorder) : ∀ id, (none : Option ItemId) = some id →
      id < r'.count := by simp
  unfold Recorder.declareStatement
  split
  · split
    · exact hdeclare _
    · exact hnone r
  · split
    · exact hnone r
    · split
      · exact hdeclare _
      · exact hdeclare _
      · split
        · exact hdeclare _
        · exact hnone _

theorem item?_finishStatement_of_ne (r : Recorder) {id : Option ItemId}
    {other : ItemId} (h : id ≠ some other) (pos : Pos) :
    (r.finishStatement id pos).catalog.item? other = r.catalog.item? other := by
  cases id with
  | none => rfl
  | some id =>
      change (r.catalog.declarations.modifyItem id _).item? other =
        r.catalog.declarations.item? other
      rw [Declarations.item?_modifyItem, if_neg fun heq => h (congrArg some heq)]

namespace Accounts

mutual

theorem walk (node : Node) (hplaced : node.IsPlaced opens) (r : Recorder)
    (owner : Option ItemId) (table : Option TableId) :
    Accounts opens r (Waits owner node.builds (Recorder.walk owner table r node).2)
      (Recorder.walk owner table r node).2 := by
  cases node with
  | comments offset =>
      rw [Recorder.walk]
      exact of_tables
        (congrArg (·.tables.size) (Affects.flush r offset).reader.declarations)
  | tableComments offset =>
      rw [Recorder.walk]
      cases table with
      | none => exact of_tables rfl
      | some table =>
          exact of_tables
            (congrArg (·.tables.size) (Affects.flush r offset).reader.declarations)
  | tableEnd =>
      rw [Recorder.walk]
      cases table <;> exact of_tables rfl
  | discard =>
      rw [Recorder.walk]
      exact of_tables rfl
  | forget =>
      rw [Recorder.walk]
      exact of_tables rfl
  | statement inner =>
      rw [Recorder.walk]
      exact (walkAll inner hplaced { r with last := none } none none).around rfl
        rfl (fun _ h => h) (by simp)
  | scope inner =>
      rw [Recorder.walk]
      exact (walkAll inner hplaced r.enterScope none none).around rfl rfl
        (fun _ h => h) (by simp)
  | body owned line inner =>
      rw [Recorder.walk]
      have hinner :=
        walkAll inner hplaced
          (r.enterBody (if owned then owner else none) line) none none
      rw [Passes.enterBody_eq] at hinner ⊢
      exact hinner.around rfl rfl (fun _ h => h) (by simp)
  | table owned inner =>
      rw [Recorder.walk]
      rcases newTable_cases r (if owned then owner else none) with
        hnone | ⟨item, r', howner, hnew, hsize, hcount, howns⟩
      · rw [hnone]
        exact (walkAll inner hplaced r none none).around rfl rfl (fun _ h =>
          h) (by simp)
      · rw [hnew]
        intro table hlow hhigh
        by_cases hself : table = r.catalog.declarations.tables.size
        · right
          subst hself
          have hread :=
            Unfolds.walkAll inner r' none (some r.catalog.declarations.tables.size)
          have hdelivered :=
            (Follows.walkAll inner r' none
              (some r.catalog.declarations.tables.size)).delivered
          cases owned with
          | false => simp at howner
          | true =>
              refine ⟨item, inner, howner, List.mem_singleton_self _,
                howns.unfolds hread.declarations, ?_⟩
              exact fun offset hoffset =>
                hdelivered offset (List.mem_append_right _ hoffset)
        · left
          rcases walkAll inner hplaced r' none _ table (by omega) hhigh with
            hdone | hwaits
          · exact hcount ▸ hdone
          · simp at hwaits
  | value inner =>
      rw [Recorder.walk]
      exact walkAll inner hplaced r owner none
  | entry head inner init =>
      rw [Recorder.walk]
      obtain ⟨⟨v, hv, hfits⟩, hinner⟩ := hplaced
      obtain rfl : init = some v := hv
      exact (walkAll inner hinner _ _ none).setInit (.declareEntry r table head)
        (.walkAll inner _ _ none)
        (.declareEntry nofun head nofun) hfits.opens_of_mem _
  | locals names inner inits =>
      rw [Recorder.walk]
      obtain ⟨⟨vs, hvs, hfits⟩, hinner⟩ := hplaced
      obtain rfl : inits = some vs := hvs
      exact (walkValues inner hinner _ _).setInits (.declareLocals names r)
        (.walkValues inner _ _)
        (.declareLocals nofun names) (hfits.opens_of_mem _) _
  | assign targets inner inits =>
      rw [Recorder.walk]
      obtain ⟨⟨vs, hvs, hfits⟩, hinner⟩ := hplaced
      obtain rfl : inits = some vs := hvs
      exact (walkValues inner hinner _ _).setInits (.declareTargets targets r)
        (.walkValues inner _ _)
        (.declareTargets nofun targets) (hfits.opens_of_mem _) _
  | function head inner stop =>
      rw [Recorder.walk]
      obtain ⟨hfree, hinner⟩ := hplaced
      have hwalk :=
        walkAll inner hinner (r.declareStatement head).2
          (r.declareStatement head).1 none
      rw [AreFree.buildsAll_eq_nil inner hfree] at hwalk
      have hcount := (Unfolds.declareStatement r head).1.count_le
      have hfound : Finds False r _ (r.declareStatement head).2 :=
        .declareStatement nofun head
      cases stop with
      | none =>
          exact hwalk.around hfound.stays.tables rfl (fun _ h =>
            h.mono hcount) (by simp)
      | some stop =>
          refine hwalk.around hfound.stays.tables
            (Stays.finishStatement _ _ stop).tables ?_ (by simp)
          intro table hdone
          refine (hdone.kept
            (Unfolds.finishStatement (n := 0) _ (by simp) stop).declarations ?_
            ?_).mono hcount
          · rw [(Stays.finishStatement _ _ stop).comments]
          · intro id hid _
            refine item?_finishStatement_of_ne _ (fun heq => ?_) stop
            exact Nat.not_lt_of_le hid (declareStatement_lt_count r head id heq)

theorem walkAll (nodes : List Node) (hplaced : ArePlaced opens nodes)
    (r : Recorder) (owner : Option ItemId) (table : Option TableId) :
    Accounts opens r
      (Waits owner (buildsAll nodes) (Recorder.walkAll owner table r nodes).2)
      (Recorder.walkAll owner table r nodes).2 := by
  cases nodes with
  | nil =>
      rw [Recorder.walkAll]
      exact of_tables rfl
  | cons node nodes =>
      rw [Recorder.walkAll]
      have hmore :=
        Unfolds.walkAll nodes (Recorder.walk owner table r node).2 owner table
      have hcomments :=
        (Follows.walkAll nodes (Recorder.walk owner table r node).2 owner
          table).comments_sublist
      refine (walk node hplaced.1 r owner table).trans
        (walkAll nodes hplaced.2 _ owner table)
        (.walk node r owner table) hmore hcomments ?_ ?_
      · exact fun _ hwaits =>
          (hwaits.kept hmore.declarations hcomments).subset
            (List.subset_append_left _ _)
      · exact fun _ hwaits => hwaits.subset (List.subset_append_right _ _)

theorem walkValues (nodes : List Node) (hplaced : ArePlaced opens nodes)
    (r : Recorder) (ids : List (Option ItemId)) :
    Accounts opens r
      (fun table => ∃ pair ∈ ids.zip (nodes.map builds),
        Waits pair.1 pair.2 (Recorder.walkValues ids r nodes).2 table)
      (Recorder.walkValues ids r nodes).2 := by
  cases nodes with
  | nil =>
      rw [Recorder.walkValues]
      exact of_tables rfl
  | cons node nodes =>
      rw [Recorder.walkValues]
      have hmore :=
        Unfolds.walkValues nodes
          (Recorder.walk ids.head?.join none r node).2 ids.tail
      have hcomments :=
        (Follows.walkValues nodes (Recorder.walk ids.head?.join none r node).2
          ids.tail).comments_sublist
      refine (walk node hplaced.1 r ids.head?.join none).trans
        (walkValues nodes hplaced.2 _ ids.tail)
        (.walk node r ids.head?.join none) hmore hcomments ?_ ?_
      · intro table hwaits
        cases ids with
        | nil => simp at hwaits
        | cons id ids =>
            exact ⟨_, List.mem_cons_self, hwaits.kept hmore.declarations hcomments⟩
      · rintro table ⟨pair, hpair, hwaits⟩
        cases ids with
        | nil => simp at hpair
        | cons id ids => exact ⟨pair, List.mem_cons_of_mem _ hpair, hwaits⟩

end

end Accounts

end Recorder

/-! ## Tokens of a source -/

theorem Scanner.Tiles.ascends {source before : Bytes} {s : Scanner}
    {ts : List Token} (h : s.Tiles ts) (hs : s.Reads source before) :
    ts.Pairwise fun t u => t.pos.offset < u.pos.offset := by
  induction h generalizing before with
  | last _ => exact List.pairwise_singleton _ _
  | @cons s s' gap first ts hfound hcontent hrest ih =>
      refine .cons ?_ (ih (hs.next hfound))
      intro t ht
      have hbehind := (hrest.bounds (hs.next hfound) t ht).1
      have hnonempty := List.length_pos_iff.2 (hfound.nonempty hcontent)
      have hlength := hfound.length
      have hstop := hfound.stop
      unfold Pos.stop at hstop
      omega

theorem tokenize_ascends (source : Bytes) :
    (tokenize source).Pairwise fun t u => t.pos.offset < u.pos.offset :=
  (Scanner.tiles_tokensOn _).ascends (Scanner.reads_ofSource source)

theorem marks_ofSource (source : Bytes) :
    (marksAll (Outline.ofSource source (tokenize source)).nodes).Pairwise
      (· ≤ ·) := by
  refine Outline.marks_pairwise source ?_
  have hascends :=
    (tokenize_ascends source).sublist
      (List.filter_sublist (p := (!·.kind.isComment)))
  rcases List.eq_nil_or_concat
    ((tokenize source).filter (!·.kind.isComment)) with
    hnil | ⟨before, last, hlast⟩
  · simp [hnil]
  · rw [hlast, List.concat_eq_append] at hascends ⊢
    have hoffsets : ((before ++ [last]).map (·.pos.offset)).Pairwise (· ≤ ·) :=
      List.pairwise_map.2 (hascends.imp Nat.le_of_lt)
    simpa using hoffsets

/-- Whether a comment is one of those directly before the token at an offset. -/
def Token.IsDirectlyBefore (tokens : List Token) (offset : Nat) (t : Token) :
    Prop :=
  ∃ before comments u after, tokens = before ++ (comments ++ u :: after) ∧
    t ∈ comments ∧
    (∀ c ∈ comments, c.kind.isComment = true) ∧ u.kind.isComment = false ∧
    u.pos.offset = offset

/-- Whether a table has been built from a table constructor: the initializer of
its owner begins with the constructor. -/
def Catalog.IsBuiltFrom (c : Catalog) (table : TableId) (constructor : Tree) :
    Prop :=
  ∃ owner item init, c.Owns owner table ∧ c.item? owner = some item ∧
    item.init? = some init ∧
    init.start = constructor.first.offset

/-- A table is built from one place of a source only. -/
theorem Catalog.IsBuiltFrom.first_eq {c : Catalog} {table : TableId}
    {constructor other : Tree} (h : c.IsBuiltFrom table constructor)
    (h' : c.IsBuiltFrom table other) :
    constructor.first.offset = other.first.offset := by
  obtain ⟨owner, item, init, ⟨t, ht, howner⟩, hitem, hinit, hstart⟩ := h
  obtain ⟨owner', item', init', ⟨t', ht', howner'⟩, hitem', hinit', hstart'⟩ := h'
  obtain rfl := Option.some.inj (ht.symm.trans ht')
  obtain rfl := Option.some.inj (howner.symm.trans howner')
  obtain rfl := Option.some.inj (hitem.symm.trans hitem')
  obtain rfl := Option.some.inj (hinit.symm.trans hinit')
  omega

namespace Tree

theorem first_le_last {tree : Tree}
    (h : tree.tokens.Pairwise fun t u => t.pos.offset < u.pos.offset) :
    tree.first.offset ≤ tree.last.offset := by
  unfold first last
  cases htokens : tree.tokens with
  | nil => exact Nat.le_refl _
  | cons t ts =>
      rw [htokens] at h
      rw [List.head?_cons, List.getLast?_eq_some_getLast (List.cons_ne_nil t ts)]
      rcases List.mem_cons.1 (List.getLast_mem (List.cons_ne_nil t ts)) with
        hself | hlater
      · simp [hself]
      · exact Nat.le_of_lt (List.rel_of_pairwise_cons h hlater)

end Tree

namespace Recorder

/-- A table whose owner's initializer begins with a table constructor of a tree
has been built from this constructor. -/
theorem Settled.exists_constructor {r : Recorder} {n : Nat} {table : TableId}
    {tree : Tree} (h : Settled (Tree.OpensIn [tree]) n r table)
    (htree : tree.tokens.Pairwise fun t u => t.pos.offset < u.pos.offset) :
    ∃ constructor : Tree, constructor.Sub tree ∧ constructor.IsA .table ∧
      r.catalog.IsBuiltFrom table constructor ∧
      r.Delivered constructor.entryOffsets := by
  obtain ⟨owner, item, v, inner, -, howns, hitem, hinit,
      ⟨_, hroot, e, he, hleads, hstart⟩, hdelivered⟩ := h
  obtain rfl := List.mem_singleton.1 hroot
  obtain ⟨constructor, hsub, htable, hfirst, hoffsets⟩ := hleads
  obtain ⟨init, hinit, hsame⟩ := Option.map_eq_some_iff.1 hinit
  have hle := Tree.first_le_last (htree.sublist he.tokens_sublist)
  refine ⟨constructor, hsub.trans he, htable,
    ⟨owner, item, init, howns, hitem, hinit, ?_⟩, ?_⟩
  · rw [hsame, hstart, hfirst]
    omega
  · exact fun offset hoffset => hdelivered offset (hoffsets hoffset)

/-! ## Sources -/

theorem follows_recordSource (c : Catalog) (file source : Bytes)
    (tokens : List Token) (outline : Outline) :
    (start c file source tokens).Follows (marksAll outline.nodes)
      (offsetsIn outline.nodes)
      (recordSource c file source tokens outline) := by
  have hwalk :=
    (Follows.walkAll outline.nodes (start c file source tokens) none none).mono
      (Follows.offsetsIn_subset_dues _ _)
  unfold recordSource
  dsimp only
  split
  · exact .between (.refl _) hwalk (.leaveFile _)
  · exact hwalk

theorem settled_recordSource {opens : Value → List Node → Prop} (c : Catalog)
    (file source : Bytes) (tokens : List Token) {outline : Outline}
    (hplaced : ArePlaced opens outline.nodes) {table : TableId}
    (hlow : c.declarations.tables.size ≤ table)
    (hhigh : table < (recordSource c file source tokens
      outline).catalog.declarations.tables.size) :
    Settled opens c.declarations.items.size
      (recordSource c file source tokens outline) table := by
  have hwalk :=
    Accounts.walkAll outline.nodes hplaced (start c file source tokens) none none
  have hall : Accounts opens (start c file source tokens) (fun _ => False)
      (recordSource c file source tokens outline) := by
    unfold recordSource
    dsimp only
    split
    · exact hwalk.around rfl rfl (fun _ h => h) (by simp)
    · exact hwalk.around rfl rfl (fun _ h => h) (by simp)
  exact (hall table hlow hhigh).resolve_right id

/-- While a source is recorded, the comments that are handed over are comments
of the source, in their order. -/
theorem Handles.ofSource {c : Catalog} {file source : Bytes} {r : Recorder}
    {runs : CommentRuns}
    (h : (start c file source (tokenize source)).Handles runs r)
    {marks : List Nat} (hmarks : marks.Pairwise (· ≤ ·))
    (hruns : runs.offsets.Sublist marks) :
    runs.tokens.Sublist ((tokenize source).filter (·.kind.isComment)) ∧
    runs.tokens.Nodup := by
  have hascends := tokenize_ascends source
  have hoffsets :
      (CommentRuns.ofTokens (tokenize source)).offsets.Pairwise (· < ·) :=
    (List.pairwise_map.2 hascends).sublist (CommentRuns.offsets_collect _ [])
  have hcomments :
      runs.tokens.Sublist ((tokenize source).filter (·.kind.isComment)) :=
    ((h.sublist hmarks hruns hoffsets).flatMap _).trans
      (CommentRuns.tokens_collect _ [])
  have hdistinct : (tokenize source).Nodup := by
    refine hascends.imp ?_
    rintro t _ hlt rfl
    exact Nat.lt_irrefl _ hlt
  exact ⟨hcomments, hdistinct.sublist (hcomments.trans List.filter_sublist)⟩

theorem Handles.count_eq_one {c : Catalog} {file source : Bytes} {r : Recorder}
    {runs : CommentRuns}
    (h : (start c file source (tokenize source)).Handles runs r)
    (hnodup : runs.tokens.Nodup) {offset : Nat} {t : Token}
    (ht : t.IsDirectlyBefore (tokenize source) offset)
    (hgone : r.comments.lookup offset = none) : runs.tokens.count t = 1 := by
  obtain ⟨before, comments, u, after, htokens, hmem, hcomments, hu, rfl⟩ := ht
  obtain ⟨run, hrun, hsub⟩ :=
    CommentRuns.mem_collect before hcomments hu (List.ne_nil_of_mem hmem) [] after
  rw [← htokens] at hrun
  have hoffsets : (CommentRuns.ofTokens (tokenize source)).offsets.Nodup :=
    ((List.pairwise_map.2 (tokenize_ascends source)).sublist
      (CommentRuns.offsets_collect _ [])).nodup
  have hall : (u.pos.offset, run) ∈ runs ++ r.comments :=
    (h.perm hoffsets).mem_iff.2 hrun
  rcases List.mem_append.1 hall with htaken | hleft
  · exact List.count_eq_one_of_mem hnodup
      (List.mem_flatMap.2 ⟨_, htaken, hsub hmem⟩)
  · simpa using List.lookup_eq_none_iff.1 hgone _ hleft

/-- A table whose only entry is another table, with comments before the entries
and the closing braces. -/
private def nestedTables : Bytes :=
  utf8 "--! a\nt = \x7b\n--! b\nu = \x7b\n--! c\n1 --!< d\n" ++
    utf8 "\x7d\n--! e\n\x7d --!< f"

private def nestedRecorder : Recorder :=
  recordSource (.empty .default) [] nestedTables (tokenize nestedTables)
    (.ofSource nestedTables (tokenize nestedTables))

end Recorder

end LuaGloss
