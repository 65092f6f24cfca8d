import LuaGloss.Catalog.Source
import LuaGloss.Proofs.Comment.Steps

/-!
# Sources are recorded step by step

A recorder is ready if its comment reader is and if everything that it remembers
is an item.  Whatever it does on its way through the outline of a source leads
from one recorder that is ready to another and changes the catalog in steps
only, given that it is told of items and tables that are there.
-/

namespace LuaGloss

namespace Catalog

def Owns (c : Catalog) (item : ItemId) (table : TableId) : Prop :=
  ∃ t, c.declarations.table? table = some t ∧ t.owner = some item

variable {c c' : Catalog}

theorem Step.table? (h : c.Step c') {id : TableId} {t : Table}
    (ht : c.declarations.table? id = some t) :
    ∃ t', c'.declarations.table? id = some t' ∧ t'.owner = t.owner := by
  cases h with
  | bind block name _ =>
      rw [declarations_bindTarget]
      exact ⟨t, ht, rfl⟩
  | demand _ =>
      rw [declarations_itemBlock]
      exact ⟨t, ht, rfl⟩
  | table _ =>
      refine ⟨t, ?_, rfl⟩
      change (c.declarations.addTable _).table? id = some t
      rw [Declarations.table?_addTable,
        if_neg (Nat.ne_of_lt (Declarations.lt_size_of_table? ht))]
      exact ht
  | declare _ _ =>
      rw [declarations_declared, Declarations.table?_add, ht]
      split
      · exact ⟨_, rfl, rfl⟩
      · exact ⟨t, rfl, rfl⟩
  | _ => exact ⟨t, ht, rfl⟩

theorem Reaches.table? (h : c.Reaches c') {id : TableId} {t : Table}
    (ht : c.declarations.table? id = some t) :
    ∃ t', c'.declarations.table? id = some t' ∧ t'.owner = t.owner := by
  induction h with
  | refl => exact ⟨t, ht, rfl⟩
  | tail _ hstep ih =>
      obtain ⟨t', ht', howner'⟩ := ih
      obtain ⟨t'', ht'', howner''⟩ := hstep.table? ht'
      exact ⟨t'', ht'', howner''.trans howner'⟩

theorem Reaches.owns (h : c.Reaches c') {item : ItemId} {table : TableId}
    (howns : c.Owns item table) : c'.Owns item table := by
  obtain ⟨t, ht, howner⟩ := howns
  obtain ⟨t', ht', heq⟩ := h.table? ht
  exact ⟨t', ht', heq.trans howner⟩

theorem Reaches.table_isSome (h : c.Reaches c') {table : TableId}
    (hsome : (c.declarations.table? table).isSome) :
    (c'.declarations.table? table).isSome := by
  obtain ⟨t, ht⟩ := Option.isSome_iff_exists.1 hsome
  obtain ⟨t', ht', -⟩ := h.table? ht
  simp [ht']

theorem Owns.isSome {c : Catalog} {item : ItemId} {table : TableId}
    (h : c.Owns item table) : (c.declarations.table? table).isSome := by
  obtain ⟨t, ht, -⟩ := h
  simp [ht]

end Catalog

namespace Value

theorem table?_withTable {v : Value} {table : Option TableId} {id : TableId}
    (h : (v.withTable table).table? = some id) : table = some id := by
  unfold withTable at h
  split at h
  · exact h
  next hshape =>
    unfold table? at h
    split at h
    next id' hid => exact (hshape id' hid).elim
    next => simp at h

theorem table?_extend (v : Value) (pos : Pos) :
    (v.extend pos).table? = v.table? := by
  unfold extend extendTo
  split <;> rfl

end Value

namespace Item

@[simp] theorem table?_withInit (item : Item) (init : Value) :
    (item.withInit init).table? = item.table? := by
  unfold withInit
  cases hshape : item.shape <;> simp [table?, hshape]

theorem initTable?_withInit {item : Item} {init : Value} {table : TableId}
    (h : (item.withInit init).initTable? = some table) :
    init.table? = some table := by
  unfold withInit at h
  cases hshape : item.shape <;> simp_all [initTable?, init?]

end Item

namespace Recorder

theorem declarations_declare (r : Recorder) (item : Item) :
    (r.declare item).2.catalog.declarations = r.catalog.declarations.add item :=
  r.reader.declarations_declare item

theorem table?_extendInit (item : Item) (pos : Pos) :
    (extendInit item pos).table? = item.table? := by
  unfold extendInit
  cases hshape : item.shape <;> simp [Item.table?, hshape]

theorem initTable?_extendInit (item : Item) (pos : Pos) :
    (extendInit item pos).initTable? = item.initTable? := by
  unfold extendInit
  cases hshape : item.shape <;>
    simp [Item.initTable?, Item.init?, hshape, Value.table?_extend]

/-! ## What a recorder needs -/

structure Ready (r : Recorder) : Prop where
  reader : r.reader.Ready
  locals : ∀ entry ∈ r.locals, entry.2 < r.catalog.declarations.items.size
  last : ∀ id, r.last = some id → id < r.catalog.declarations.items.size
  header : ∀ id, r.header = some id → id < r.catalog.declarations.items.size

/-- From a recorder that is ready a run comes to another that is ready. -/
def Leads (r r' : Recorder) : Prop :=
  r.Ready → r.catalog.Reaches r'.catalog ∧ r'.Ready

namespace Leads

variable (r : Recorder)

theorem refl : r.Leads r := fun hr => ⟨.refl _, hr⟩

theorem trans {r r' r'' : Recorder} (h : r.Leads r') (h' : r'.Leads r'') :
    r.Leads r'' := by
  intro hr
  obtain ⟨hreaches, hr'⟩ := h hr
  obtain ⟨hreaches', hr''⟩ := h' hr'
  exact ⟨hreaches.trans hreaches', hr''⟩

theorem of_reader {r r' : Recorder} (h : r.reader.Leads r'.reader)
    (hlocals : ∀ entry ∈ r'.locals, entry ∈ r.locals ∨
      entry.2 < r'.catalog.declarations.items.size)
    (hlast : ∀ id, r'.last = some id → r.last = some id ∨
      id < r'.catalog.declarations.items.size)
    (hheader : ∀ id, r'.header = some id → r.header = some id ∨
      id < r'.catalog.declarations.items.size) :
    r.Leads r' := by
  intro hr
  obtain ⟨hreaches, hreader⟩ := h hr.reader
  have hle : r.catalog.declarations.items.size ≤
      r'.catalog.declarations.items.size := hreaches.size_le
  refine ⟨hreaches, hreader, ?_, ?_, ?_⟩
  · intro entry hentry
    rcases hlocals entry hentry with hold | hnew
    · exact Nat.lt_of_lt_of_le (hr.locals entry hold) hle
    · exact hnew
  · intro id hid
    rcases hlast id hid with hold | hnew
    · exact Nat.lt_of_lt_of_le (hr.last id hold) hle
    · exact hnew
  · intro id hid
    rcases hheader id hid with hold | hnew
    · exact Nat.lt_of_lt_of_le (hr.header id hold) hle
    · exact hnew

theorem mapReader {r : Recorder} {f : CommentReader → CommentReader}
    (h : r.reader.Leads (f r.reader)) : r.Leads (r.mapReader f) :=
  .of_reader h (fun _ => .inl) (fun _ => .inl) fun _ => .inl

theorem mapCatalog {r : Recorder} {f : Catalog → Catalog}
    (h : r.catalog.Advances (f r.catalog)) : r.Leads (r.mapCatalog f) :=
  mapReader (.mapCatalog h)

theorem warn (pos : Pos) (what : Warning) : r.Leads (r.warn pos what) :=
  mapCatalog (.warn _ _ _ _)

theorem discard : r.Leads r.discard := mapReader (.discard _)

theorem forget : r.Leads { r with last := none } :=
  .of_reader (.refl _) (fun _ => .inl) (fun _ h => by simp at h) fun _ => .inl

/-! ## Comments -/

theorem readInBody (t : Token) : r.Leads (r.readInBody t) := by
  intro hr
  unfold Recorder.readInBody
  split
  next item hitem =>
    split
    · exact mapReader (.readBack _ _ _ _ (hr.header item hitem)) hr
    · exact refl r hr
  next => exact refl r hr

theorem readComment (previous : Option Token) (t : Token) :
    r.Leads (r.readComment previous t) := by
  intro hr
  unfold Recorder.readComment
  split
  · split
    next item hitem => exact mapReader (.readBack _ _ _ _ (hr.last item hitem)) hr
    next => exact warn r _ _ hr
  · exact mapReader (.readAhead _ _ _ _ _) hr

theorem flush (offset : Nat) : r.Leads (r.flush offset) := by
  refine flush_of_steps .refl (fun h h' => h.trans h') ?_ readInBody
    readComment r offset
  exact fun r _ =>
    .of_reader (.refl _) (fun _ => .inl) (fun _ => .inl) fun _ => .inl

/-! ## Scopes -/

theorem enterScope : r.Leads r.enterScope :=
  .of_reader (.enterScope _ _) (fun _ => .inl) (fun _ => .inl) fun _ => .inl

theorem leaveScope : r.Leads r.leaveScope := mapReader (.leaveScope _)

theorem beginBody {item : Option ItemId} (line : Nat)
    (hitem : ∀ id, item = some id → id < r.catalog.declarations.items.size) :
    r.Leads { r with
      header := if r.depth = 0 then item else r.header
      headerLine := if r.depth = 0 then line else r.headerLine
      depth := r.depth + 1
      last := none } := by
  refine .of_reader (.refl _) (fun _ => .inl) (fun _ h => by simp at h)
    fun id hid => ?_
  by_cases hdepth : r.depth = 0
  · exact .inr (hitem id (by simpa [hdepth] using hid))
  · exact .inl (by simpa [hdepth] using hid)

end Leads

/-! ## Declarations -/

theorem fst_declare_lt (r : Recorder) (item : Item) :
    (r.declare item).1 < (r.declare item).2.catalog.declarations.items.size := by
  change (r.reader.declare item).1 <
    (r.reader.declare item).2.catalog.declarations.items.size
  rw [r.reader.fst_declare item, r.reader.declarations_declare item,
    Declarations.items_size_add]
  exact Nat.lt_succ_self _

namespace Leads

variable (r : Recorder)

theorem declare {item : Item} (hitem : r.catalog.declarations.Accepts item) :
    r.Leads (r.declare item).2 := by
  refine .of_reader (.declare r.reader hitem) (fun _ => .inl) ?_ fun _ => .inl
  intro id hid
  obtain rfl := Option.some.inj hid
  exact .inr (r.fst_declare_lt item)

theorem addLocal (name : Bytes) {id : ItemId}
    (hid : id < r.catalog.declarations.items.size) :
    r.Leads (r.addLocal name id) := by
  refine .of_reader (.refl _) ?_ (fun _ => .inl) fun _ => .inl
  intro entry hentry
  unfold Recorder.addLocal Declarations.register at hentry
  dsimp only at hentry
  split at hentry
  · exact .inl hentry
  · rcases List.mem_append.1 hentry with hold | hnew
    · exact .inl hold
    · rw [List.mem_singleton.1 hnew]
      exact .inr hid

theorem newTable {owner : Option ItemId}
    (howner : ∀ id, owner = some id → id < r.catalog.declarations.items.size) :
    r.Leads (r.newTable owner).2 := by
  unfold Recorder.newTable
  split
  next item =>
    split
    · have hadvances : r.catalog.Advances (r.catalog.newTable (some item)).2 :=
        .of_step (fun _ => .table (howner item rfl))
          (.of_blocks Catalog.IsAsFree.refl rfl)
      exact .of_reader (.of_advances hadvances fun _ h => h) (fun _ => .inl)
        (fun _ => .inl) fun _ => .inl
    · exact .refl r
  next => exact .refl r

/-! ## Initializers -/

theorem modifyItem {id : ItemId} {f : Item → Item}
    (htable : ∀ item, (f item).table? = item.table?)
    (hinit : r.catalog.Consistent → ∀ item, r.catalog.item? id = some item →
      ∀ table, (f item).initTable? = some table → r.catalog.Owns id table) :
    r.Leads (r.mapCatalog (·.modifyItem id f)) := by
  apply mapCatalog
  exact .of_step (fun hc => .modify htable (hinit hc))
    (.of_blocks Catalog.IsAsFree.refl rfl)

theorem setInit (id : Option ItemId) (init : Value) (table : Option TableId)
    (howns : ∀ item t, id = some item → table = some t → r.catalog.Owns item t) :
    r.Leads (r.setInit id init table) := by
  unfold Recorder.setInit
  split
  · exact .refl r
  next item =>
    apply modifyItem r (fun other => other.table?_withInit _)
    intro _ other _ t ht
    exact howns item t rfl (Value.table?_withTable (Item.initTable?_withInit ht))

theorem finishStatement {id : Option ItemId} (pos : Pos)
    (hid : ∀ item, id = some item → item < r.catalog.declarations.items.size) :
    r.Leads (r.finishStatement id pos) := by
  have hextended (item : ItemId) :
      r.Leads (r.mapCatalog (·.modifyItem item (extendInit · pos))) := by
    apply modifyItem r (fun other => table?_extendInit other pos)
    intro hc other hother t ht
    rw [initTable?_extendInit] at ht
    exact hc.declarations.init item other t hother ht
  unfold Recorder.finishStatement
  split
  next item =>
    apply (hextended item).trans
    refine .of_reader (.refl _) (fun _ => .inl) ?_ fun _ => .inl
    intro other hother
    obtain rfl := Option.some.inj hother
    right
    change item < (r.catalog.declarations.modifyItem item _).items.size
    rw [Declarations.items_size_modifyItem]
    exact hid item rfl
  next =>
    exact .of_reader (.refl _) (fun _ => .inl) (fun _ h => by simp at h)
      fun _ => .inl

end Leads

/-! ## Sources -/

theorem Ready.start {c : Catalog} (hc : c.Consistent) (file source : Bytes)
    (tokens : List Token) : (start c file source tokens).Ready :=
  ⟨⟨hc, by simp [Recorder.start, CommentReader.ofCatalog]⟩,
    by simp [Recorder.start], by simp [Recorder.start], by simp [Recorder.start]⟩

theorem Leads.leaveFile (r : Recorder) : r.Leads r.leaveFile :=
  mapReader ((CommentReader.Leads.closeRegions r.reader 0).trans (.discard _))

end Recorder

end LuaGloss
