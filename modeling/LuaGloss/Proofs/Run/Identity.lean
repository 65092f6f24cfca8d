import LuaGloss.Proofs.Files.Path
import LuaGloss.Proofs.Run.Coverage

/-!
# One id for each thing that is shown

Reference ids belong to blocks, and no two blocks have the same.  Everything
that is shown has its id from a block, and two things have the same id exactly
if they have the same block.  That happens in one way: a comment that is a
footnote or describes a group may name an item as well, and from then on its
block is the block of that item, too.
-/

namespace LuaGloss

namespace Catalog

/-- The first is an item whose block is that of the second, which is a footnote
or a group. -/
def Borrows (c : Catalog) (e e' : Entity) : Prop :=
  e.item?.isSome ∧ e'.item? = none ∧ (c.ownBlock? e').isSome ∧
  c.ownBlock? e = c.ownBlock? e'

instance (c : Catalog) (e e' : Entity) : Decidable (c.Borrows e e') :=
  inferInstanceAs (Decidable (_ ∧ _))

/-! ## What is shown -/

mutual

theorem mem_shownIn {c : Catalog} (tree : ItemTree) {e : Form × Entity}
    (h : e ∈ c.shownIn tree) :
    (∃ id, e.2 = .item id) ∨ ∃ block, e ∈ c.notes block := by
  cases tree with
  | node id fields =>
      have hbelow := mem_shownInAll (c := c) fields (e := e)
      rw [shownIn] at h
      cases hkind : c.kindOf id with
      | enum =>
          simp only [hkind, List.mem_append, List.mem_cons, List.mem_map] at h
          rcases h with (rfl | ⟨field, -, rfl⟩) | hnote
          · exact .inl ⟨_, rfl⟩
          · exact .inl ⟨_, rfl⟩
          · exact .inr ⟨_, hnote⟩
      | normal | class_ | struct | module_ =>
          simp only [hkind, List.mem_append, List.mem_cons] at h
          rcases h with (rfl | hnote) | hfield
          · exact .inl ⟨_, rfl⟩
          · exact .inr ⟨_, hnote⟩
          · exact hbelow hfield

theorem mem_shownInAll {c : Catalog} (trees : List ItemTree) {e : Form × Entity}
    (h : e ∈ c.shownInAll trees) :
    (∃ id, e.2 = .item id) ∨ ∃ block, e ∈ c.notes block := by
  cases trees with
  | nil =>
      rw [shownInAll] at h
      simp at h
  | cons tree trees =>
      rw [shownInAll] at h
      rcases List.mem_append.1 h with hfirst | hrest
      · exact mem_shownIn tree hfirst
      · exact mem_shownInAll trees hrest

end

variable {c : Catalog}

theorem mem_shown {e : Form × Entity} (h : e ∈ c.shown) :
    e = (.compound, .global) ∨ (∃ id, e.2 = .item id) ∨
      (∃ block, e ∈ c.notes block) ∨
      ∃ group ∈ c.docs.listedGroups, e = (.compound, .group group) := by
  unfold shown at h
  rcases List.mem_append.1 h with hitems | hgroups
  · rcases List.mem_cons.1 hitems with hglobal | hitem
    · exact .inl hglobal
    · rcases mem_shownInAll _ hitem with hitem | hnote
      · exact .inr (.inl hitem)
      · exact .inr (.inr (.inl hnote))
  · obtain ⟨group, hgroup, hmem⟩ := List.mem_flatMap.1 hgroups
    rcases List.mem_cons.1 hmem with hself | hnote
    · exact .inr (.inr (.inr ⟨group, hgroup, hself⟩))
    · exact .inr (.inr (.inl ⟨_, hnote⟩))

theorem mem_notes (hc : c.Consistent) {block : Option BlockId}
    {e : Form × Entity} (h : e ∈ c.notes block) :
    ∃ note b parent, e = (.member, .footnote note) ∧
    c.docs.block? note = some b ∧ b.kind = .footnote parent := by
  obtain ⟨note, hnote, rfl⟩ := List.mem_map.1 h
  cases hblock : block.bind c.docs.block? with
  | none => simp [hblock] at hnote
  | some b =>
      obtain ⟨parent, -, hparent⟩ := Option.bind_eq_some_iff.1 hblock
      have hmem : note ∈ b.footnotes := by simpa [hblock] using hnote
      obtain ⟨b', hb', hkind⟩ := block?_of_footnote hc hparent hmem
      exact ⟨note, b', parent, rfl, hb', hkind⟩

/-! ## Ids and blocks -/

theorem refIdOf?_block {e : Entity} {refId : Bytes} (hglobal : e ≠ .global)
    (h : c.refIdOf? e = some refId) :
    ∃ block b, c.ownBlock? e = some block ∧ c.docs.block? block = some b ∧
    b.refId = some refId := by
  rw [refIdOf?_eq c hglobal] at h
  obtain ⟨b, hb, hrefId⟩ := Option.bind_eq_some_iff.1 h
  obtain ⟨block, hown, hb⟩ := Option.bind_eq_some_iff.1 hb
  exact ⟨block, b, hown, hb, hrefId⟩

theorem isId_refIdOf? (hc : c.Consistent) {e : Entity} {refId : Bytes}
    (h : c.refIdOf? e = some refId) : Xml.isId refId = true := by
  by_cases hglobal : e = .global
  · subst hglobal
    rw [← Option.some.inj h]
    decide
  · obtain ⟨block, b, -, hb, hrefId⟩ := refIdOf?_block hglobal h
    exact (hc.docs.numbered.used block b.links refId
      (Docs.links?_of_block? hb) hrefId).2.1

theorem eq_global (hc : c.Consistent) {e : Entity}
    (h : c.refIdOf? e = some Docs.globalId) : e = .global := by
  by_contra hglobal
  obtain ⟨block, b, -, hb, hrefId⟩ := refIdOf?_block hglobal h
  exact (hc.docs.numbered.used block b.links _ (Docs.links?_of_block? hb)
    hrefId).2.2 rfl

theorem ownBlock?_eq_of_refIdOf? (hc : c.Consistent) {e e' : Entity}
    {refId : Bytes} (he : e ≠ .global) (he' : e' ≠ .global)
    (h : c.refIdOf? e = some refId) (h' : c.refIdOf? e' = some refId) :
    ∃ block b, c.ownBlock? e = some block ∧ c.ownBlock? e' = some block ∧
    c.docs.block? block = some b := by
  obtain ⟨block, b, hown, hb, hrefId⟩ := refIdOf?_block he h
  obtain ⟨block', b', hown', hb', hrefId'⟩ := refIdOf?_block he' h'
  have heq : block = block' :=
    hc.docs.numbered.distinct block block' b.links b'.links refId
      (Docs.links?_of_block? hb) (Docs.links?_of_block? hb') hrefId hrefId'
  exact ⟨block, b, hown, heq ▸ hown', hb⟩

theorem kind_of_ownBlock? (hc : c.Consistent) {e : Form × Entity}
    (he : e ∈ c.shown) {block : BlockId} {b : Block}
    (hown : c.ownBlock? e.2 = some block) (hb : c.docs.block? block = some b) :
    (∃ id, e.2 = .item id) ∨
      (∃ parent, e.2 = .footnote block ∧ b.kind = .footnote parent) ∨
      ∃ group, e.2 = .group group ∧ b.kind = .group group := by
  rcases mem_shown he with rfl | hitem | ⟨parent, hnote⟩ | ⟨id, -, rfl⟩
  · simp [ownBlock?] at hown
  · exact .inl hitem
  · obtain ⟨note, b', parent, rfl, hb', hkind⟩ := mem_notes hc hnote
    obtain rfl : note = block := Option.some.inj hown
    obtain rfl := Option.some.inj (hb.symm.trans hb')
    exact .inr (.inl ⟨parent, rfl, hkind⟩)
  · obtain ⟨group, hgroup, rfl⟩ := Option.map_eq_some_iff.1 hown
    obtain ⟨b', hb', hkind⟩ := block?_of_group? hc hgroup
    obtain rfl := Option.some.inj (hb.symm.trans hb')
    exact .inr (.inr ⟨id, rfl, hkind⟩)

/-- Two things that are shown have one block only if the one is an item and
borrows it from the other. -/
theorem eq_or_borrows (hc : c.Consistent) {e e' : Form × Entity}
    (he : e ∈ c.shown) (he' : e' ∈ c.shown) {block : BlockId} {b : Block}
    (hown : c.ownBlock? e.2 = some block)
    (hown' : c.ownBlock? e'.2 = some block) (hb : c.docs.block? block = some b) :
    e.2 = e'.2 ∨ c.Borrows e.2 e'.2 ∨ c.Borrows e'.2 e.2 := by
  have hborrows {e e' : Entity} (hitem : e.item?.isSome)
      (hnone : e'.item? = none) (h : c.ownBlock? e = some block)
      (h' : c.ownBlock? e' = some block) : c.Borrows e e' :=
    ⟨hitem, hnone, by simp [h'], h.trans h'.symm⟩
  rcases kind_of_ownBlock? hc he hown hb with
    ⟨id, heq⟩ | ⟨parent, heq, hkind⟩ | ⟨group, heq, hkind⟩
  · rcases kind_of_ownBlock? hc he' hown' hb with
      ⟨id', heq'⟩ | ⟨parent', heq', -⟩ | ⟨group', heq', -⟩
    · rw [heq] at hown
      rw [heq'] at hown'
      rw [heq, heq', hc.blockOf?_inj hown hown']
      exact .inl rfl
    · exact .inr
        (.inl (hborrows (by simp [heq, Entity.item?])
          (by simp [heq', Entity.item?]) hown hown'))
    · exact .inr
        (.inl (hborrows (by simp [heq, Entity.item?])
          (by simp [heq', Entity.item?]) hown hown'))
  · rcases kind_of_ownBlock? hc he' hown' hb with
      ⟨id', heq'⟩ | ⟨parent', heq', -⟩ | ⟨group', heq', hkind'⟩
    · exact .inr
        (.inr (hborrows (by simp [heq', Entity.item?])
          (by simp [heq, Entity.item?]) hown' hown))
    · exact .inl (heq.trans heq'.symm)
    · rw [hkind] at hkind'
      simp at hkind'
  · rcases kind_of_ownBlock? hc he' hown' hb with
      ⟨id', heq'⟩ | ⟨parent', heq', hkind'⟩ | ⟨group', heq', hkind'⟩
    · exact .inr
        (.inr (hborrows (by simp [heq', Entity.item?])
          (by simp [heq, Entity.item?]) hown' hown))
    · rw [hkind] at hkind'
      simp at hkind'
    · rw [hkind] at hkind'
      rw [heq, heq', BlockKind.group.inj hkind']
      exact .inl rfl

theorem Borrows.refIdOf? {e e' : Entity} (h : c.Borrows e e') :
    c.refIdOf? e = c.refIdOf? e' := by
  obtain ⟨hitem, hnone, hsome, hown⟩ := h
  have hglobal : e ≠ .global := by
    rintro rfl
    simp [Entity.item?] at hitem
  have hglobal' : e' ≠ .global := by
    rintro rfl
    simp [ownBlock?] at hsome
  rw [refIdOf?_eq c hglobal, refIdOf?_eq c hglobal', hown]

theorem Shows.refIdOf? {pages : List Page} (h : c.Shows pages)
    {e : Form × Entity} (he : e ∈ c.shown) :
    ∃ refId, c.refIdOf? e.2 = some refId := by
  have hmem := h.definitions.symm.subset (List.mem_map_of_mem he)
  obtain ⟨d, -, hd⟩ := List.mem_map.1 hmem
  obtain ⟨refId, hrefId, -⟩ := Option.map_eq_some_iff.1 hd.symm
  exact ⟨refId, hrefId⟩

/-- Two things that are shown have the same id exactly if the one borrows its
block from the other. -/
theorem refIdOf?_eq_iff (hc : c.Consistent) {pages : List Page}
    (hshows : c.Shows pages) {e e' : Form × Entity} (he : e ∈ c.shown)
    (he' : e' ∈ c.shown) :
    c.refIdOf? e.2 = c.refIdOf? e'.2 ↔ e.2 = e'.2 ∨ c.Borrows e.2 e'.2 ∨
    c.Borrows e'.2 e.2 := by
  constructor
  · intro h
    obtain ⟨refId, hrefId⟩ := hshows.refIdOf? he
    have hrefId' := h.symm.trans hrefId
    by_cases hglobal : e.2 = .global
    · left
      rw [hglobal] at hrefId ⊢
      rw [← Option.some.inj hrefId] at hrefId'
      exact (eq_global hc hrefId').symm
    · by_cases hglobal' : e'.2 = .global
      · left
        rw [hglobal'] at hrefId' ⊢
        rw [← Option.some.inj hrefId'] at hrefId
        exact eq_global hc hrefId
      · obtain ⟨block, b, hown, hown', hb⟩ :=
          ownBlock?_eq_of_refIdOf? hc hglobal hglobal' hrefId hrefId'
        exact eq_or_borrows hc he he' hown hown' hb
  · rintro (heq | hborrows | hborrows)
    · rw [heq]
    · exact hborrows.refIdOf?
    · exact hborrows.refIdOf?.symm

/-! ## Pages -/

theorem isName_page {refId : Bytes} (h : Xml.isId refId = true) :
    Path.IsName (refId ++ utf8 ".xml") := by
  have hlength : (refId ++ utf8 ".xml").length = refId.length + 4 := by
    simp [show (utf8 ".xml").length = 4 from rfl]
  constructor
  · intro hmem
    rcases List.mem_append.1 hmem with hid | hxml
    · have hbyte := List.all_eq_true.1 h _ hid
      exact absurd hbyte (by decide)
    · exact absurd hxml (by decide)
  · intro heq
    simp [heq] at hlength
  · intro heq
    rw [heq, show Path.dot.length = 1 from rfl] at hlength
    omega
  · intro heq
    rw [heq, show Path.dotDot.length = 2 from rfl] at hlength
    omega

theorem pagePath_inj {refId refId' : Bytes} (h : Xml.isId refId = true)
    (h' : Xml.isId refId' = true) (directory : Bytes) :
    Page.pagePath directory refId = Page.pagePath directory refId' ↔
      refId = refId' := by
  unfold Page.pagePath
  rw [Path.join_name_inj (isName_page h) (isName_page h')]
  exact List.append_left_inj _

theorem map_item?_eq {shown : List (Form × Entity)}
    (h : ∀ e ∈ shown, ∃ id, e.2 = .item id) :
    shown.map (fun e => e.2.item?) = (Entity.items shown).map some := by
  induction shown with
  | nil => rfl
  | cons e shown ih =>
      obtain ⟨id, hid⟩ := h e (by simp)
      have hrest := ih fun e' he' => h e' (by simp [he'])
      simpa [Entity.items, Entity.item?, hid] using hrest

def compounds (c : Catalog) : List (Form × Entity) :=
  c.shown.filter (·.1 = .compound)

theorem mem_compounds {e : Form × Entity} (h : e ∈ c.compounds) :
    e ∈ c.shown ∧ e.1 = .compound := by
  simpa [compounds] using h

theorem definition?_eq_iff {e e' : Form × Entity} (he : e ∈ c.compounds)
    (he' : e' ∈ c.compounds) :
    c.definition? e = c.definition? e' ↔ c.refIdOf? e.2 = c.refIdOf? e'.2 := by
  unfold definition?
  rw [(mem_compounds he).2, (mem_compounds he').2]
  apply Option.map_inj_right
  intro refId refId' heq
  exact (Definition.mk.inj heq).2

theorem filter_shownOfGroup (c : Catalog) (groups : List GroupId) :
    (groups.flatMap c.shownOfGroup).filter (·.1 = .compound) =
      groups.map fun group => (.compound, .group group) := by
  have hone (group : GroupId) :
      (c.shownOfGroup group).filter (·.1 = .compound) =
        [(.compound, .group group)] := by
    simp [shownOfGroup]
  rw [List.filter_flatMap, List.map_eq_flatMap]
  exact congrArg (List.flatMap · groups) (funext hone)

theorem nodup_compounds (hc : c.Consistent) : c.compounds.Nodup := by
  have hitem (e : Form × Entity)
      (he : e ∈ (c.shownInAll (c.declarations.forest c.isRendered)).filter
        (·.1 = .compound)) : ∃ id, e.2 = .item id := by
    obtain ⟨hmem, hform⟩ := List.mem_filter.1 he
    rcases mem_shownInAll _ hmem with hitem | ⟨block, hnote⟩
    · exact hitem
    · obtain ⟨note, b, parent, rfl, -⟩ := mem_notes hc hnote
      simp at hform
  have hitems :
      ((c.shownInAll (c.declarations.forest c.isRendered)).filter
        (·.1 = .compound)).Nodup := by
    apply List.Nodup.of_map fun e => e.2.item?
    rw [map_item?_eq hitem]
    apply List.Nodup.map fun _ _ => Option.some.inj
    have hsublist :
        (Entity.items
          ((c.shownInAll (c.declarations.forest c.isRendered)).filter
            (·.1 = .compound))).Sublist
        (Entity.items c.shown) := by
      apply List.Sublist.filterMap
      apply List.filter_sublist.trans
      exact (List.sublist_cons_self _ _).trans (List.sublist_append_left _ _)
    exact (nodup_items_shown hc.declarations).sublist hsublist
  have hgroups :
      (c.docs.listedGroups.map fun group =>
        (Form.compound, Entity.group group)).Nodup := by
    apply hc.docs.grouped.nodup.map
    intro group group' heq
    simpa using heq
  unfold compounds shown
  rw [List.filter_append, List.filter_cons_of_pos (by simp),
    filter_shownOfGroup, List.cons_append, List.nodup_cons, List.nodup_append]
  refine ⟨?_, hitems, hgroups, ?_⟩
  · intro hmem
    rcases List.mem_append.1 hmem with hglobal | hglobal
    · obtain ⟨id, hid⟩ := hitem _ hglobal
      simp at hid
    · simp at hglobal
  · intro e he e' he' heq
    obtain ⟨id, hid⟩ := hitem e he
    obtain ⟨group, -, rfl⟩ := List.mem_map.1 he'
    simp [heq] at hid

/-- Two pages have one path exactly if one of them is the page of an item that
borrows its block from a group. -/
theorem nodup_pagePaths (hc : c.Consistent) {pages : List Page}
    (hshows : c.Shows pages) (directory : Bytes) :
    (pages.map fun page => Page.pagePath directory page.refId).Nodup ↔
      ∀ e ∈ c.compounds, ∀ e' ∈ c.compounds, ¬c.Borrows e.2 e'.2 := by
  have hid (d : Definition) (hd : d ∈ pages.map Page.own) :
      Xml.isId d.id = true := by
    have hmem := hshows.own.subset (List.mem_map_of_mem hd)
    obtain ⟨e, -, he⟩ := List.mem_map.1 hmem
    obtain ⟨refId, hrefId, rfl⟩ := Option.map_eq_some_iff.1 he
    exact isId_refIdOf? hc hrefId
  have hform (d : Definition) (hd : d ∈ pages.map Page.own) :
      d.form = .compound := by
    obtain ⟨page, -, rfl⟩ := List.mem_map.1 hd
    rfl
  have hpaths : (pages.map fun page => Page.pagePath directory page.refId) =
      (pages.map Page.own).map fun d => Page.pagePath directory d.id := by
    rw [List.map_map]
    rfl
  have hinj : ∀ d ∈ pages.map Page.own, ∀ d' ∈ pages.map Page.own,
      Page.pagePath directory d.id = Page.pagePath directory d'.id → d = d' := by
    intro d hd d' hd' heq
    have hids := (pagePath_inj (hid d hd) (hid d' hd') directory).1 heq
    have hforms := (hform d hd).trans (hform d' hd').symm
    cases d
    cases d'
    simp_all
  -- From paths to ids, from ids to blocks: on each way nothing is identified
  -- that was different.
  calc (pages.map fun page => Page.pagePath directory page.refId).Nodup
      ↔ (pages.map Page.own).Nodup := by
        rw [hpaths]
        exact ⟨List.Nodup.of_map _, List.Nodup.map_on hinj⟩
    _ ↔ ((pages.map Page.own).map some).Nodup :=
      (List.nodup_map_iff fun _ _ => Option.some.inj).symm
    _ ↔ (c.compounds.map c.definition?).Nodup := hshows.own.nodup_iff
    _ ↔ ∀ e ∈ c.compounds, ∀ e' ∈ c.compounds, c.definition? e =
      c.definition? e' → e = e' :=
        List.nodup_map_iff_inj_on (nodup_compounds hc)
    _ ↔ ∀ e ∈ c.compounds, ∀ e' ∈ c.compounds, ¬c.Borrows e.2 e'.2 := by
        constructor
        · intro hall e he e' he' hborrows
          obtain rfl :=
            hall e he e' he' ((definition?_eq_iff he he').2 hborrows.refIdOf?)
          simp [Borrows, hborrows.2.1] at hborrows
        · intro hnone e he e' he' heq
          have hrefId := (definition?_eq_iff he he').1 heq
          rcases (refIdOf?_eq_iff hc hshows (mem_compounds he).1
            (mem_compounds he').1).1 hrefId with h | h | h
          · exact Prod.ext
              ((mem_compounds he).2.trans (mem_compounds he').2.symm) h
          · exact (hnone e he e' he' h).elim
          · exact (hnone e' he' e he h).elim

end Catalog

namespace Run

/-- What a run shows has different ids, except where an item borrows its block
from a footnote or a group; and the pages of a run are different files, except
where the page of an item borrows its block from a group. -/
theorem ids_differ_unless_borrowed (settings : Settings)
    (vocabulary : Vocabulary) (language : Bytes) (sources : List SourceText)
    (tree : FileTree) (output : Bytes)
    (h : (((fresh settings vocabulary language).readAll sources).generate tree
      output).1 = none) :
    let run := (fresh settings vocabulary language).readAll sources
    let c := (run.generate tree output).2.1.catalog
    let directory := Path.directory (run.indexPath output)
    ∃ p, run.press tree output = .ok () p ∧
      c.Defines (p.pages.flatMap Page.definitions) c.shown ∧
      (∀ e ∈ c.shown, ∀ e' ∈ c.shown,
        c.refIdOf? e.2 = c.refIdOf? e'.2 ↔ e.2 = e'.2 ∨ c.Borrows e.2 e'.2 ∨
        c.Borrows e'.2 e.2) ∧
      ((p.pages.map fun page => Page.pagePath directory page.refId).Nodup ↔
        ∀ e ∈ c.compounds, ∀ e' ∈ c.compounds, ¬c.Borrows e.2 e'.2) := by
  intro run c directory
  have hc : run.catalog.Consistent :=
    consistent_readAll settings vocabulary language sources
  have hc' : c.Consistent := (reaches_generate hc tree output).consistent hc
  obtain ⟨p, hpress, -, hshows⟩ := generate_shows hc h
  refine ⟨p, hpress, hshows.definitions, ?_,
    Catalog.nodup_pagePaths hc' hshows directory⟩
  intro e he e' he'
  exact Catalog.refIdOf?_eq_iff hc' hshows he he'

private def sharedComment : List SourceText :=
  [⟨utf8 "a.lua",
    utf8 "--! \\group g\n--! \\variable x\n--! \\luastruct\nx=\x7b\x7d\n" ++
      utf8 "--! \\ingroup g\ny=2\n"⟩]

private def sharedRun : Run :=
  (fresh .default .default (utf8 "Lua")).readAll sharedComment

private def sharedCatalog : Catalog :=
  (sharedRun.generate .empty (utf8 "index.xml")).2.1.catalog

/-- The structure and the group have one id and one page. -/
theorem sharedComment_ids :
    (sharedRun.generate .empty (utf8 "index.xml")).1 = none ∧
      sharedCatalog.refIdOf? (.item 0) = sharedCatalog.refIdOf? (.group 0) ∧
      ∃ p, sharedRun.press .empty (utf8 "index.xml") = .ok () p ∧
        ¬(p.pages.map fun page =>
          Page.pagePath (Path.directory (utf8 "index.xml")) page.refId).Nodup := by
  have hdone : (sharedRun.generate .empty (utf8 "index.xml")).1 = none := by
    decide +kernel
  have hitem : (Form.compound, Entity.item 0) ∈ sharedCatalog.compounds := by
    decide +kernel
  have hgroup : (Form.compound, Entity.group 0) ∈ sharedCatalog.compounds := by
    decide +kernel
  have hborrows : sharedCatalog.Borrows (.item 0) (.group 0) := by decide +kernel
  obtain ⟨p, hpress, -, hids, hpaths⟩ :=
    ids_differ_unless_borrowed .default .default (utf8 "Lua") sharedComment
      .empty (utf8 "index.xml") hdone
  refine ⟨hdone, ?_, p, hpress, fun hnodup =>
    hpaths.1 hnodup _ hitem _ hgroup hborrows⟩
  exact (hids _ (Catalog.mem_compounds hitem).1 _
    (Catalog.mem_compounds hgroup).1).2 (.inr (.inl hborrows))

end Run

end LuaGloss
