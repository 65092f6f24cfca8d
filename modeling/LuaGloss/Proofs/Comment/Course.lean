import LuaGloss.Comment.Reader
import LuaGloss.Proofs.Docs.Links

/-!
# The course of a comment

Whatever a comment says, reading it comes down to writing text into a block,
perhaps with names that are to be looked up, and to six commands: regions are
opened and closed, footnotes are started, the block joins a group, a group is
described, and the block is bound to the item that it names.
-/

namespace LuaGloss

/-- What a block is apart from its texts and the place of its comment. -/
def Block.frame (b : Block) : Block :=
  { b with
    file := [], pos := .none, source := [], title := [], brief := []
    detailed := [], tags := [], imports := [] }

namespace Reading

/-- What reading a comment comes down to. -/
inductive Course : Reading → Reading → Prop
  | refl (s : Reading) : Course s s
  | trans {s s' s'' : Reading} : Course s s' → Course s' s'' → Course s s''
  | warn (s : Reading) (what : Warning) : Course s (s.warn what)
  | toPart (s : Reading) (part : BlockPart) : Course s (s.toPart part)
  | write (s : Reading) {f : Block → Block} : (∀ b, (f b).frame = b.frame) →
      (∀ b : Block, b.Continues (f b)) → Course s (s.modifyBlock f)
  | addSeeAlso (s : Reading) (name : Bytes) :
      Course s (s.mapCatalog (·.addSeeAlso s.place.block name))
  | openRegion (s : Reading) : Course s s.openRegion
  | closeRegion (s : Reading) : Course s s.closeRegion
  | startFootnote (s : Reading) : Course s s.startFootnote
  | joinGroup (s : Reading) (command : Command) (argument : Bytes) :
      Course s (s.joinGroup command argument).1
  | defineGroup (s : Reading) (command : Command) (argument : Bytes) :
      Course s (s.defineGroup command argument).1
  | setTarget (s : Reading) (command : Command) (argument : Bytes) :
      Course s (s.setTarget command argument).1

theorem prefix_appendText (description text : Bytes) :
    description <+: appendText description text := by
  unfold appendText
  split <;> exact List.prefix_append _ _

theorem prefix_appendLine (description indent : Bytes) :
    description <+: appendLine description indent := by
  unfold appendLine
  split
  next hempty => simp [List.isEmpty_iff.1 hempty]
  next => exact List.prefix_append _ _

namespace Course

theorem addSeeAlsos (names : List Bytes) (s : Reading) :
    s.Course (s.mapCatalog fun c =>
      names.foldl (·.addSeeAlso s.place.block ·) c) := by
  induction names generalizing s with
  | nil => exact .refl s
  | cons name names ih => exact (addSeeAlso s name).trans (ih _)

variable (s : Reading)

theorem addText (text : Bytes) : s.Course (s.addText text) := by
  unfold Reading.addText
  split
  · exact .write s (fun _ => rfl) fun b =>
      { Block.Continues.refl b with detailed := prefix_appendText _ _ }
  · exact .write s (fun _ => rfl) fun b =>
      { Block.Continues.refl b with brief := prefix_appendText _ _ }
  · exact addSeeAlsos _ s

theorem addLine (indent : Bytes) : s.Course (s.addLine indent) := by
  unfold Reading.addLine
  split
  · exact .write s (fun _ => rfl) fun b =>
      { Block.Continues.refl b with detailed := prefix_appendLine _ _ }
  · exact .write s (fun _ => rfl) fun b =>
      { Block.Continues.refl b with brief := prefix_appendLine _ _ }
  · exact .refl s

theorem addEmptyLine : s.Course s.addEmptyLine := by
  unfold Reading.addEmptyLine
  split
  · exact .addLine s []
  · exact .toPart s .detailed

theorem addNewLine (indent blank : Bytes) (after : List CommentToken) :
    s.Course (s.addNewLine indent blank after) := by
  unfold Reading.addNewLine
  split
  · exact .addEmptyLine s
  · exact .addLine s _
  · exact .addLine s _

theorem addImport (argument : Bytes) : s.Course (s.addImport argument).1 := by
  unfold Reading.addImport
  dsimp only
  split
  · exact .warn s _
  · exact .write s (fun _ => rfl) fun b =>
      { Block.Continues.refl b with imports := List.prefix_append _ _ }

theorem obeyCustom (mark : UInt8) (name argument : Bytes) :
    s.Course (s.obeyCustom mark name argument).1 := by
  unfold Reading.obeyCustom
  split
  · exact .addText s _
  · exact .write s (fun _ => rfl) fun b =>
      { Block.Continues.refl b with tags := List.prefix_append _ _ }

theorem obey (command : Command) (argument : Bytes) :
    s.Course (s.obey command argument).1 := by
  unfold Reading.obey
  split
  · exact .startFootnote s
  · exact .toPart s _
  · exact .toPart s _
  · exact .write s (fun _ => rfl) fun b => { Block.Continues.refl b with }
  · exact .addImport s _
  · exact .defineGroup s _ _
  · exact .defineGroup s _ _
  · exact .joinGroup s _ _
  · exact .setTarget s _ _

theorem readTokens (tokens : List CommentToken) (s : Reading)
    (indent left : Option Bytes) :
    s.Course (s.readTokens indent left tokens) := by
  induction tokens generalizing s indent left with
  | nil => exact .refl s
  | cons token rest ih =>
      unfold Reading.readTokens
      split
      · exact .refl s
      · exact (addText s _).trans (ih _ _ _)
      · exact (addNewLine s _ _ _).trans (ih _ _ _)
      · exact (openRegion s).trans (ih _ _ _)
      · exact (closeRegion s).trans (ih _ _ _)
      · exact (obey s _ _).trans (ih _ _ _)
      · exact (obeyCustom s _ _ _).trans (ih _ _ _)

theorem addSource (comment : Bytes) :
    s.Course (s.addSource comment) :=
  .write s (fun _ => rfl) fun b => { Block.Continues.refl b with }

theorem read (comment : Bytes) :
    s.Course ((s.addSource comment).readText comment) := by
  apply (addSource s comment).trans
  unfold Reading.readText
  split
  · exact .addEmptyLine _
  · exact (addLine _ []).trans (readTokens _ _ _ _)

end Course

end Reading

end LuaGloss
