import LuaGloss.Proofs.Page.Press
import LuaGloss.Proofs.Run.Steps

/-!
# The files of a run

The pages and the index of a run, as they are written, and what is left when all
went well: the views of the catalog say what the pages and the index are, and
the files hold nothing else.
-/

namespace LuaGloss

namespace Run

def directory (run : Run) (output : Bytes) : Bytes :=
  Path.directory (run.indexPath output)

/-- The files that are written with the documentation, in their order: the
pages, and the index if all went well. -/
def written (run : Run) (tree : FileTree) (output : Bytes) :
    List (Bytes × Bytes) :=
  match run.press tree output with
  | .ok _ p => p.files (run.directory output) (Path.base (run.indexPath output))
  | .error _ p => p.pages.map (Page.file (run.directory output))

/-- Besides directories, the files that were written are all that is new. -/
def Wrote (run : Run) (tree : FileTree) (output : Bytes) : Prop :=
  ∃ made, tree.makeDirectories (run.directory output) = .ok made ∧
    made.writeAll (run.written tree output) = .ok (run.generate tree output).2.2

theorem press_settles {run : Run} (hc : run.catalog.Consistent)
    {tree : FileTree} {output : Bytes} {p : Press}
    (h : run.press tree output = .ok () p) :
    run.catalog.finalize.Renders p.catalog ∧
      p.catalog.Settles View.sheets ⟨p.index, p.pages⟩ ∧
      run.written tree output = p.files (run.directory output)
        (Path.base (run.indexPath output)) ∧
      run.Wrote tree output := by
  obtain ⟨hrenders, hsettles, made, hmade, htree⟩ := Catalog.press_settles hc h
  have hwritten : run.written tree output =
      p.files (run.directory output) (Path.base (run.indexPath output)) := by
    simp only [written, h]
  have hresult : (run.generate tree output).2.2 = p.tree := by
    rw [generate_eq, h]
  refine ⟨hrenders, hsettles, hwritten, made, hmade, ?_⟩
  rw [hwritten, hresult]
  exact htree

end Run

end LuaGloss
