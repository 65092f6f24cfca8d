import LuaGloss.Files.Path

/-!
# Files in a directory

The path of a file in a directory ends in the name of the file, and what stands
before it depends on the directory alone.  So different names in one directory
have different paths.
-/

namespace LuaGloss

namespace Bytes

theorem splitOn_ne_nil (sep : UInt8) (s : Bytes) : splitOn sep s ≠ [] := by
  cases s with
  | nil => simp [splitOn]
  | cons b rest =>
      rw [splitOn]
      split
      · simp
      · split <;> simp

theorem splitOn_of_not_mem {sep : UInt8} {s : Bytes} (h : sep ∉ s) :
    splitOn sep s = [s] := by
  induction s with
  | nil => rfl
  | cons b rest ih =>
      simp only [List.mem_cons, not_or] at h
      rw [splitOn, if_neg (Ne.symm h.1), ih h.2]

theorem splitOn_append (sep : UInt8) (s t : Bytes) :
    splitOn sep (s ++ sep :: t) = splitOn sep s ++ splitOn sep t := by
  induction s with
  | nil => simp [splitOn]
  | cons b rest ih =>
      rw [List.cons_append, splitOn, splitOn, ih]
      split
      · rfl
      · cases hrest : splitOn sep rest with
        | nil => exact (splitOn_ne_nil sep rest hrest).elim
        | cons piece pieces => rfl

def joinInit (sep : Bytes) (parts : List Bytes) : Bytes := parts.flatMap (· ++ sep)

theorem join_concat (sep : Bytes) (parts : List Bytes) (last : Bytes) :
    join sep (parts ++ [last]) = joinInit sep parts ++ last := by
  unfold join List.intercalate joinInit
  induction parts with
  | nil => simp
  | cons part parts ih =>
      cases parts with
      | nil => simp
      | cons next rest => simpa using ih

end Bytes

namespace Path

/-- The name of a file: one element of a path that is neither empty nor made of
dots. -/
structure IsName (name : Bytes) : Prop where
  slash : Byte.slash ∉ name
  nonempty : name ≠ []
  dot : name ≠ dot
  dotDot : name ≠ dotDot

theorem push_name {name : Bytes} (h : IsName name) (isRooted : Bool)
    (path : List Bytes) : push isRooted path name = name :: path := by
  unfold push
  simp [h.nonempty, h.dot, h.dotDot]

def stem (directory : Bytes) : Bytes :=
  let elements :=
    ((Bytes.splitOn Byte.slash directory).foldl
      (push (isRooted directory)) []).reverse
  (if isRooted directory then [Byte.slash] else []) ++
    Bytes.joinInit [Byte.slash] elements

theorem join_name {name : Bytes} (h : IsName name) (directory : Bytes) :
    join directory name = stem directory ++ name := by
  have hempty : name.isEmpty = false := by simpa using h.nonempty
  -- An empty directory is left out of the path, with the slash behind it.
  cases directory with
  | nil =>
      have hrooted : isRooted name = false := by
        unfold isRooted
        rw [beq_eq_false_iff_ne]
        intro hhead
        exact h.slash (List.mem_of_mem_head? hhead)
      have hjoin : join [] name = clean name := by simp [join, hempty, Bytes.join]
      have helements :
          (Bytes.splitOn Byte.slash name).foldl (push false) [] = [name] := by
        rw [Bytes.splitOn_of_not_mem h.slash]
        exact push_name h false []
      rw [hjoin, clean, hrooted, helements]
      simp [Bytes.join, stem, isRooted, Bytes.splitOn, push,
        Bytes.joinInit, h.nonempty]
  | cons b rest =>
      have hjoin :
          join (b :: rest) name = clean (b :: rest ++ Byte.slash :: name) := by
        simp [join, hempty, Bytes.join]
      have hrooted :
          isRooted (b :: rest ++ Byte.slash :: name) = isRooted (b :: rest) := rfl
      have helements (path : List Bytes) :
          (Bytes.splitOn Byte.slash (b :: rest ++ Byte.slash :: name)).foldl
            (push (isRooted (b :: rest))) path =
            name :: (Bytes.splitOn Byte.slash (b :: rest)).foldl
              (push (isRooted (b :: rest))) path := by
        rw [Bytes.splitOn_append, Bytes.splitOn_of_not_mem h.slash,
          List.foldl_append]
        exact push_name h _ _
      rw [hjoin, clean, hrooted, helements, List.reverse_cons,
        Bytes.join_concat, stem]
      cases isRooted (b :: rest) with
      | true => rfl
      | false => simp [h.nonempty]

theorem join_name_inj {name name' : Bytes} (h : IsName name) (h' : IsName name')
    (directory : Bytes) :
    join directory name = join directory name' ↔ name = name' := by
  rw [join_name h, join_name h']
  exact List.append_right_inj _

end Path

end LuaGloss
