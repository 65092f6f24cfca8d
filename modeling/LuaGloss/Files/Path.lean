import LuaGloss.Text.Bytes

/-!
# Path names

Operations on the text of a path, without a look at any directory.  A clean path
has no empty elements, no `.` and no `..` behind a name; the empty path is
written as a dot.
-/

namespace LuaGloss

namespace Path

def dot : Bytes := utf8 "."

def dotDot : Bytes := utf8 ".."

def push (isRooted : Bool) (path : List Bytes) (element : Bytes) : List Bytes :=
  if element.isEmpty || element == dot then path
  else if element == dotDot then
    match path with
    | last :: rest => if last == dotDot then element :: path else rest
    | [] => if isRooted then [] else [element]
  else element :: path

variable (path : Bytes)

def isRooted : Bool := path.head? == some Byte.slash

def clean : Bytes :=
  let elements :=
    ((Bytes.splitOn Byte.slash path).foldl (push (isRooted path)) []).reverse
  let text := Bytes.join [Byte.slash] elements
  if isRooted path then Byte.slash :: text
  else if text.isEmpty then dot
  else text

def directory : Bytes := clean (path.reverse.dropWhile (· != Byte.slash)).reverse

def base : Bytes :=
  if path.isEmpty then dot
  else
    match path.reverse.dropWhile (· == Byte.slash) with
    | [] => [Byte.slash]
    | backwards => (backwards.takeWhile (· != Byte.slash)).reverse

def join (directory name : Bytes) : Bytes :=
  match [directory, name].filter (!·.isEmpty) with
  | [] => []
  | parts => clean (Bytes.join [Byte.slash] parts)

end Path

end LuaGloss
