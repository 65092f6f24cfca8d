import LuaGloss.Token.Basic
import LuaGloss.Comment.Token

/-!
# Notices

What the library has to say while it works: warnings about the documentation,
which are counted, and remarks on its progress.  A notice is kept as the thing
that happened; its wording is decided here.
-/

namespace LuaGloss

inductive Warning where
  | missingImportName
  | missingGroupName (command : Command)
  | missingTargetName (command : Command)
  | regionWithoutGroup
  | unmatchedRegionEnd
  | blockAlreadyAttached (name : Bytes)
  | itemAlreadyDocumented (name : Bytes)
  | unresolvedReference (command : Command) (name : Bytes) (overload : Int)
  | groupCycle (group parent : Bytes)
  | nothingToReferBackTo
  | ownerIsNoTable (name : Bytes)
  | unresolvedBaseType (name base : Bytes)
  | other (text : Bytes)
  deriving DecidableEq, Repr

inductive Notice where
  | warning (file : Bytes) (pos : Pos) (what : Warning)
  | droppedBlock (file : Bytes) (line : Nat)
  | deletedGroup (name : Bytes)
  | redeclaration (name file : Bytes) (line : Nat)
  | ignoredAssignment (file : Bytes) (line : Nat) (name : Bytes)
  | reading (file : Bytes) (size : Nat)
  | read (file : Bytes) (tokens : Nat)
  | generated (output : Bytes) (files items warnings : Nat)
  deriving DecidableEq, Repr

inductive NoticeLevel where
  | debug
  | info
  | warn
  deriving DecidableEq, Repr

/-- The value of an attribute of a notice. -/
inductive NoticeValue where
  | text (s : Bytes)
  | number (n : Int)
  deriving DecidableEq, Repr

namespace Warning

def text : Warning → Bytes
  | missingImportName => utf8 "missing import name"
  | missingGroupName _ => utf8 "missing group name"
  | missingTargetName _ => utf8 "missing target name"
  | regionWithoutGroup => utf8 "@\x7b without a group"
  | unmatchedRegionEnd => utf8 "unmatched @\x7d"
  | blockAlreadyAttached _ => utf8 "documentation block already attached"
  | itemAlreadyDocumented _ => utf8 "item already documented"
  | unresolvedReference _ _ _ => utf8 "unresolved reference"
  | groupCycle _ _ => utf8 "group nesting cycle"
  | nothingToReferBackTo =>
    utf8 "retroactive comment without preceding declaration"
  | ownerIsNoTable _ => utf8 "function owner is not a declared table"
  | unresolvedBaseType _ _ => utf8 "unresolved base type"
  | other text => text

def attrs : Warning → List (String × NoticeValue)
  | missingGroupName command
  | missingTargetName command => [("command", .text command.text)]
  | blockAlreadyAttached name | itemAlreadyDocumented name
  | ownerIsNoTable name => [("name", .text name)]
  | unresolvedReference command name overload =>
    [("command", .text command.text), ("name", .text name),
      ("overload", .number overload)]
  | groupCycle group parent => [("group", .text group), ("parent", .text parent)]
  | unresolvedBaseType name base => [("name", .text name), ("base", .text base)]
  | missingImportName | regionWithoutGroup | unmatchedRegionEnd
  | nothingToReferBackTo | other _ => []

end Warning

namespace Notice

def level : Notice → NoticeLevel
  | warning _ _ _ => .warn
  | generated _ _ _ _ => .info
  | _ => .debug

def text : Notice → Bytes
  | warning _ _ what => what.text
  | droppedBlock _ _ => utf8 "dropping unattached documentation block"
  | deletedGroup _ => utf8 "deleting empty group"
  | redeclaration _ _ _ => utf8 "redeclaration keeps first declaration"
  | ignoredAssignment _ _ _ => utf8 "assignment to unknown table ignored"
  | reading _ _ => utf8 "parsing"
  | read _ _ => utf8 "parsed file"
  | generated _ _ _ _ => utf8 "documentation generated"

def attrs : Notice → List (String × NoticeValue)
  | warning file pos what =>
    [("file", .text file), ("line", .number pos.line),
      ("col", .number pos.col)] ++ what.attrs
  | droppedBlock file line => [("file", .text file), ("line", .number line)]
  | deletedGroup name => [("group", .text name)]
  | redeclaration name file line =>
    [("name", .text name), ("file", .text file), ("line", .number line)]
  | ignoredAssignment file line name =>
    [("file", .text file), ("line", .number line), ("name", .text name)]
  | reading file size => [("file", .text file), ("bytes", .number size)]
  | read file tokens => [("file", .text file), ("tokens", .number tokens)]
  | generated output files items warnings =>
    [("output", .text output), ("files", .number files),
      ("items", .number items), ("warnings", .number warnings)]

end Notice

end LuaGloss
