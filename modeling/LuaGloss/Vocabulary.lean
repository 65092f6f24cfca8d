import LuaGloss.Item.Kind

/-!
# Vocabulary of custom commands

A comment can carry commands that the comment language itself does not know.  A
custom command leaves a tag in the documentation block, possibly with its
parameter filled in; the tags decide later which kind of variable the block
documents and which base type it has.
-/

namespace LuaGloss

structure CustomCommand where
  name : Bytes
  /-- What the command leaves behind; `%s` stands for its parameter. -/
  tag : Bytes
  kind : VariableKind
  takesParam : Bool
  isBaseType : Bool
  deriving DecidableEq, Repr

namespace CustomCommand

def fill (param : Bytes) : Bytes → Bytes
  | Byte.percent :: 115 :: rest => param ++ fill param rest
  | b :: rest => b :: fill param rest
  | [] => []

def leaves (command : CustomCommand) (param : Bytes) : Bytes :=
  if command.takesParam then fill param command.tag else command.tag

/-- Whether the tags that were left decide that the variable is of this
command's kind. -/
def marks (command : CustomCommand) (tags : Bytes) : Bool :=
  !command.takesParam && command.kind != .normal && !command.tag.isEmpty &&
    tags.contains command.tag

/-- The parameter of the command's first tag among the tags that were left. -/
def baseType? (command : CustomCommand) (tags : Bytes) : Option Bytes :=
  if command.isBaseType then
    match Bytes.cut (utf8 "%s") command.tag with
    | none => none
    | some (before, after) =>
      match Bytes.cut before tags with
      | none => none
      | some (_, rest) =>
        if after.isEmpty then some rest else (Bytes.cut after rest).map Prod.fst
  else none

end CustomCommand

/-- Custom commands in the order of their first registration, each name once. -/
structure Vocabulary where
  commands : List CustomCommand
  deriving DecidableEq, Repr

namespace Vocabulary

def empty : Vocabulary := ⟨[]⟩

/-- Registers a command; one of the same name is replaced and keeps its
place. -/
def add (v : Vocabulary) (command : CustomCommand) : Vocabulary :=
  if v.commands.any (·.name == command.name) then
    ⟨v.commands.map fun old => if old.name == command.name then command else old⟩
  else ⟨v.commands ++ [command]⟩

def find? (v : Vocabulary) (name : Bytes) : Option CustomCommand :=
  v.commands.find? (·.name == name)

def default : Vocabulary :=
  ⟨[⟨utf8 "luastruct", utf8 ":luastruct:", .struct, false, false⟩,
    ⟨utf8 "luaenum", utf8 ":luaenum:", .enum, false, false⟩,
    ⟨utf8 "luaclass", utf8 ":luaclass:", .class_, false, false⟩,
    ⟨utf8 "luamodule", utf8 ":luamodule:", .module_, false, false⟩,
    ⟨utf8 "luabasetype", utf8 ":luabasetype(%s)", .normal, true, true⟩]⟩

/-- The kind of the first command, in the order of the vocabulary, whose tag was
left. -/
def classify (v : Vocabulary) (tags : Bytes) : VariableKind :=
  match v.commands.find? (·.marks tags) with
  | some command => command.kind
  | none => .normal

def baseType (v : Vocabulary) (tags : Bytes) : Bytes :=
  (v.commands.findSome? (·.baseType? tags)).getD []

end Vocabulary

end LuaGloss
