import LuaGloss.Docs.Notice
import LuaGloss.Text.Quoted

/-!
# Listings of notices

A notice on one line, as pairs of names and values.
-/

namespace LuaGloss

def NoticeLevel.text : NoticeLevel → Bytes
  | .debug => utf8 "DEBUG"
  | .info => utf8 "INFO"
  | .warn => utf8 "WARN"

namespace Notice

def valueText : NoticeValue → Bytes
  | .number n => Bytes.ofInt n
  | .text s =>
    let isPlain (rune : Rune) : Bool :=
      rune.isScalar && isPrintable rune.code &&
        !(rune.code == 0x20 || rune.code == 0x22 || rune.code == 0x3D)
    if !s.isEmpty && (Utf8.runes s).all isPlain then s else s.quoted

def line (n : Notice) : Bytes :=
  utf8 "level=" ++ n.level.text ++ utf8 " msg=" ++ valueText (.text n.text)
    ++ (n.attrs.flatMap fun (name, value) => utf8 " " ++ utf8 name ++
      utf8 "=" ++ valueText value) ++ [Byte.lineFeed]

/-- Whether a notice is shown.  Usually remarks on details are not; a quiet run
shows none. -/
def isShown (n : Notice) (isVerbose isQuiet : Bool) : Bool :=
  !isQuiet && (isVerbose || n.level != .debug)

end Notice

end LuaGloss
