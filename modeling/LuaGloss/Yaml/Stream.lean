import LuaGloss.Text.Utf8

/-!
# YAML streams

A stream is a text in UTF-8 or, if it starts with the byte order mark of that
encoding, in UTF-16.  It is decoded in chunks, and a chunk is checked as a whole
before any of its characters can be seen.  So a fault in a stream does no harm
as long as nobody asks for a character of the chunk that it is in.
-/

namespace LuaGloss.Yaml

inductive Encoding where
  | utf8
  | utf16 (isLittleEndian : Bool)
  deriving DecidableEq, Repr

/-- What stands at the front of some bytes. -/
inductive Decoding where
  /-- A character, and how many bytes it takes beyond the first. -/
  | character (code more : Nat)
  /-- The beginning of a character that is not complete. -/
  | incomplete
  | invalid
  deriving DecidableEq, Repr

def isTextCode (code : Nat) : Bool :=
  code == 0x09 || code == 0x0A || code == 0x0D ||
    (0x20 ≤ code && code ≤ 0x7E) || code == 0x85
    || (0xA0 ≤ code && code ≤ 0xD7FF) || (0xE000 ≤ code && code ≤ 0xFFFD) ||
      (0x10000 ≤ code && code ≤ 0x10FFFF)

namespace Decoding

def ofCode (code more : Nat) : Decoding :=
  if isTextCode code then .character code more else .invalid

/-- The character of `more + 1` bytes whose first byte holds `lead`.  It needs
that many bytes only if it is no less than `least`. -/
def ofTail (lead more least : Nat) (rest : Bytes) : Decoding :=
  let tail := rest.take more
  if tail.length < more then .incomplete
  else
    let code := tail.foldl (fun code b => code * 64 + b.toNat % 64) lead
    if tail.all Utf8.isTail && least ≤ code then ofCode code more else .invalid

def ofUtf8 (a : UInt8) (rest : Bytes) : Decoding :=
  if a < 0x80 then ofCode a.toNat 0
  else if a < 0xC0 then .invalid
  else if a < 0xE0 then ofTail (a.toNat - 0xC0) 1 0x80 rest
  else if a < 0xF0 then ofTail (a.toNat - 0xE0) 2 0x800 rest
  else if a < 0xF8 then ofTail (a.toNat - 0xF0) 3 0x10000 rest
  else .invalid

def isHighSurrogate (unit : Nat) : Bool := 0xD800 ≤ unit && unit ≤ 0xDBFF

def isLowSurrogate (unit : Nat) : Bool := 0xDC00 ≤ unit && unit ≤ 0xDFFF

def ofUtf16 (isLittleEndian : Bool) (a : UInt8) (rest : Bytes) : Decoding :=
  let unit (first second : UInt8) : Nat :=
    if isLittleEndian then second.toNat * 256 + first.toNat
      else first.toNat * 256 + second.toNat
  match rest with
  | [] => .incomplete
  | b :: rest =>
    let high := unit a b
    if isLowSurrogate high then .invalid
    else if isHighSurrogate high then
      match rest with
      | c :: d :: _ =>
        let low := unit c d
        if isLowSurrogate low then
          ofCode (0x10000 + (high - 0xD800) * 0x400 + (low - 0xDC00)) 3
        else .invalid
      | _ => .incomplete
    else ofCode high 1

end Decoding

namespace Encoding

def decode (encoding : Encoding) (a : UInt8) (rest : Bytes) : Decoding :=
  match encoding with
  | .utf8 => .ofUtf8 a rest
  | .utf16 isLittleEndian => .ofUtf16 isLittleEndian a rest

/-- The characters of some bytes, and the beginning of a character that is
left. -/
def decodeAll (encoding : Encoding) (s : Bytes) : Option (List Nat × Bytes) :=
  match s with
  | [] => some ([], [])
  | a :: rest =>
    match encoding.decode a rest with
    | .character code more =>
      (encoding.decodeAll (rest.drop more)).map fun (codes, left) =>
        (code :: codes, left)
    | .incomplete => some ([], a :: rest)
    | .invalid => none
termination_by s.length
decreasing_by
  simp only [List.length_drop, List.length_cons]
  omega

def ofStream : Bytes → Encoding × Nat
  | 0xFF :: 0xFE :: _ => (.utf16 true, 2)
  | 0xFE :: 0xFF :: _ => (.utf16 false, 2)
  | 0xEF :: 0xBB :: 0xBF :: _ => (.utf8, 3)
  | _ => (.utf8, 0)

end Encoding

structure Stream where
  /-- The characters of the chunks in front of the first fault. -/
  chunks : List (List Nat)
  /-- Whether a fault follows, and not the end. -/
  isBroken : Bool
  deriving DecidableEq, Repr

namespace Stream

def chunkSize : Nat := 512

/-- The chunks of a stream of which `used` bytes of the first chunk are gone
already.  A character that is cut by the end of a chunk is left over and belongs
to the next one. -/
def ofRest (encoding : Encoding) (used : Nat) (left : Bytes) (s : Bytes) :
    Stream :=
  match s with
  | [] => ⟨[], !left.isEmpty⟩
  | a :: rest =>
    let room := chunkSize - used - 1
    match encoding.decodeAll (left ++ a :: rest.take room) with
    | none => ⟨[], true⟩
    | some (codes, left) =>
      let next := ofRest encoding left.length left (rest.drop room)
      { next with chunks := codes :: next.chunks }
termination_by s.length
decreasing_by
  simp only [List.length_drop, List.length_cons]
  omega

def ofBytes (s : Bytes) : Stream :=
  let (encoding, used) := Encoding.ofStream s
  ofRest encoding used [] (s.drop used)

def size (stream : Stream) : Nat :=
  stream.chunks.foldl (fun size chunk => size + chunk.length) 0

end Stream

end LuaGloss.Yaml
