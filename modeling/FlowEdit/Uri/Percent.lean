import FlowEdit.Uri.Utf8

/-!
Percent decoding: `%` and two hexadecimal digits stand for a byte, and the bytes are read as UTF-8
together with the ASCII characters between them. A `%` without two such digits stands for itself.
-/

namespace FlowEdit.Percent

/-- Part of a percent-encoded text: a byte of a character, or a whole one that is not ASCII. -/
inductive Piece
  | byte (b : UInt8)
  | char (c : Char)
  deriving DecidableEq, Repr

def Piece.ofChar (c : Char) : Piece :=
  if c.toNat < 0x80 then .byte (UInt8.ofNat c.toNat) else .char c

def pieces : Text → List Piece
  | [] => []
  | '%' :: h :: l :: t =>
    if Text.isHexDigit h && Text.isHexDigit l then
      .byte (UInt8.ofNat (16 * Text.digitValue h + Text.digitValue l)) :: pieces t
    else Piece.ofChar '%' :: pieces (h :: l :: t)
  | c :: t => Piece.ofChar c :: pieces t

/-- Put pieces together. Bytes are decoded in one go up to the next whole character. -/
def join (s : Utf8.State) : List Piece → Text
  | [] => s.finish
  | .byte b :: ps => (s.step b).1 ++ join (s.step b).2 ps
  | .char c :: ps => s.finish ++ c :: join .start ps

def decode (t : Text) : Text := join .start (pieces t)

end FlowEdit.Percent
