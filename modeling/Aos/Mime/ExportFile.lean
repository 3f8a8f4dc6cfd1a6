/-
  Aos.Mime.ExportFile — an entity written to a named file.

  `MIME_Util::export_file` opens the file with O_CREAT and O_WRONLY and writes over
  what is there; `MIME_Entity::export_file` opens it with `fopen(filename, "wb")`,
  which cuts it off first.  Neither has another way to make a file shorter.

  Main results:
    • `export_to_eq` — the writes of an exporter are one write of `dump_bytes`;
    • `text_length_eq` — their length, from the strings of the entity;
    • `export_replaces_iff` — both leave what is emitted in the file exactly when the
      file was no longer.
-/
import Aos.Lib.OpenFile
import Aos.Mime.Export

namespace Aos

open MIME_Entity Lib.OpenFile

/-! ## §1. The writes. -/

/-- The loop over `header_`. -/
def write_header_to (no_hidden_header : Bool) (header_ : MIME_Header_List) (fh : File Byte) :
    File Byte :=
  match header_ with
  | [] => fh
  | it :: header_ =>
      if is_hidden no_hidden_header it then write_header_to no_hidden_header header_ fh
      else write_header_to no_hidden_header header_ (fh.write it)

mutual

/-- `export_file_handle(e, fh, flag, no_hidden_header)`, and `dump_file` on a stream; every
    write succeeds. -/
def export_to (flag : Flag) (no_hidden_header : Bool) (e : MIME_Entity) (fh : File Byte) :
    File Byte :=
  match e with
  | ⟨header_, preamble_, body_, epilogue_, child_, status_, pstate_, separator_⟩ =>
      let e : MIME_Entity :=
        ⟨header_, preamble_, body_, epilogue_, child_, status_, pstate_, separator_⟩
      let fh := write_header_to no_hidden_header header_ fh
      if flag = .HEADER then fh
      else
        let fh := fh.write e.preamble
        let fh :=
          if child_ = [] then
            if flag ≠ .NO_BODY then fh.write e.body else fh
          else
            -- dump child
            let fh := export_child_to flag no_hidden_header e.get_boundary child_ fh
            if e.get_boundary ≠ [] then
              ((fh.write (lit "--")).write e.get_boundary).write (lit "--\r\n")
            else fh
        fh.write e.epilogue

/-- The loop over `child_`. -/
def export_child_to (flag : Flag) (no_hidden_header : Bool) (boundary : Bytes)
    (child_ : List MIME_Entity) (fh : File Byte) : File Byte :=
  match child_ with
  | [] => fh
  | it :: child_ =>
      let fh :=
        if boundary ≠ [] then ((fh.write (lit "--")).write boundary).write (lit "\r\n") else fh
      export_child_to flag no_hidden_header boundary child_
        (export_to flag no_hidden_header it fh)

end

/-- `MIME_Util::export_file(e, filename, flag, no_hidden_header)`: what is in the file behind
    it, `old` being what was there. -/
def handle_export_file (old : Option Bytes) (e : MIME_Entity) (flag : Flag)
    (no_hidden_header : Bool) : Bytes :=
  (export_to flag no_hidden_header e (File.existing old)).content

/-- `MIME_Entity::export_file(filename, flag, no_hidden_header)`, which is `dump_file` on the
    stream it opens. -/
def stream_export_file (old : Option Bytes) (e : MIME_Entity) (flag : Flag)
    (no_hidden_header : Bool) : Bytes :=
  (export_to flag no_hidden_header e (File.truncated old)).content

theorem write_header_to_eq (no_hidden_header : Bool) (hs : MIME_Header_List) :
    ∀ fh : File Byte,
      write_header_to no_hidden_header hs fh = fh.write (dump_header no_hidden_header hs) := by
  induction hs with
  | nil => intro fh; exact (File.write_nil fh).symm
  | cons it hs ih =>
      intro fh
      rw [write_header_to, dump_header]
      split
      · exact ih fh
      · rw [ih, File.write_write]

theorem export_child_to_eq (flag : Flag) (no_hidden_header : Bool) (boundary : Bytes)
    (es : List MIME_Entity)
    (h : ∀ e ∈ es, ∀ fh : File Byte,
      export_to flag no_hidden_header e fh = fh.write (dump_bytes flag no_hidden_header e)) :
    ∀ fh : File Byte, export_child_to flag no_hidden_header boundary es fh
      = fh.write (es.flatMap fun c =>
        (if boundary ≠ [] then boundary_line boundary else [])
          ++ dump_bytes flag no_hidden_header c) := by
  induction es with
  | nil => intro fh; exact (File.write_nil fh).symm
  | cons e es ih =>
      intro fh
      rw [export_child_to, ih (fun c hc => h c (List.mem_cons_of_mem e hc)),
        h e List.mem_cons_self, List.flatMap_cons]
      by_cases hb : boundary = []
      · simp [hb]
      · simp [hb, boundary_line]

/-- **The writes of an exporter are one write of `dump_bytes`.** -/
theorem export_to_eq (flag : Flag) (no_hidden_header : Bool) :
    ∀ (e : MIME_Entity) (fh : File Byte),
      export_to flag no_hidden_header e fh = fh.write (dump_bytes flag no_hidden_header e) := by
  intro e
  induction e using MIME_Entity.induct with
  | h e ih =>
      intro fh
      rw [dump_bytes_eq]
      obtain ⟨header_, preamble_, body_, epilogue_, child_, status_, pstate_, separator_⟩ := e
      rw [export_to]
      unfold compose
      dsimp only
      rw [write_header_to_eq]
      by_cases hflag : flag = .HEADER
      · rw [if_pos hflag, if_pos hflag, List.append_nil]
      · rw [if_neg hflag, if_neg hflag]
        by_cases hchild : child_ = []
        · by_cases hbody : flag = .NO_BODY
          · simp [hchild, hbody]
          · simp [hchild, hbody]
        · rw [if_neg hchild, if_neg hchild,
            export_child_to_eq flag no_hidden_header _ child_ ih]
          generalize MIME_Entity.get_boundary ⟨header_, preamble_, body_, epilogue_, child_,
            status_, pstate_, separator_⟩ = boundary
          by_cases hb : boundary = []
          · simp [hb]
          · simp [hb, boundary_end_line]

/-! ## §2. How much is written. -/

/-- The fields that are not left out. -/
def header_length (no_hidden_header : Bool) (header_ : MIME_Header_List) : Nat :=
  match header_ with
  | [] => 0
  | it :: header_ =>
      (if is_hidden no_hidden_header it then 0 else it.length)
        + header_length no_hidden_header header_

mutual

/-- The strings of an entity and of its parts, as far as the flag selects them; two dashes
    and a line end stand around each boundary, and two more dashes behind the last. -/
def text_length (flag : Flag) (no_hidden_header : Bool) : MIME_Entity → Nat
  | ⟨header_, preamble_, body_, epilogue_, child_, status_, pstate_, separator_⟩ =>
      let e : MIME_Entity :=
        ⟨header_, preamble_, body_, epilogue_, child_, status_, pstate_, separator_⟩
      header_length no_hidden_header header_ +
        if flag = .HEADER then 0
        else
          e.preamble.length
            + (if child_ = [] then if flag = .NO_BODY then 0 else e.body.length
              else
                child_length flag no_hidden_header e.get_boundary child_
                  + if e.get_boundary ≠ [] then e.get_boundary.length + 6 else 0)
            + e.epilogue.length

def child_length (flag : Flag) (no_hidden_header : Bool) (boundary : Bytes) :
    List MIME_Entity → Nat
  | [] => 0
  | it :: child_ =>
      (if boundary ≠ [] then boundary.length + 4 else 0)
        + text_length flag no_hidden_header it
        + child_length flag no_hidden_header boundary child_

end

theorem header_length_eq (no_hidden_header : Bool) (hs : MIME_Header_List) :
    (dump_header no_hidden_header hs).length = header_length no_hidden_header hs := by
  induction hs with
  | nil => rfl
  | cons it hs ih =>
      rw [dump_header, header_length, ← ih]
      split
      · exact (Nat.zero_add _).symm
      · exact List.length_append

theorem child_dump_length (flag : Flag) (no_hidden_header : Bool) (boundary : Bytes)
    (es : List MIME_Entity)
    (h : ∀ e ∈ es,
      (dump_bytes flag no_hidden_header e).length = text_length flag no_hidden_header e) :
    (es.flatMap fun c => (if boundary ≠ [] then boundary_line boundary else [])
        ++ dump_bytes flag no_hidden_header c).length
      = child_length flag no_hidden_header boundary es := by
  induction es with
  | nil => rfl
  | cons e es ih =>
      rw [List.flatMap_cons, List.length_append, List.length_append,
        ih (fun c hc => h c (List.mem_cons_of_mem e hc)), h e List.mem_cons_self, child_length]
      split
      · rw [boundary_line_length]
      · rfl

/-- **The length of what is written is that of the strings.** -/
theorem text_length_eq (flag : Flag) (no_hidden_header : Bool) :
    ∀ e : MIME_Entity,
      (dump_bytes flag no_hidden_header e).length = text_length flag no_hidden_header e := by
  intro e
  induction e using MIME_Entity.induct with
  | h e ih =>
      rw [dump_bytes_eq]
      obtain ⟨header_, preamble_, body_, epilogue_, child_, status_, pstate_, separator_⟩ := e
      rw [text_length]
      unfold compose
      dsimp only
      rw [List.length_append, header_length_eq]
      by_cases hflag : flag = .HEADER
      · rw [if_pos hflag, if_pos hflag, List.length_nil]
      · rw [if_neg hflag, if_neg hflag, List.length_append, List.length_append]
        by_cases hchild : child_ = []
        · rw [if_pos hchild, if_pos hchild]
          by_cases hbody : flag = .NO_BODY
          · rw [if_pos hbody, if_pos hbody, List.length_nil]
          · rw [if_neg hbody, if_neg hbody]
        · rw [if_neg hchild, if_neg hchild, List.length_append,
            child_dump_length flag no_hidden_header _ child_ ih]
          split
          · rw [boundary_end_line_length]
          · rw [List.length_nil]

/-! ## §3. The file. -/

theorem stream_export_file_eq (old : Option Bytes) (e : MIME_Entity) (flag : Flag)
    (no_hidden_header : Bool) :
    stream_export_file old e flag no_hidden_header = dump_bytes flag no_hidden_header e := by
  unfold stream_export_file
  rw [export_to_eq, File.content_truncated]

/-- What `MIME_Util::export_file` writes is written over what is there. -/
theorem handle_export_file_eq (old : Option Bytes) (e : MIME_Entity) (flag : Flag)
    (no_hidden_header : Bool) :
    handle_export_file old e flag no_hidden_header
      = ((File.existing old).write (dump_bytes flag no_hidden_header e)).content := by
  unfold handle_export_file
  rw [export_to_eq]

/-- **Both exporters leave in the file what `export_file_handle` emits, as `dump_file` does on
    its stream, exactly when the file was no longer than the strings of the entity.** -/
theorem export_replaces_iff (old : Option Bytes) (e : MIME_Entity) (flag : Flag)
    (no_hidden_header : Bool) :
    (handle_export_file old e flag no_hidden_header
          = (export_file_handle e flag no_hidden_header).bytes ∧
        stream_export_file old e flag no_hidden_header
          = (export_file_handle e flag no_hidden_header).bytes ∧
        (dump_file e flag no_hidden_header).bytes
          = (export_file_handle e flag no_hidden_header).bytes)
      ↔ (old.getD []).length ≤ text_length flag no_hidden_header e := by
  rw [export_file_handle_bytes, handle_export_file_eq, File.overwrite_eq_iff, text_length_eq]
  exact ⟨fun h => h.1, fun h => ⟨h, stream_export_file_eq old e flag no_hidden_header, rfl⟩⟩

/-- A field that is written over a longer file. -/
theorem export_keeps_tail :
    ¬(handle_export_file (some (lit "X: a longer text\r\n"))
          ⟨[lit "A: b\r\n"], none, none, none, [], 0, .HEADER, []⟩ .ALL true
        = (export_file_handle ⟨[lit "A: b\r\n"], none, none, none, [], 0, .HEADER, []⟩ .ALL
          true).bytes ∧
      stream_export_file (some (lit "X: a longer text\r\n"))
          ⟨[lit "A: b\r\n"], none, none, none, [], 0, .HEADER, []⟩ .ALL true
        = (export_file_handle ⟨[lit "A: b\r\n"], none, none, none, [], 0, .HEADER, []⟩ .ALL
          true).bytes) := by
  rw [handle_export_file_eq, export_file_handle_bytes, File.overwrite_eq_iff, text_length_eq]
  rintro ⟨hdrop, -⟩
  exact absurd hdrop (by decide)

end Aos
