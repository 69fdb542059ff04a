import TinyOS.Lib.Utf8

/-!
# The shell's line-reading loop

`repl` of `phase_6_shell/user/src/bin/sh.rs`, driven by an endless stream of read results. One byte
is read at a time and put into a buffer of 256 bytes at a cursor that nothing checks; a newline ends
the line, which is skipped if it is blank or not UTF-8 and handed on to `parse_line` otherwise.
A longer line is an index out of bounds, and that is the only way to fail
(`sound_iff_lines_fit`).

`parse_line` is a parameter, and a call of `run_pipeline` is recorded. Left out: the prompt, the
echo and the error message, whose writes the loop does not look at.
-/

namespace TinyOS.Shell

/-- `struct Command`: a single parsed command inside a pipeline, with its redirections. -/
structure Command where
  argv : List String
  stdinFile : Option String
  stdoutFile : Option String

/-- `char::is_whitespace`, which is the property `White_Space` of Unicode, range by range. -/
def isWhitespace (c : Char) : Bool :=
  (0x9 ≤ c.toNat && c.toNat ≤ 0xd) || (0x2000 ≤ c.toNat && c.toNat ≤ 0x200a) ||
    [0x20, 0x85, 0xa0, 0x1680, 0x2028, 0x2029, 0x202f, 0x205f, 0x3000].contains c.toNat

/-- `str::trim`: the text without the white space at its two ends. -/
def trim (s : String) : String :=
  String.ofList ((s.toList.dropWhile isWhitespace).rdropWhile isWhitespace)

/-- `core::str::from_utf8(bytes).unwrap_or("")`: the text of the bytes, or none if they are not
UTF-8. -/
def fromUtf8OrEmpty (bytes : List UInt8) : String := (String.fromUTF8? bytes.toByteArray).getD ""

/-- What became of a line: blank ones are skipped, and one of them makes the shell exit. -/
inductive Handled where
  | skipped
  | exit
  | syntaxError (line : String)
  | ran (line : String) (cmds : List Command) (bg : Bool)

/-- What the shell does: it reads on, has exited, or has panicked. -/
inductive Status where
  | reading
  | exited
  /-- The panic of an array index out of bounds. -/
  | panicked (index : Nat)

/-- The locals of `main` in `shell.rs`, and what became of the lines so far. -/
structure Repl where
  buf : Vector UInt8 256
  cursor : Nat
  handled : List Handled
  status : Status

namespace Repl

/-- The shell at the head of its loop: an empty buffer, with the cursor at its start. -/
def init : Repl := ⟨Vector.replicate 256 0, 0, [], .reading⟩

variable (parseLine : String → List Command × Bool)

/-- The body of the outer loop after a newline: the line is skipped, ends the shell, or is
parsed and run. -/
def endLine (s : Repl) : Repl :=
  let line := fromUtf8OrEmpty (s.buf.toList.take s.cursor)
  if trim line = "" then { s with cursor := 0, handled := s.handled ++ [.skipped] }
  else if trim line = "exit" then
    { s with handled := s.handled ++ [.exit], status := .exited }
  else
    let (cmds, bg) := parseLine line
    if cmds.isEmpty then { s with cursor := 0, handled := s.handled ++ [.syntaxError line] }
    else { s with cursor := 0, handled := s.handled ++ [.ran line cmds bg] }

/-- One round of the inner loop, if `read` returns `ret` and leaves `ch`. -/
def read (s : Repl) (ret : Int) (ch : UInt8) : Repl :=
  if ret ≤ 0 then s
  else if ch = 10 then s.endLine parseLine
  else if h : s.cursor < 256 then
    { s with buf := s.buf.set s.cursor ch h, cursor := s.cursor + 1 }
  else { s with status := .panicked s.cursor }

/-- The shell after the first `n` reads; one that has exited or panicked reads no more. -/
def after (reads : Nat → Int × UInt8) : Nat → Repl
  | 0 => init
  | n + 1 =>
    match (after reads n).status with
    | .reading => (after reads n).read parseLine (reads n).1 (reads n).2
    | _ => after reads n

end Repl

/-! ## What arrives -/

/-- The complete lines and the bytes after the last newline. -/
structure Lines where
  complete : List (List UInt8)
  pending : List UInt8

/-- One byte more: a newline completes the line, any other byte belongs to the last one. -/
def Lines.add (l : Lines) (b : UInt8) : Lines :=
  if b = 10 then ⟨l.complete ++ [l.pending], []⟩ else ⟨l.complete, l.pending ++ [b]⟩

/-- The lines of some bytes, and what comes after the last newline. -/
def lines (bytes : List UInt8) : Lines := bytes.foldl Lines.add ⟨[], []⟩

/-- The bytes that the first `n` reads deliver, one for each read that returns a positive count. -/
def received (reads : Nat → Int × UInt8) (n : Nat) : List UInt8 :=
  ((List.range n).filter fun i => 0 < (reads i).1).map fun i => (reads i).2

/-- The lines contain no newline, and with their newlines they are the bytes. -/
theorem lines_spec (bytes : List UInt8) :
    ((lines bytes).complete.flatMap (· ++ [10])) ++ (lines bytes).pending = bytes ∧
      (∀ l ∈ (lines bytes).complete, 10 ∉ l) ∧ 10 ∉ (lines bytes).pending := by
  induction bytes using List.reverseRecOn with
  | nil => exact ⟨rfl, nofun, nofun⟩
  | append_singleton bytes b ih =>
    obtain ⟨hbytes, hcomplete, hpending⟩ := ih
    rw [lines, List.foldl_append, ← lines, List.foldl_cons, List.foldl_nil, Lines.add]
    split
    · rename_i hb
      subst hb
      refine ⟨?_, ?_, nofun⟩
      · rw [List.flatMap_append, List.append_nil, List.flatMap_singleton, ← List.append_assoc,
          hbytes]
      · rw [List.forall_mem_append]
        exact ⟨hcomplete, List.forall_mem_singleton.mpr hpending⟩
    · rename_i hb
      refine ⟨by rw [← List.append_assoc, hbytes], hcomplete, ?_⟩
      rw [List.mem_append, List.mem_singleton, not_or]
      exact ⟨hpending, Ne.symm hb⟩

/-- One read more delivers one byte more, if it returns a positive count. -/
theorem received_succ (reads : Nat → Int × UInt8) (n : Nat) :
    received reads (n + 1) =
      received reads n ++ if 0 < (reads n).1 then [(reads n).2] else [] := by
  rw [received, List.range_succ, List.filter_append, List.map_append, ← received]
  by_cases h : 0 < (reads n).1 <;> simp [h]

/-! ## What becomes of a line -/

/-- The line makes the shell exit: trimmed, it is the word. -/
def SaysExit (line : List UInt8) : Prop := trim (fromUtf8OrEmpty line) = "exit"

/-- A line is handed on as it is. It is skipped only if it is blank or no string at all. -/
def Handled.Faithful (line : List UInt8) : Handled → Prop
  | skipped => ∀ s : String, s.toByteArray.data.toList = line → trim s = ""
  | exit => ∃ s : String, s.toByteArray.data.toList = line ∧ trim s = "exit"
  | syntaxError s | ran s _ _ => s.toByteArray.data.toList = line

/-- The shell has done with the lines what it should. -/
structure Sound (s : Repl) (l : Lines) : Prop where
  inBounds : ∀ index, s.status ≠ .panicked index
  handled : ∃ first, first <+: l.complete ∧ List.Forall₂ Handled.Faithful first s.handled
  reading : s.status = .reading → s.handled.length = l.complete.length ∧
    s.buf.toList.take s.cursor = l.pending ∧ s.cursor = l.pending.length
  exited : s.status = .exited → .exit ∈ s.handled

variable {parseLine : String → List Command × Bool} {s : Repl}

/-- A line that is not blank is a string: bytes that are not UTF-8 read as the empty text. -/
theorem bytes_fromUtf8OrEmpty {line : List UInt8} (h : trim (fromUtf8OrEmpty line) ≠ "") :
    (fromUtf8OrEmpty line).toByteArray.data.toList = line := by
  by_cases hvalid : Utf8.Valid line
  · obtain ⟨t, ht, hbytes⟩ := Utf8.fromUTF8?_of_valid hvalid
    rw [fromUtf8OrEmpty, ht, Option.getD_some, hbytes]
  · refine absurd ?_ h
    rw [fromUtf8OrEmpty, Utf8.fromUTF8?_of_not_valid hvalid]
    decide

/-- The bytes of a text are read back as this text. -/
theorem fromUtf8OrEmpty_bytes (t : String) : fromUtf8OrEmpty t.toByteArray.data.toList = t := by
  have hback : t.toByteArray.data.toList.toByteArray = t.toByteArray :=
    ByteArray.ext (List.data_toByteArray.trans Array.toArray_toList)
  rw [fromUtf8OrEmpty, hback, String.fromUTF8?, dif_pos t.isValidUTF8]
  rfl

/-- The end of a line: the shell has done with it what it should, and goes on or exits. -/
theorem Repl.endLine_cases (parseLine : String → List Command × Bool) {line : List UInt8}
    (hline : s.buf.toList.take s.cursor = line) :
    (∃ h, s.endLine parseLine = { s with cursor := 0, handled := s.handled ++ [h] } ∧
      h.Faithful line ∧ ¬ SaysExit line) ∨
    s.endLine parseLine = { s with handled := s.handled ++ [.exit], status := .exited } ∧
      Handled.exit.Faithful line ∧ SaysExit line := by
  rw [endLine, hline]
  dsimp only
  split
  · rename_i hblank
    refine .inl ⟨.skipped, rfl, ?_, ?_⟩
    · rintro t rfl
      rwa [fromUtf8OrEmpty_bytes] at hblank
    · rw [SaysExit, hblank]
      decide
  · rename_i hblank
    have hbytes := bytes_fromUtf8OrEmpty hblank
    split
    · rename_i hexit
      exact .inr ⟨rfl, ⟨_, hbytes, hexit⟩, hexit⟩
    · rename_i hexit
      split
      · exact .inl ⟨_, rfl, hbytes, hexit⟩
      · exact .inl ⟨_, rfl, hbytes, hexit⟩

/-- A byte put at the cursor is the one behind those that are there. -/
theorem take_set (buf : Vector UInt8 256) {cursor : Nat} (h : cursor < 256) (ch : UInt8) :
    (buf.set cursor ch h).toList.take (cursor + 1) = buf.toList.take cursor ++ [ch] := by
  have hlen : cursor < buf.toList.length := by rw [Vector.length_toList]; exact h
  rw [Vector.toList_set, List.take_add_one, List.take_set_of_le (Nat.le_refl _),
    List.getElem?_set_self hlen]
  rfl

/-! ## Whole runs -/

/-- A line gets longer than the buffer before one of them says `exit`. -/
def Overflows (reads : Nat → Int × UInt8) : Prop :=
  ∃ n, 256 < (lines (received reads n)).pending.length ∧
    ∀ line ∈ (lines (received reads n)).complete, ¬ SaysExit line

/-- The shell waits for the next byte, with the unfinished line in its buffer. -/
structure Reading (s : Repl) (l : Lines) : Prop where
  status : s.status = .reading
  le : s.cursor ≤ 256
  buf : s.buf.toList.take s.cursor = l.pending
  handled : List.Forall₂ Handled.Faithful l.complete s.handled
  noExit : ∀ line ∈ l.complete, ¬ SaysExit line

/-- The invariant of the loop: the shell reads, or has exited for a line that says so, or has
panicked where one overflows. -/
inductive Inv (overflows : Prop) (s : Repl) (l : Lines) : Prop
  | reading (h : Reading s l)
  | exited (hs : s.status = .exited) {first : List (List UInt8)} (hfirst : first <+: l.complete)
      (hhandled : List.Forall₂ Handled.Faithful first s.handled) (hexit : .exit ∈ s.handled)
      (hword : ∃ line ∈ first, SaysExit line)
  | panicked {index : Nat} (hs : s.status = .panicked index) (hoverflows : overflows)

variable {l : Lines}

/-- The cursor is behind the bytes of the unfinished line. -/
theorem Reading.cursor_eq (h : Reading s l) : s.cursor = l.pending.length := by
  have hle := h.le
  rw [← h.buf, List.length_take, Vector.length_toList]
  omega

/-- A round of the loop that gets a byte keeps the invariant. -/
theorem Reading.read (h : Reading s l) {overflows : Prop} {ret : Int} (hret : 0 < ret) (ch : UInt8)
    (hover : 256 < (l.add ch).pending.length → (∀ line ∈ (l.add ch).complete, ¬ SaysExit line) →
      overflows) :
    Inv overflows (s.read parseLine ret ch) (l.add ch) := by
  have hcursor := h.cursor_eq
  rw [Repl.read, if_neg (not_le.mpr hret)]
  unfold Lines.add at hover ⊢
  by_cases hch : ch = 10
  · rw [if_pos hch, if_pos hch]
    obtain ⟨handled, hend, hfaithful, hword⟩ | ⟨hend, hfaithful, hword⟩ :=
      Repl.endLine_cases parseLine h.buf
    · rw [hend]
      refine .reading ⟨h.status, Nat.zero_le _, rfl, ?_, ?_⟩
      · exact List.rel_append h.handled (.cons hfaithful .nil)
      · rw [List.forall_mem_append]
        exact ⟨h.noExit, List.forall_mem_singleton.mpr hword⟩
    · rw [hend]
      refine .exited rfl List.prefix_rfl ?_ ?_ ⟨l.pending, ?_, hword⟩
      · exact List.rel_append h.handled (.cons hfaithful .nil)
      · exact List.mem_append_right _ (List.mem_singleton_self _)
      · exact List.mem_append_right _ (List.mem_singleton_self _)
  · rw [if_neg hch] at hover ⊢
    rw [if_neg hch]
    split
    · rename_i hlt
      refine .reading ⟨h.status, hlt, ?_, h.handled, h.noExit⟩
      rw [take_set, h.buf]
    · -- the cursor is behind the last byte of the buffer
      rename_i hge
      refine .panicked rfl (hover ?_ h.noExit)
      rw [List.length_append, List.length_singleton]
      omega

/-- The complete lines only become more: a byte never changes a line that has ended. -/
theorem Lines.complete_add (l : Lines) (b : UInt8) : l.complete <+: (l.add b).complete := by
  unfold Lines.add
  split
  · exact List.prefix_append ..
  · exact List.prefix_rfl

/-- A read that delivers nothing leaves the lines, and any other adds its byte. -/
theorem lines_received_succ (reads : Nat → Int × UInt8) (n : Nat) :
    lines (received reads (n + 1)) =
      if 0 < (reads n).1 then (lines (received reads n)).add (reads n).2
      else lines (received reads n) := by
  rw [received_succ]
  split
  · rw [lines, List.foldl_append]
    rfl
  · rw [List.append_nil]

/-- The invariant of the loop over every stream, by induction on the number of reads. -/
theorem inv_after (parseLine : String → List Command × Bool) (reads : Nat → Int × UInt8)
    (n : Nat) :
    Inv (Overflows reads) (Repl.after parseLine reads n) (lines (received reads n)) := by
  induction n with
  | zero => exact .reading ⟨rfl, Nat.zero_le _, rfl, .nil, nofun⟩
  | succ n ih =>
    have hlines := lines_received_succ reads n
    cases ih with
    | reading h =>
      simp only [Repl.after, h.status]
      by_cases hret : 0 < (reads n).1
      · rw [if_pos hret] at hlines
        rw [hlines]
        refine h.read hret _ fun hlong hexit => ⟨n + 1, ?_⟩
        rw [hlines]
        exact ⟨hlong, hexit⟩
      · rw [hlines, if_neg hret, Repl.read, if_pos (not_lt.mp hret)]
        exact .reading h
    | exited hs hfirst hhandled hexit hword =>
      simp only [Repl.after, hs]
      refine .exited hs (hfirst.trans ?_) hhandled hexit hword
      rw [hlines]
      split
      · exact Lines.complete_add ..
      · exact List.prefix_rfl
    | panicked hs hoverflows =>
      simp only [Repl.after, hs]
      exact .panicked hs hoverflows

/-- The invariant is sound as long as no line overflows the buffer. -/
theorem Inv.sound {overflows : Prop} (h : Inv overflows s l) (hnot : ¬ overflows) : Sound s l := by
  cases h with
  | reading h =>
    refine ⟨by simp [h.status], ⟨_, List.prefix_rfl, h.handled⟩, fun _ => ?_, by simp [h.status]⟩
    exact ⟨h.handled.length_eq.symm, h.buf, h.cursor_eq⟩
  | exited hs hfirst hhandled hexit _ =>
    exact ⟨by simp [hs], ⟨_, hfirst, hhandled⟩, by simp [hs], fun _ => hexit⟩
  | panicked _ hoverflows => exact absurd hoverflows hnot

/-- A shell that is sound throughout has room for every line. -/
theorem not_overflows {reads : Nat → Int × UInt8}
    (h : ∀ n, Sound (Repl.after parseLine reads n) (lines (received reads n))) :
    ¬ Overflows reads := by
  rintro ⟨n, hlong, hexit⟩
  cases inv_after parseLine reads n with
  | reading hr =>
    have hcursor := hr.cursor_eq
    have hle := hr.le
    omega
  | exited _ hfirst _ _ hword =>
    obtain ⟨line, hline, hword⟩ := hword
    exact hexit line (hfirst.subset hline) hword
  | panicked hs _ => exact (h n).inBounds _ hs

/-- **The shell survives a stream** if and only if every line of it fits into the buffer, up to the
one that says `exit`. -/
theorem sound_iff_lines_fit (parseLine : String → List Command × Bool)
    (reads : Nat → Int × UInt8) :
    (∀ n, Sound (Repl.after parseLine reads n) (lines (received reads n))) ↔
      ∀ n, (lines (received reads n)).pending.length ≤ 256 ∨
        ∃ line ∈ (lines (received reads n)).complete, SaysExit line := by
  have hiff : (∀ n, (lines (received reads n)).pending.length ≤ 256 ∨
      ∃ line ∈ (lines (received reads n)).complete, SaysExit line) ↔ ¬ Overflows reads := by
    simp only [Overflows, not_exists, not_and, not_forall, not_not]
    refine forall_congr' fun n => ?_
    rw [← not_lt, ← imp_iff_not_or]
    simp
  rw [hiff]
  exact ⟨not_overflows, fun hnot n => (inv_after parseLine reads n).sound hnot⟩

/-- A line of 257 letters, and no newline ever: the last of them does not fit into the buffer. -/
theorem long_line_panics : ¬ ∀ (parseLine : String → List Command × Bool)
    (reads : Nat → Int × UInt8) (n : Nat),
    Sound (Repl.after parseLine reads n) (lines (received reads n)) := by
  intro h
  have hlines : ∀ n, lines (received (fun _ => (1, 97)) n) = ⟨[], List.replicate n 97⟩ := by
    intro n
    induction n with
    | zero => rfl
    | succ n ih =>
      rw [lines_received_succ, if_pos (by decide), ih, List.replicate_succ']
      rfl
  refine not_overflows (h (fun _ => ([], false)) fun _ => (1, 97)) ⟨257, ?_⟩
  rw [hlines, List.length_replicate]
  exact ⟨by decide, nofun⟩

end TinyOS.Shell
