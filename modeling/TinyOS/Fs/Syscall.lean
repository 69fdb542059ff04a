import TinyOS.Lib.ByteMem
import TinyOS.Lib.Utf8
import TinyOS.Mm.UserMemory

/-!
# Reading and writing files from user space

`sys_read` and `sys_write` of `phase_5_fs/src/syscall/fs.rs` with the `File` trait, `Stdin` and
`Stdout` (`phase_5_fs/src/fs/mod.rs`). Both cut the user's buffer at the page boundaries and call
the file once for each slice, so what a file does with one slice decides what the user gets.

* A file that fills a slice only in part is asked again for the next one: the bytes it delivers are
  together in the buffer exactly if nothing is delivered after a short read
  (`sysRead_prefix_iff`).
* The console shows a slice only if it is UTF-8 by itself: a string is shown as it is exactly if no
  character is cut (`sysWrite_stdout_iff`).
-/

namespace TinyOS

open ByteMem

/-! ## Files -/

/-- A `dyn File` over the state `σ` of all files and devices. `read` gets the contents of the buffer
and returns the count and the new contents. -/
structure File (σ : Type) where
  readable : Bool
  writable : Bool
  read : List UInt8 → σ → Except Panic (Nat × List UInt8 × σ)
  write : List UInt8 → σ → Except Panic (Nat × σ)

/-- The bytes the console has shown, the oldest first: what a reader of it sees. -/
abbrev Console := List UInt8

/-- `Stdin`: a read of a buffer that is not empty delivers one byte, and this is a newline. -/
def stdin : File Console where
  readable := true
  writable := false
  read buf out :=
    match buf with
    | [] => .ok (0, [], out)
    | _ :: rest => .ok (1, 10 :: rest, out)
  write _ _ := .error (.expect "Stdin not writable")

/-- `core::str::from_utf8(buf).unwrap_or("?")`: the text of the slice, or a mark if it is not
UTF-8 by itself. -/
def fromUtf8OrMark (buf : List UInt8) : String :=
  (String.fromUTF8? buf.toByteArray).getD "?"

/-- `Stdout`: a write shows the slice as text, and reports all its bytes as written. -/
def stdout : File Console where
  readable := false
  writable := true
  read _ _ := .error (.expect "Stdout not readable")
  write buf out := .ok (buf.length, out ++ (fromUtf8OrMark buf).toByteArray.data.toList)

/-- `FD_TABLE` at the start: the three standard descriptors, the last two of which are the
console. -/
def fdTable : List (Option (File Console)) := [some stdin, some stdout, some stdout]

/-! ## The system calls -/

/-- `total as isize`: the same 64 bits, read as a signed number. -/
def asIsize (n : Nat) : Int := if n < 2 ^ 63 then n else (n : Int) - 2 ^ 64

section

variable {σ : Type}

/-- The loop of `sys_read`: one `read` of the file for each slice, whatever the one before has
delivered. -/
def readBuffers (file : File σ) :
    List Slice → Nat → (Nat → UInt8) → σ → Except Panic (Nat × (Nat → UInt8) × σ)
  | [], total, mem, s => .ok (total, mem, s)
  | b :: buffers, total, mem, s => do
    let (n, buf, s) ← file.read (b.bytes mem) s
    readBuffers file buffers ((total + n) % 2 ^ 64) (overwrite mem b.addr buf) s

/-- The loop of `sys_write`: one `write` of the file for each slice of the user's buffer. -/
def writeBuffers (file : File σ) (mem : Nat → UInt8) :
    List Slice → Nat → σ → Except Panic (Nat × σ)
  | [], total, s => .ok (total, s)
  | b :: buffers, total, s => do
    let (n, s) ← file.write (b.bytes mem) s
    writeBuffers file mem buffers ((total + n) % 2 ^ 64) s

variable (translate : PageTable → VirtPageNum → Option PageTableEntry)
  (table : List (Option (File σ)))

/-- `sys_read`: the result, the memory and the state after it. `none` if the walk over the buffer
has not ended after `fuel` iterations. -/
def sysRead (fuel token fd buf len : Nat) (mem : Nat → UInt8) (s : σ) :
    Option (Except Panic (Int × (Nat → UInt8) × σ)) :=
  (translatedByteBuffer translate fuel token buf len).map fun walk => do
    let buffers ← walk
    match table[fd]? with
    | none => return (-1, mem, s)
    | some none => return (-1, mem, s)
    | some (some file) =>
      if !file.readable then return (-1, mem, s)
      else
        let (total, mem, s) ← readBuffers file buffers 0 mem s
        return (asIsize total, mem, s)

/-- `sys_write`: the result and the state after it. `none` if the walk over the buffer has not
ended after `fuel` iterations. -/
def sysWrite (fuel token fd buf len : Nat) (mem : Nat → UInt8) (s : σ) :
    Option (Except Panic (Int × σ)) :=
  (translatedByteBuffer translate fuel token buf len).map fun walk => do
    let buffers ← walk
    match table[fd]? with
    | none => return (-1, s)
    | some none => return (-1, s)
    | some (some file) =>
      if !file.writable then return (-1, s)
      else
        let (total, s) ← writeBuffers file mem buffers 0 s
        return (asIsize total, s)

end

/-! ## What a file delivers -/

section

variable {σ : Type} {file : File σ} {mem mem' : Nat → UInt8} {s : σ} {v : List Slice}

/-- A read stores some bytes at the front of the buffer and returns how many. -/
def File.ReadsFront (file : File σ) : Prop :=
  ∀ buf s, ∃ d s', d.length ≤ buf.length ∧ file.read buf s = .ok (d.length, patch d buf, s')

/-- What a read delivers does not depend on what was in the buffer. -/
def File.Blind (file : File σ) : Prop :=
  ∀ buf buf' s d s', buf.length = buf'.length → file.read buf s = .ok (d.length, patch d buf, s') →
    file.read buf' s = .ok (d.length, patch d buf', s')

/-- What the file delivers for each of the buffers, beside what was in the buffer. -/
def deliveries (file : File σ) : List (List UInt8) → σ → List (List UInt8 × List UInt8)
  | [], _ => []
  | buf :: bufs, s =>
    match file.read buf s with
    | .error _ => []
    | .ok (n, buf', s) => (buf'.take n, buf) :: deliveries file bufs s

/-- Two slices without a common byte, as those of a buffer in distinct frames are. -/
def Slice.Disjoint (b c : Slice) : Prop := b.addr + b.len ≤ c.addr ∨ c.addr + c.len ≤ b.addr

/-- A slice has as many bytes as its length says. -/
theorem Slice.length_bytes (b : Slice) : (b.bytes mem).length = b.len := length_cells

/-- After a slice was filled it holds the bytes it was filled with. -/
theorem Slice.bytes_overwrite (b : Slice) {buf : List UInt8} (h : buf.length = b.len) :
    b.bytes (overwrite mem b.addr buf) = buf := by
  rw [Slice.bytes, ← h]
  exact cells_overwrite

/-- Filling a slice changes nothing in a slice it has no byte in common with. -/
theorem Slice.Disjoint.bytes_overwrite {b c : Slice} (h : b.Disjoint c) {buf : List UInt8}
    (hlen : buf.length = b.len) : c.bytes (overwrite mem b.addr buf) = c.bytes mem := by
  refine cells_overwrite_of_disjoint ?_
  rw [hlen]
  exact h.symm

/-- The deliveries of a file that stores them at the front. -/
theorem File.ReadsFront.deliveries_cons (h : file.ReadsFront) (buf : List UInt8)
    (bufs : List (List UInt8)) (s : σ) :
    ∃ d s', d.length ≤ buf.length ∧ file.read buf s = .ok (d.length, patch d buf, s') ∧
      deliveries file (buf :: bufs) s = (d, buf) :: deliveries file bufs s' := by
  obtain ⟨d, s', hd, hread⟩ := h buf s
  refine ⟨d, s', hd, hread, ?_⟩
  rw [deliveries, hread]
  simp only [patch, List.take_left']

/-- A file that stores at the front delivers no more than fits into the slice. -/
theorem File.ReadsFront.length_le (h : file.ReadsFront) {bufs : List (List UInt8)} :
    ∀ p ∈ deliveries file bufs s, p.1.length ≤ p.2.length := by
  induction bufs generalizing s with
  | nil => exact fun p hp => (List.not_mem_nil hp).elim
  | cons buf bufs ih =>
    obtain ⟨d, s', hd, -, hcons⟩ := h.deliveries_cons buf bufs s
    rw [hcons]
    exact List.forall_mem_cons.mpr ⟨hd, ih⟩

/-- The deliveries of a file go to the buffers it was given, in their order. -/
theorem File.ReadsFront.map_snd (h : file.ReadsFront) {bufs : List (List UInt8)} :
    (deliveries file bufs s).map Prod.snd = bufs := by
  induction bufs generalizing s with
  | nil => rfl
  | cons buf bufs ih =>
    obtain ⟨d, s', -, -, hcons⟩ := h.deliveries_cons buf bufs s
    rw [hcons, List.map_cons, ih]

/-- **The loop of `sys_read`.** Every slice has what was delivered for it at its front and is
otherwise as before, and nothing else is written. -/
theorem File.ReadsFront.readBuffers_eq (h : file.ReadsFront) (hv : v.Pairwise Slice.Disjoint)
    {total : Nat} (htotal : total < 2 ^ 64) :
    ∃ mem' s', readBuffers file v total mem s =
        .ok ((total + ((deliveries file (v.map (Slice.bytes mem)) s).flatMap Prod.fst).length) %
          2 ^ 64, mem', s') ∧
      v.map (Slice.bytes mem') =
        (deliveries file (v.map (Slice.bytes mem)) s).map (fun p => patch p.1 p.2) ∧
      ∀ c : Slice, (∀ b ∈ v, b.Disjoint c) → c.bytes mem' = c.bytes mem := by
  induction v generalizing mem s total with
  | nil =>
    refine ⟨mem, s, ?_, rfl, fun _ _ => rfl⟩
    rw [List.map_nil, deliveries, List.flatMap_nil, List.length_nil, Nat.add_zero,
      Nat.mod_eq_of_lt htotal]
    rfl
  | cons b v ih =>
    obtain ⟨hb, hv⟩ := List.pairwise_cons.mp hv
    obtain ⟨d, s₁, hd, hread, hcons⟩ :=
      h.deliveries_cons (b.bytes mem) (v.map (Slice.bytes mem)) s
    have hlen : (patch d (b.bytes mem)).length = b.len :=
      (length_patch hd).trans b.length_bytes
    have hrest : v.map (Slice.bytes (overwrite mem b.addr (patch d (b.bytes mem)))) =
        v.map (Slice.bytes mem) :=
      List.map_congr_left fun c hc => (hb c hc).bytes_overwrite hlen
    obtain ⟨mem', s', hloop, hmap, hout⟩ := @ih (overwrite mem b.addr (patch d (b.bytes mem))) s₁
      hv _ (Nat.mod_lt (total + d.length) (show 0 < 2 ^ 64 by decide))
    rw [hrest] at hloop hmap
    rw [List.map_cons, hcons, List.map_cons, List.flatMap_cons, List.length_append]
    refine ⟨mem', s', ?_, ?_, fun c hc => ?_⟩
    · rw [readBuffers, hread]
      refine hloop.trans ?_
      congr 2
      dsimp only
      omega
    · rw [List.map_cons, hmap, hout b fun c hc => (hb c hc).symm, b.bytes_overwrite hlen]
    · obtain ⟨hbc, hvc⟩ := List.forall_mem_cons.mp hc
      rw [hout c hvc, hbc.bytes_overwrite hlen]

/-- A file that does not look at its buffer delivers the same for any contents. -/
theorem File.ReadsFront.deliveries_fill (h : file.ReadsFront) (hblind : file.Blind) (z : UInt8)
    (bufs : List (List UInt8)) (s : σ) :
    deliveries file (bufs.map fun buf => List.replicate buf.length z) s =
      (deliveries file bufs s).map fun p => (p.1, List.replicate p.2.length z) := by
  induction bufs generalizing s with
  | nil => rfl
  | cons buf bufs ih =>
    obtain ⟨d, s', hd, hread, hcons⟩ := h.deliveries_cons buf bufs s
    have hread' := hblind buf (List.replicate buf.length z) s d s'
      List.length_replicate.symm hread
    rw [hcons, List.map_cons, List.map_cons, deliveries, hread', ← ih]
    simp only [patch, List.take_left']

variable {translate : PageTable → VirtPageNum → Option PageTableEntry}
  {table : List (Option (File σ))} {fuel token fd ptr len : Nat}

/-- `sys_read` returns how many bytes the file has delivered, these are the first bytes of the
user's buffer in the order they came, and the rest of the buffer is as before. -/
def DeliversPrefix (translate : PageTable → VirtPageNum → Option PageTableEntry)
    (table : List (Option (File σ))) (fuel token fd ptr len : Nat) (file : File σ) (v : List Slice)
    (mem : Nat → UInt8) (s : σ) : Prop :=
  let d := (deliveries file (v.map (Slice.bytes mem)) s).flatMap Prod.fst
  ∃ mem' s', sysRead translate table fuel token fd ptr len mem s = some (.ok (d.length, mem', s')) ∧
    v.flatMap (Slice.bytes mem') = d ++ (v.flatMap (Slice.bytes mem)).drop d.length

section

variable (hbuf : translatedByteBuffer translate fuel token ptr len = some (.ok v))
  (hdisj : v.Pairwise Slice.Disjoint) (hfile : table[fd]? = some (some file))
  (hreadable : file.readable = true) (hfront : file.ReadsFront)

include hbuf in
/-- The slices of a walk that ended hold fewer bytes than there are virtual addresses. -/
theorem length_flatMap_bytes (mem : Nat → UInt8) :
    (v.flatMap (Slice.bytes mem)).length < 2 ^ 39 := by
  have hlen : (v.flatMap (Slice.bytes mem)).length = (v.map Slice.len).sum := by
    rw [List.length_flatMap]
    exact congrArg List.sum (List.map_congr_left fun b _ => b.length_bytes)
  rw [hlen]
  exact sum_len_of_translatedByteBuffer hbuf

include hfront in
/-- The bytes of the slices before the call, as those the deliveries replace. -/
theorem flatMap_bytes_eq : v.flatMap (Slice.bytes mem) =
    (deliveries file (v.map (Slice.bytes mem)) s).flatMap Prod.snd := by
  rw [List.flatMap_def, List.flatMap_def, hfront.map_snd]

include hbuf hfront in
/-- What is delivered is fewer bytes than there are virtual addresses, so that the total does
not wrap around. -/
theorem length_delivered (mem : Nat → UInt8) (s : σ) :
    ((deliveries file (v.map (Slice.bytes mem)) s).flatMap Prod.fst).length < 2 ^ 39 := by
  refine Nat.lt_of_le_of_lt ?_ (length_flatMap_bytes hbuf mem)
  rw [flatMap_bytes_eq hfront, List.length_flatMap, List.length_flatMap]
  exact List.sum_le_sum hfront.length_le

include hbuf hdisj hfile hreadable hfront in
/-- **`sys_read`** returns the number of bytes delivered and leaves each of them at the front of the
slice it was delivered for. -/
theorem deliversPrefix_iff :
    DeliversPrefix translate table fuel token fd ptr len file v mem s ↔
      ((deliveries file (v.map (Slice.bytes mem)) s).flatMap fun p => patch p.1 p.2) =
        patch ((deliveries file (v.map (Slice.bytes mem)) s).flatMap Prod.fst)
          ((deliveries file (v.map (Slice.bytes mem)) s).flatMap Prod.snd) := by
  obtain ⟨mem', s', hloop, hmap, -⟩ := @File.ReadsFront.readBuffers_eq σ file mem s v hfront hdisj 0
    (by decide)
  have hlt := length_delivered hbuf hfront mem s
  have hread : sysRead translate table fuel token fd ptr len mem s = some (.ok
      (((deliveries file (v.map (Slice.bytes mem)) s).flatMap Prod.fst).length, mem', s')) := by
    rw [Nat.zero_add, Nat.mod_eq_of_lt (by omega)] at hloop
    simp only [sysRead, hbuf, Option.map_some, hfile, hreadable, hloop, bind, Except.bind, pure,
      Except.pure, asIsize, Bool.not_true]
    rw [if_neg (by decide), if_pos (by omega)]
  have hafter : v.flatMap (Slice.bytes mem') =
      (deliveries file (v.map (Slice.bytes mem)) s).flatMap fun p => patch p.1 p.2 := by
    rw [List.flatMap_def, hmap, ← List.flatMap_def]
  rw [← hafter, ← flatMap_bytes_eq hfront]
  constructor
  · rintro ⟨mem'', s'', hread', heq⟩
    cases hread.symm.trans hread'
    exact heq
  · intro heq
    exact ⟨mem', s', hread, heq⟩

include hbuf hdisj hfile hreadable hfront in
/-- **When a read delivers a prefix.** For any contents of the buffer it does if nothing is
delivered for a slice after one that was not filled. For a file that does not look at the buffer
that is exactly when it does so for all contents of the buffer. -/
theorem sysRead_prefix_iff :
    (∀ mem, FilledInOrder (deliveries file (v.map (Slice.bytes mem)) s) →
      DeliversPrefix translate table fuel token fd ptr len file v mem s) ∧
    (file.Blind →
      ((∀ mem, DeliversPrefix translate table fuel token fd ptr len file v mem s) ↔
        ∀ mem, FilledInOrder (deliveries file (v.map (Slice.bytes mem)) s))) := by
  have hin (mem : Nat → UInt8) (h : FilledInOrder (deliveries file (v.map (Slice.bytes mem)) s)) :
      DeliversPrefix translate table fuel token fd ptr len file v mem s :=
    (deliversPrefix_iff hbuf hdisj hfile hreadable hfront).mpr (flatMap_patch hfront.length_le h)
  refine ⟨hin, fun hblind => ⟨fun hall mem => ?_, fun h mem => hin mem (h mem)⟩⟩
  refine pairwise_of_flatMap_patch (show (0 : UInt8) ≠ 1 by decide) hfront.length_le fun z => ?_
  -- the same reads into a memory that is full of `z`
  have hz := (deliversPrefix_iff hbuf hdisj hfile hreadable hfront).mp (hall fun _ => z)
  have hfill : v.map (Slice.bytes fun _ => z) =
      (v.map (Slice.bytes mem)).map fun buf => List.replicate buf.length z := by
    rw [List.map_map]
    refine List.map_congr_left fun b _ => ?_
    rw [Function.comp_apply, b.length_bytes, Slice.bytes, List.map_const', List.length_range']
  rw [hfill, hfront.deliveries_fill hblind] at hz
  simpa only [List.flatMap_map] using hz

end

/-- `Stdin` delivers one byte and stores it at the front of the slice. -/
theorem stdin_readsFront : stdin.ReadsFront := by
  intro buf out
  cases buf with
  | nil => exact ⟨[], out, Nat.le_refl _, rfl⟩
  | cons b buf => exact ⟨[10], out, Nat.succ_le_succ (Nat.zero_le _), rfl⟩

/-- A file as `OSInode::read` reads it; the state is what there is from the cursor on. -/
def diskFile : File (List UInt8) where
  readable := true
  writable := false
  read buf rest :=
    .ok (min buf.length rest.length, patch (rest.take buf.length) buf, rest.drop buf.length)
  write _ _ := .error (.expect "not writable")

/-- A file on the disk stores what it delivers at the front of the slice. -/
theorem diskFile_readsFront : diskFile.ReadsFront := by
  intro buf rest
  refine ⟨rest.take buf.length, rest.drop buf.length, List.length_take_le .., ?_⟩
  rw [List.length_take]
  rfl

/-- A read of four bytes across a page boundary, from a file with three bytes left: the first slice
is filled, the second one in part. -/
theorem sysRead_prefix_two_pages :
    let translate : PageTable → VirtPageNum → Option PageTableEntry := fun _ vpn =>
      if vpn.val = 1 then some (.new ⟨7⟩ .v) else if vpn.val = 2 then some (.new ⟨3⟩ .v) else none
    DeliversPrefix translate [some diskFile] 3 0 0 8190 4 diskFile
      [⟨7 * 4096 + 4094, 2⟩, ⟨3 * 4096, 2⟩] (fun _ => 0) [1, 2, 3] := by
  intro translate
  refine (@sysRead_prefix_iff _ diskFile [1, 2, 3] [⟨7 * 4096 + 4094, 2⟩, ⟨3 * 4096, 2⟩] translate
    [some diskFile] 3 0 0 8190 4 (by decide) ?_ rfl rfl diskFile_readsFront).1 _ ?_
  · exact List.pairwise_pair.mpr (.inr (by decide : 3 * 4096 + 2 ≤ 7 * 4096 + 4094))
  · exact List.pairwise_pair.mpr (by decide)

/-- A read of four bytes across a page boundary. `Stdin` delivers one byte for each page, so the
second one is behind a byte that was not read. -/
theorem sysRead_across_pages :
    let translate : PageTable → VirtPageNum → Option PageTableEntry := fun _ vpn =>
      if vpn.val = 1 then some (.new ⟨7⟩ .v) else if vpn.val = 2 then some (.new ⟨3⟩ .v) else none
    let v : List Slice := [⟨7 * 4096 + 4094, 2⟩, ⟨3 * 4096, 2⟩]
    translatedByteBuffer translate 3 0 8190 4 = some (.ok v) ∧
      (∃ mem', sysRead translate fdTable 3 0 0 8190 4 (fun _ => 0) [] = some (.ok (2, mem', [])) ∧
        v.flatMap (Slice.bytes mem') = [10, 0, 10, 0]) ∧
      ¬ DeliversPrefix translate fdTable 3 0 0 8190 4 stdin v (fun _ => 0) [] := by
  intro translate v
  have hbuf : translatedByteBuffer translate 3 0 8190 4 = some (.ok v) := by decide
  have hdisj : v.Pairwise Slice.Disjoint :=
    List.pairwise_pair.mpr (.inr (by decide : 3 * 4096 + 2 ≤ 7 * 4096 + 4094))
  refine ⟨hbuf, ?_, fun h => ?_⟩
  · rw [sysRead, hbuf]
    exact ⟨_, rfl, by decide⟩
  · have heq := (deliversPrefix_iff hbuf hdisj rfl rfl stdin_readsFront).mp h
    exact absurd heq (by decide)

end

/-! ## What the console shows -/

section

variable {translate : PageTable → VirtPageNum → Option PageTableEntry}
  {table : List (Option (File Console))} {fuel token fd ptr len : Nat} {mem : Nat → UInt8}
  {out : Console} {v : List Slice}

/-- What the console shows for a slice: its bytes, or those of the mark. -/
def shown (buf : List UInt8) : List UInt8 := (fromUtf8OrMark buf).toByteArray.data.toList

/-- A slice of valid UTF-8 is shown as it is, and any other one as the mark. -/
theorem shown_eq (buf : List UInt8) : shown buf = if Utf8.Valid buf then buf else [63] := by
  rw [shown, fromUtf8OrMark, String.fromUTF8?]
  by_cases h : Utf8.Valid buf
  · rw [if_pos h, dif_pos (show buf.toByteArray.IsValidUTF8 from h), Option.getD_some]
    exact List.toList_data_toByteArray
  · rw [if_neg h, dif_neg (show ¬ buf.toByteArray.IsValidUTF8 from h), Option.getD_none]
    decide

/-- A slice that is not valid is not shown as it is: the mark by itself is valid. -/
theorem shown_eq_self_iff {buf : List UInt8} : shown buf = buf ↔ Utf8.Valid buf := by
  rw [shown_eq]
  split
  · rename_i h
    exact iff_of_true rfl h
  · rename_i h
    refine iff_of_false (fun heq => h ?_) h
    rw [← heq]
    decide

/-- The console shows no more bytes for a slice than the slice has. -/
theorem length_shown_le {buf : List UInt8} (h : buf ≠ []) : (shown buf).length ≤ buf.length := by
  rw [shown_eq]
  split
  · exact Nat.le_refl _
  · exact List.length_pos_of_ne_nil h

/-- The first byte of a slice that is not empty is the one at its address. -/
theorem head?_bytes {b : Slice} (h : 0 < b.len) : (b.bytes mem).head? = some (mem b.addr) := by
  obtain ⟨n, hn⟩ := Nat.exists_eq_add_of_lt h
  rw [Slice.bytes, hn, List.range'_succ]
  rfl

/-- **The loop of `sys_write`** on the console shows slice after slice, and counts all the bytes
whatever it has shown. -/
theorem writeBuffers_stdout {total : Nat} (htotal : total < 2 ^ 64) :
    writeBuffers stdout mem v total out =
      .ok ((total + (v.flatMap (Slice.bytes mem)).length) % 2 ^ 64,
        out ++ v.flatMap fun b => shown (b.bytes mem)) := by
  induction v generalizing total out with
  | nil =>
    rw [List.flatMap_nil, List.flatMap_nil, List.length_nil, Nat.add_zero, List.append_nil,
      Nat.mod_eq_of_lt htotal]
    rfl
  | cons b v ih =>
    refine (ih (Nat.mod_lt (total + (b.bytes mem).length) (by decide))).trans ?_
    rw [List.flatMap_cons, List.flatMap_cons, List.length_append, List.append_assoc]
    refine congrArg (fun n => Except.ok (n, _)) ?_
    omega

/-- **When a string is shown as it is.** The user's buffer is UTF-8. `sys_write` to the console
emits exactly these bytes and returns how many they are if and only if no character is cut at a page
boundary: every slice but the first begins with the first byte of a character. -/
theorem sysWrite_stdout_iff
    (hbuf : translatedByteBuffer translate fuel token ptr len = some (.ok v))
    (hfile : table[fd]? = some (some stdout))
    (hvalid : Utf8.Valid (v.flatMap (Slice.bytes mem))) :
    sysWrite translate table fuel token fd ptr len mem out =
        some (.ok ((v.flatMap (Slice.bytes mem)).length, out ++ v.flatMap (Slice.bytes mem))) ↔
      ∀ b ∈ v.tail, (mem b.addr).IsUTF8FirstByte := by
  have hlt := length_flatMap_bytes hbuf mem
  have hne : ∀ p ∈ v.map (Slice.bytes mem), p ≠ [] := by
    intro p hp
    obtain ⟨b, hb, rfl⟩ := List.mem_map.mp hp
    refine List.ne_nil_of_length_pos ?_
    rw [b.length_bytes]
    exact len_pos_of_translatedByteBuffer hbuf b hb
  have hwrite : sysWrite translate table fuel token fd ptr len mem out =
      some (.ok ((v.flatMap (Slice.bytes mem)).length,
        out ++ v.flatMap fun b => shown (b.bytes mem))) := by
    have hloop := @writeBuffers_stdout mem out v 0 (by decide)
    rw [Nat.zero_add, Nat.mod_eq_of_lt (by omega)] at hloop
    simp only [sysWrite, hbuf, Option.map_some, hfile, hloop, bind, Except.bind, pure, Except.pure,
      asIsize]
    rw [if_neg (by decide), if_pos (by omega)]
  have hflat : v.flatMap (Slice.bytes mem) = (v.map (Slice.bytes mem)).flatten :=
    List.flatMap_def ..
  have hshown : (v.flatMap fun b => shown (b.bytes mem)) =
      (v.map (Slice.bytes mem)).flatMap shown := (List.flatMap_map ..).symm
  rw [hflat] at hvalid
  calc sysWrite translate table fuel token fd ptr len mem out = _
    _ ↔ (v.flatMap fun b => shown (b.bytes mem)) = v.flatMap (Slice.bytes mem) := by
      rw [hwrite]
      simp only [Option.some.injEq, Except.ok.injEq, Prod.mk.injEq, true_and,
        List.append_cancel_left_eq]
    _ ↔ ∀ p ∈ v.map (Slice.bytes mem), Utf8.Valid p := by
      rw [hshown, hflat, Utf8.flatMap_eq_flatten_iff fun p hp => length_shown_le (hne p hp)]
      exact forall₂_congr fun p _ => shown_eq_self_iff
    _ ↔ ∀ b ∈ v.tail, ∀ x ∈ (b.bytes mem).head?, x.IsUTF8FirstByte := by
      rw [Utf8.valid_pieces_iff hne hvalid, ← List.map_tail, List.forall_mem_map]
    _ ↔ _ := forall₂_congr fun b hb => by
      rw [head?_bytes (len_pos_of_translatedByteBuffer hbuf b (List.mem_of_mem_tail hb))]
      simp only [Option.mem_some_iff, forall_eq']

/-- Two characters of one byte each, in two pages: no character is cut, and both are shown. -/
theorem sysWrite_stdout_ascii :
    let translate : PageTable → VirtPageNum → Option PageTableEntry := fun _ vpn =>
      if vpn.val = 1 then some (.new ⟨7⟩ .v) else if vpn.val = 2 then some (.new ⟨3⟩ .v) else none
    let mem : Nat → UInt8 := fun a => if a = 3 * 4096 then 98 else 97
    sysWrite translate fdTable 3 0 1 8191 2 mem [] = some (.ok (2, [97, 98])) := by
  intro translate mem
  have hbuf : translatedByteBuffer translate 3 0 8191 2 =
      some (.ok [⟨7 * 4096 + 4095, 1⟩, ⟨3 * 4096, 1⟩]) := by decide
  refine (sysWrite_stdout_iff hbuf rfl (by decide)).mpr fun b hb => ?_
  cases List.mem_singleton.mp hb
  decide

/-- A character of two bytes in two pages: the console shows two marks. -/
theorem sysWrite_cut_character :
    let translate : PageTable → VirtPageNum → Option PageTableEntry := fun _ vpn =>
      if vpn.val = 1 then some (.new ⟨7⟩ .v) else if vpn.val = 2 then some (.new ⟨3⟩ .v) else none
    let mem : Nat → UInt8 := fun a => if a = 3 * 4096 then 0xa9 else 0xc3
    let v : List Slice := [⟨7 * 4096 + 4095, 1⟩, ⟨3 * 4096, 1⟩]
    translatedByteBuffer translate 3 0 8191 2 = some (.ok v) ∧
      Utf8.Valid (v.flatMap (Slice.bytes mem)) ∧
      sysWrite translate fdTable 3 0 1 8191 2 mem [] = some (.ok (2, [63, 63])) ∧
      [63, 63] ≠ v.flatMap (Slice.bytes mem) := by
  intro translate mem v
  have hbuf : translatedByteBuffer translate 3 0 8191 2 = some (.ok v) := by decide
  refine ⟨hbuf, by decide, ?_, by decide⟩
  rw [sysWrite, hbuf]
  decide

end

end TinyOS
