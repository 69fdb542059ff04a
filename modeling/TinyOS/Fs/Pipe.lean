import TinyOS.Lib.Fifo

/-!
# The pipe's ring buffer

`PipeRingBuffer` of `phase_6_shell/src/fs/pipe.rs`: a 2048-byte array with a head, a tail and a
three-valued status that tells an empty buffer from a full one when head and tail meet. The two
byte operations overwrite the status with `normal` before they look at the indices, so the status
is right only because each of them restores it on the one boundary it can reach.

`Represents r q` relates a buffer to the queue of the bytes it holds. It is a simulation of the
buffer by `Fifo.queue` (`PipeRingBuffer.simulates`), so every run of guarded byte operations is a
run of the bounded queue, whose history the main theorem reads off.

Left out: `write_end`, which the byte operations never look at.
-/

namespace TinyOS

open Transition Fifo

/-- `RING_BUFFER_SIZE` of `fs/pipe.rs`, the number of bytes a pipe can hold before a writer has
to wait. -/
def ringBufferSize : Nat := 2048

/-- `enum RingBufferStatus`, which tells the full buffer from the empty one where `head` and
`tail` are equal. -/
inductive RingBufferStatus where
  | full
  | empty
  | normal
  deriving DecidableEq, Repr

/-- `struct PipeRingBuffer`: the array, where the next byte is read and where it is written. The
`Weak` reference to the write end is in `TinyOS.Fs.PipeEnds`. -/
structure PipeRingBuffer where
  arr : Vector UInt8 ringBufferSize
  head : Nat
  tail : Nat
  status : RingBufferStatus

namespace PipeRingBuffer

/-- `PipeRingBuffer::new`: an empty buffer, with `head` and `tail` at the start. -/
def new : PipeRingBuffer where
  arr := Vector.replicate ringBufferSize 0
  head := 0
  tail := 0
  status := .empty

/-- `write_byte`; `none` is the panic of an array index out of bounds. -/
def writeByte (r : PipeRingBuffer) (b : UInt8) : Option PipeRingBuffer :=
  if h : r.tail < ringBufferSize then
    let r := { r with status := .normal, arr := r.arr.set r.tail b h }
    let r := { r with tail := (r.tail + 1) % ringBufferSize }
    some (if r.tail = r.head then { r with status := .full } else r)
  else none

/-- `read_byte`; `none` is the panic of an array index out of bounds. -/
def readByte (r : PipeRingBuffer) : Option (UInt8 × PipeRingBuffer) :=
  if h : r.head < ringBufferSize then
    let r := { r with status := .normal }
    let b := r.arr.get ⟨r.head, h⟩
    let r := { r with head := (r.head + 1) % ringBufferSize }
    some (b, if r.head = r.tail then { r with status := .empty } else r)
  else none

/-- `available_read`: how many bytes can be read, going round the end of the array. -/
def availableRead (r : PipeRingBuffer) : Nat :=
  if r.status = .empty then 0
  else if r.tail > r.head then r.tail - r.head
  else ringBufferSize - r.head + r.tail

/-- `available_write`: how many bytes can be written before the buffer is full. -/
def availableWrite (r : PipeRingBuffer) : Nat :=
  if r.status = .full then 0
  else ringBufferSize - r.availableRead

/-- The array as a function of the index, for the window of the queue that lies in it. -/
def byteAt (r : PipeRingBuffer) (i : Nat) : UInt8 := r.arr[i]?.getD 0

/-- The client's side of the contract: a byte is written only when there is room for one and read
only when there is one. -/
inductive Step : PipeRingBuffer → Event UInt8 → PipeRingBuffer → Prop where
  | write {r r' : PipeRingBuffer} {b : UInt8} (h : 0 < r.availableWrite)
      (hw : r.writeByte b = some r') : Step r (.put b) r'
  | read {r r' : PipeRingBuffer} {b : UInt8} (h : 0 < r.availableRead)
      (hr : r.readByte = some (b, r')) : Step r (.get b) r'

/-- The ring buffer under guarded reads and writes, in any order, from the new buffer on. -/
def system : System PipeRingBuffer (Event UInt8) where
  init r := r = new
  step := Step

/-! ## The bytes a buffer holds -/

/-- The status a buffer of `n` bytes has to have. -/
def statusOf (n : Nat) : RingBufferStatus :=
  if n = 0 then .empty else if n = ringBufferSize then .full else .normal

/-- The buffer `r` holds the bytes `q`, oldest first, round and round in its array from `head`
on. -/
structure Represents (r : PipeRingBuffer) (q : List UInt8) : Prop where
  head_lt : r.head < ringBufferSize
  length_le : q.length ≤ ringBufferSize
  tail_eq : r.tail = (r.head + q.length) % ringBufferSize
  status_eq : r.status = statusOf q.length
  bytes_eq : q = window r.byteAt ringBufferSize r.head q.length

/-- Only a buffer of no bytes has the status `Empty`. -/
theorem statusOf_eq_empty {n : Nat} : statusOf n = .empty ↔ n = 0 := by
  unfold statusOf; split_ifs <;> simp_all

/-- Only a buffer of `RING_BUFFER_SIZE` bytes has the status `Full`. -/
theorem statusOf_eq_full {n : Nat} : statusOf n = .full ↔ n = ringBufferSize := by
  unfold statusOf ringBufferSize; split_ifs <;> simp_all

/-- The place the next byte is written to lies in the array, so that the write does not panic. -/
theorem Represents.tail_lt {r : PipeRingBuffer} {q : List UInt8} (h : Represents r q) :
    r.tail < ringBufferSize := by
  rw [h.tail_eq]; exact Nat.mod_lt _ (by decide)

/-- The empty buffer holds nothing: it represents the empty queue. -/
theorem new_represents : Represents new [] :=
  ⟨by decide, by decide, rfl, rfl, rfl⟩

/-- `available_read` counts the bytes held. At `head = tail` only the status tells the two counts
apart. -/
theorem Represents.availableRead_eq {r : PipeRingBuffer} {q : List UInt8} (h : Represents r q) :
    r.availableRead = q.length := by
  have hs := h.status_eq
  have ht := h.tail_eq
  have hh := h.head_lt
  have hq := h.length_le
  unfold availableRead
  by_cases h0 : q.length = 0
  · rw [if_pos (by rw [hs, statusOf_eq_empty]; exact h0), h0]
  · rw [if_neg (by rw [hs, statusOf_eq_empty]; exact h0)]
    unfold ringBufferSize at *
    split <;> omega

/-- `available_write` counts the free places, those the queue has not taken. -/
theorem Represents.availableWrite_eq {r : PipeRingBuffer} {q : List UInt8} (h : Represents r q) :
    r.availableWrite = ringBufferSize - q.length := by
  unfold availableWrite
  rw [h.availableRead_eq]
  split
  · next hf =>
    rw [h.status_eq, statusOf_eq_full] at hf
    omega
  · rfl

/-- After a byte was stored at `tail`, the other places of the array are as before. -/
theorem byteAt_set {r : PipeRingBuffer} {b : UInt8} {i : Nat} (h : r.tail < ringBufferSize)
    (hi : i < ringBufferSize) :
    (r.arr.set r.tail b h)[i]?.getD 0 = Function.update r.byteAt r.tail b i := by
  by_cases he : i = r.tail
  · subst he
    simp
  · rw [Function.update_of_ne he, Vector.getElem?_set_ne _ (Ne.symm he), byteAt]

/-- **A guarded write is a `put`.** It does not panic, and the byte is appended. -/
theorem Represents.writeByte {r : PipeRingBuffer} {q : List UInt8} (h : Represents r q) (b : UInt8)
    (hq : q.length < ringBufferSize) :
    ∃ r', r.writeByte b = some r' ∧ Represents r' (q ++ [b]) := by
  have ht := h.tail_lt
  have hh := h.head_lt
  have hte := h.tail_eq
  refine ⟨_, dif_pos ht, ?_⟩
  have hbytes : q ++ [b] = window (fun i => (r.arr.set r.tail b ht)[i]?.getD 0) ringBufferSize
      r.head (q ++ [b]).length := by
    rw [List.length_append, List.length_singleton,
      window_congr (by decide) fun i hi => byteAt_set ht hi, h.tail_eq, window_update _ _ hq,
      ← h.bytes_eq]
  have hlen : (q ++ [b]).length = q.length + 1 := by simp
  have hstatus : (r.tail + 1) % ringBufferSize = r.head ↔ q.length + 1 = ringBufferSize := by
    unfold ringBufferSize at *; omega
  dsimp only
  split
  · next hf =>
    refine ⟨hh, by omega, ?_, ?_, hbytes⟩
    · dsimp only; rw [hte, hlen, Nat.mod_add_mod, Nat.add_assoc]
    · rw [hlen, hstatus.mp hf]; rfl
  · next hf =>
    refine ⟨hh, by omega, ?_, ?_, hbytes⟩
    · dsimp only; rw [hte, hlen, Nat.mod_add_mod, Nat.add_assoc]
    · rw [hlen, statusOf, if_neg (by omega), if_neg fun he => hf (hstatus.mpr he)]

/-- **A guarded read is a `get`.** It does not panic, and returns the oldest byte. -/
theorem Represents.readByte {r : PipeRingBuffer} {b : UInt8} {q : List UInt8}
    (h : Represents r (b :: q)) : ∃ r', r.readByte = some (b, r') ∧ Represents r' q := by
  have hh := h.head_lt
  have hte := h.tail_eq
  have hlen := h.length_le
  have hbytes := h.bytes_eq
  rw [List.length_cons] at hte hlen hbytes
  rw [window_succ, List.cons.injEq, Nat.mod_eq_of_lt hh] at hbytes
  have hb : r.arr.get ⟨r.head, hh⟩ = b := by
    rw [hbytes.1, byteAt, Vector.getElem?_eq_getElem hh]; rfl
  have hstatus : (r.head + 1) % ringBufferSize = r.tail ↔ q.length = 0 := by
    unfold ringBufferSize at *; omega
  refine ⟨_, by rw [PipeRingBuffer.readByte, dif_pos hh]; dsimp only; rw [hb], ?_⟩
  split
  · next hf =>
    refine ⟨Nat.mod_lt _ (by decide), by omega, ?_, ?_, hbytes.2⟩
    · dsimp only; rw [hte, Nat.mod_add_mod]; congr 1; omega
    · rw [hstatus.mp hf]; rfl
  · next hf =>
    refine ⟨Nat.mod_lt _ (by decide), by omega, ?_, ?_, hbytes.2⟩
    · dsimp only; rw [hte, Nat.mod_add_mod]; congr 1; omega
    · rw [statusOf, if_neg fun he => hf (hstatus.mpr he), if_neg (by omega)]

/-! ## The refinement -/

/-- The ring buffer refines the bounded queue: every guarded read or write is a step of the
queue it represents. -/
theorem simulates : System.Simulation system (queue UInt8 ringBufferSize) Represents where
  init := by
    rintro r rfl
    exact ⟨[], rfl, new_represents⟩
  step := by
    intro r e r' q h hs
    cases hs with
    | @write _ b hg hw =>
      have hq : q.length < ringBufferSize := by
        have := h.availableWrite_eq; omega
      obtain ⟨r'', hw', hr''⟩ := h.writeByte b hq
      rw [hw] at hw'
      cases hw'
      exact ⟨q ++ [b], .put b hq, hr''⟩
    | @read _ b hg hr =>
      cases q with
      | nil => rw [h.availableRead_eq] at hg; exact absurd hg (by simp)
      | cons b' q =>
        obtain ⟨r'', hr', hr''⟩ := h.readByte
        rw [hr] at hr'
        cases hr'
        exact ⟨q, .get b, hr''⟩

/-- The bounded queue refines the ring buffer: whatever the queue can do, the buffer can. -/
theorem simulated :
    System.Simulation (queue UInt8 ringBufferSize) system fun q r => Represents r q where
  init := by
    rintro q rfl
    exact ⟨new, rfl, new_represents⟩
  step := by
    intro q e q' r h hs
    cases hs with
    | put b hq =>
      obtain ⟨r', hw, hr'⟩ := h.writeByte b hq
      exact ⟨r', .write (by rw [h.availableWrite_eq]; omega) hw, hr'⟩
    | get b =>
      obtain ⟨r', hr, hr'⟩ := h.readByte
      exact ⟨r', .read (by rw [h.availableRead_eq]; exact Nat.succ_pos _) hr, hr'⟩

/-- The bytes written and not yet read, counted over a history. -/
def pending (tr : List (Event UInt8)) : Nat := (puts tr).length - (gets tr).length

/-- The bytes written and not yet read are as many as the queue holds. -/
theorem pending_eq {tr : List (Event UInt8)} {q : List UInt8}
    (h : (queue UInt8 ringBufferSize).Run [] tr q) : pending tr = q.length := by
  rw [pending, puts_eq h, List.length_append]
  omega

/-- **The pipe's ring buffer is a bounded FIFO queue.** After any interleaving of guarded
`write_byte` and `read_byte` calls from `PipeRingBuffer::new()`, the run is a run of the queue of
capacity `RING_BUFFER_SIZE`: the bytes read are a prefix of the bytes written, the two counters
count the bytes in between and the free places, and the status says empty or full exactly when the
buffer is. The next guarded call does not panic. -/
theorem run_fifo {tr : List (Event UInt8)} {r : PipeRingBuffer} (h : system.Run new tr r) :
    (∃ q, (queue UInt8 ringBufferSize).Run [] tr q ∧ Represents r q) ∧
    gets tr <+: puts tr ∧
    r.availableRead = pending tr ∧ r.availableWrite = ringBufferSize - pending tr ∧
    (r.status = .empty ↔ pending tr = 0) ∧ (r.status = .full ↔ pending tr = ringBufferSize) ∧
    (0 < r.availableWrite → ∀ b, (r.writeByte b).isSome) ∧
    (0 < r.availableRead → r.readByte.isSome) := by
  obtain ⟨q, hrun, hq⟩ := simulates.run new_represents h
  have hputs : puts tr = gets tr ++ q := puts_eq hrun
  have hpend : pending tr = q.length := pending_eq hrun
  refine ⟨⟨q, hrun, hq⟩, ⟨q, hputs.symm⟩, ?_, ?_, ?_, ?_, fun hw b => ?_, fun hr => ?_⟩
  · rw [hpend, hq.availableRead_eq]
  · rw [hpend, hq.availableWrite_eq]
  · rw [hpend, hq.status_eq, statusOf_eq_empty]
  · rw [hpend, hq.status_eq, statusOf_eq_full]
  · rw [hq.availableWrite_eq] at hw
    obtain ⟨r', hr', -⟩ := hq.writeByte b (by omega)
    rw [hr']; rfl
  · rw [hq.availableRead_eq] at hr
    cases q with
    | nil => exact absurd hr (by simp)
    | cons b q =>
      obtain ⟨r', hr', -⟩ := hq.readByte
      rw [hr']; rfl

/-- The buffer is filled, the first byte is read and another one is written to its place: the tail
has come around, and the buffer is full again. -/
theorem run_fifo_wrap : ∃ r, system.Run new
    ((7 :: List.replicate 2047 0).map .put ++ [.get 7] ++ [.put 9]) r ∧ r.status = .full ∧
    r.availableRead = 2048 ∧ r.availableWrite = 0 := by
  have hfill : (queue UInt8 ringBufferSize).Run [] ((7 :: List.replicate 2047 0).map .put)
      (7 :: List.replicate 2047 0) :=
    run_puts (q := []) (by rw [List.length_cons, List.length_replicate]; decide)
  have hq := (hfill.snoc (.get 7)).snoc (.put 9 (by rw [List.length_replicate]; decide))
  have hpend : pending _ = 2048 := (pending_eq hq).trans (by
    rw [List.length_append, List.length_replicate, List.length_singleton])
  obtain ⟨r, hrun, -⟩ := simulated.run new_represents hq
  obtain ⟨-, -, hread, hwrite, -, hfull, -⟩ := run_fifo hrun
  rw [hpend] at hread hwrite hfull
  exact ⟨r, hrun, hfull.mpr rfl, hread, hwrite⟩

end PipeRingBuffer

end TinyOS
