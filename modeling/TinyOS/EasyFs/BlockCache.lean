import TinyOS.EasyFs.Basic
import TinyOS.Lib.Transition
import TinyOS.Lib.WriteBack

/-!
# The block cache

`BlockCache` and `block_cache_sync_all` of `easy-fs/src/block_cache.rs`. `get_mut` sets the flag
`modified`, `sync` clears it and writes the block, and `drop` calls `sync`. A closure of type `T` is
what it does to the `size_of::<T>()` bytes it sees.

For every block the device and the cache are a `WriteBack.Line`, and every operation is an act on
each line (`Step.line`). `run_cache` says that the cache cannot be told from a device that is
modified directly, and when it writes.
-/

namespace TinyOS.EasyFs

open Transition WriteBack

/-! ## A cached block -/

/-- `struct BlockCache`: the bytes of one block in memory, and whether they differ from those on
the device. Its device is left out: the model has a single one. -/
structure BlockCache where
  cache : Block
  blockId : Nat
  modified : Bool

/-- The checks of `get_ref` and `get_mut`: the assertion, whose sum may overflow, and the index in
`addr_of_offset`. In a release build a sum that wraps around passes the assertion; as no type is
larger than `isize::MAX` bytes, the index then panics. -/
def checkAccess (a : Arith) (offset size : Nat) : Except Panic Unit := do
  if (← a.addUsize offset size) ≤ blockSz then
    if offset < blockSz then return else throw .index
  else throw (.assertion "offset + type_size <= BLOCK_SZ")

/-- The `size` bytes of a block from an offset on. -/
def Block.view (b : Block) (offset size : Nat) : Fin size → UInt8 := fun k =>
  Bytes.Codec.view b offset k

/-- The block after `f` was applied to the `size` bytes from an offset on: what `modify` makes
of the cached bytes. -/
def Block.patch (b : Block) (offset : Nat) {size : Nat}
    (f : (Fin size → UInt8) → Fin size → UInt8) : Block := fun i =>
  if h : offset ≤ i ∧ i < offset + size then f (Block.view b offset size) ⟨i - offset, by omega⟩
  else b i

section

variable {b : Block} {offset size : Nat} {f : (Fin size → UInt8) → Fin size → UInt8}
  {i : Fin blockSz}

/-- The bytes a closure sees are the bytes of the block. -/
theorem Block.view_apply {k : Fin size} (h : i.val = offset + k.val) :
    Block.view b offset size k = b i := by
  have hlt : offset + k.val < blockSz := h ▸ i.isLt
  rw [Block.view, Bytes.Codec.view, dif_pos hlt]
  exact congrArg b (Fin.ext h.symm)

/-- Inside its range a modification leaves what the closure makes of the bytes. -/
theorem Block.patch_inside {k : Fin size} (h : i.val = offset + k.val) :
    Block.patch b offset f i = f (Block.view b offset size) k := by
  have hk := k.isLt
  rw [Block.patch, dif_pos ⟨by omega, by omega⟩]
  exact congrArg _ (Fin.ext (by dsimp only; omega))

/-- Outside its range a modification leaves the bytes as they were. -/
theorem Block.patch_outside (h : i.val < offset ∨ offset + size ≤ i.val) :
    Block.patch b offset f i = b i := by
  rw [Block.patch, dif_neg (by omega)]

/-- Bytes that lie inside the block can be accessed in every build. -/
theorem checkAccess_eq_ok (a : Arith) (hoffset : offset < blockSz)
    (hsize : offset + size ≤ blockSz) : checkAccess a offset size = .ok () := by
  have hlt : offset + size < 2 ^ 64 := Nat.lt_of_le_of_lt hsize (by decide)
  refine bind_eq_ok.mpr ⟨offset + size, ?_, ?_⟩
  · rw [Arith.addUsize, if_pos (.inr hlt), Nat.mod_eq_of_lt hlt]
  · rw [if_pos hsize, if_pos hoffset]
    rfl

end

/-- The device after the given calls of `write_block`, made one after the other; the last write
of a block stays. -/
def writeBlocks (dev : Store) (writes : List (Nat × Block)) : Store :=
  writes.foldl (fun dev w => Function.update dev w.1 w.2) dev

namespace BlockCache

/-- `BlockCache::new`: a block is loaded from the device, and is not modified until a client
changes it. -/
def new (blockId : Nat) (dev : Store) : BlockCache := ⟨dev blockId, blockId, false⟩

/-- `read`: the closure sees the bytes of a `T` through `get_ref`. -/
def read {V : Type} (a : Arith) (c : BlockCache) (offset size : Nat)
    (f : (Fin size → UInt8) → V) : Except Panic V := do
  checkAccess a offset size
  return f (Block.view c.cache offset size)

/-- `modify`: the closure changes the bytes of a `T` through `get_mut`, which sets the flag. -/
def modify (a : Arith) (c : BlockCache) (offset size : Nat)
    (f : (Fin size → UInt8) → Fin size → UInt8) : Except Panic BlockCache := do
  checkAccess a offset size
  return { c with cache := Block.patch c.cache offset f, modified := true }

/-- `sync`: the cache it leaves and the calls of `write_block` it makes. -/
def sync (c : BlockCache) : BlockCache × List (Nat × Block) :=
  if c.modified then ({ c with modified := false }, [(c.blockId, c.cache)]) else (c, [])

end BlockCache

/-! ## A device and its cached blocks -/

/-- A device and the blocks in `queue`, the objects `block_cache_sync_all` goes through. -/
structure CachedDevice where
  dev : Store
  queue : List BlockCache
  distinct : (queue.map BlockCache.blockId).Nodup

/-- A call on the cache, a `read` together with the bytes it hands to its closure. -/
inductive Call where
  | new (b : Nat)
  | read (b offset size : Nat) (bytes : Fin size → UInt8)
  | modify (b offset size : Nat) (f : (Fin size → UInt8) → Fin size → UInt8)
  | sync (b : Nat)
  | drop (b : Nat)
  | syncAll

/-- A call and the calls of `write_block` it makes, with the block numbers and the bytes, in
their order. -/
structure Event where
  call : Call
  writes : List (Nat × Block)

namespace CachedDevice

/-- What changes cached blocks, but not which blocks they are, leaves the block numbers of the
queue alone. -/
theorem map_blockId {queue : List BlockCache} {g : BlockCache → BlockCache}
    (hg : ∀ c, (g c).blockId = c.blockId) :
    (queue.map g).map BlockCache.blockId = queue.map BlockCache.blockId := by
  rw [List.map_map]
  exact List.map_congr_left fun c _ => hg c

/-- `sync` changes whether a cached block is modified, never which block of the device it is. -/
theorem sync_blockId (c : BlockCache) : c.sync.1.blockId = c.blockId := by
  unfold BlockCache.sync
  split <;> rfl

/-- A cached block takes the place of the one with its number. -/
def replace (c' c : BlockCache) : BlockCache := if c.blockId = c'.blockId then c' else c

/-- Replacing a cached block by a newer version of it keeps its block number. -/
theorem replace_blockId (c' c : BlockCache) : (replace c' c).blockId = c.blockId := by
  unfold replace
  split
  · rename_i h
    exact h.symm
  · rfl

/-- The device with changes to its cached blocks: each entry is replaced by what `g` makes of
it, under its own number. -/
def mapQueue (s : CachedDevice) (dev : Store) (g : BlockCache → BlockCache)
    (hg : ∀ c, (g c).blockId = c.blockId) : CachedDevice :=
  ⟨dev, s.queue.map g, (map_blockId hg).symm ▸ s.distinct⟩

/-- The state after `BlockCache::new`: the block was read from the device and is cached now, not
modified. -/
def load (s : CachedDevice) (b : Nat) (h : b ∉ s.queue.map BlockCache.blockId) : CachedDevice where
  dev := s.dev
  queue := s.queue ++ [.new b s.dev]
  distinct := by
    rw [List.map_append, List.nodup_append]
    refine ⟨s.distinct, List.nodup_singleton _, ?_⟩
    rintro _ ha _ hb rfl
    rw [List.map_singleton, List.mem_singleton] at hb
    subst hb
    exact h ha

/-- The state after a cached block was dropped, on the device its `Drop` has written to. -/
def forget (s : CachedDevice) (dev : Store) (b : Nat) : CachedDevice where
  dev := dev
  queue := s.queue.filter (·.blockId ≠ b)
  distinct := s.distinct.sublist (List.filter_sublist.map _)

/-- The calls on the cached blocks of a device, in a build. A call that panics is no step. -/
inductive Step (a : Arith) (s : CachedDevice) : Event → CachedDevice → Prop where
  | new {b : Nat} (h : b ∉ s.queue.map BlockCache.blockId) : Step a s ⟨.new b, []⟩ (s.load b h)
  | read {c : BlockCache} {offset size : Nat} {bytes : Fin size → UInt8} (hc : c ∈ s.queue)
      (h : c.read a offset size id = .ok bytes) :
      Step a s ⟨.read c.blockId offset size bytes, []⟩ s
  | modify {c c' : BlockCache} {offset size : Nat} {f : (Fin size → UInt8) → Fin size → UInt8}
      (hc : c ∈ s.queue) (h : c.modify a offset size f = .ok c') :
      Step a s ⟨.modify c.blockId offset size f, []⟩
        (s.mapQueue s.dev (replace c') (replace_blockId c'))
  | sync {c : BlockCache} (hc : c ∈ s.queue) :
      Step a s ⟨.sync c.blockId, c.sync.2⟩
        (s.mapQueue (writeBlocks s.dev c.sync.2) (replace c.sync.1) (replace_blockId c.sync.1))
  | drop {c : BlockCache} (hc : c ∈ s.queue) :
      Step a s ⟨.drop c.blockId, c.sync.2⟩ (s.forget (writeBlocks s.dev c.sync.2) c.blockId)
  | syncAll :
      Step a s ⟨.syncAll, s.queue.flatMap fun c => c.sync.2⟩
        (s.mapQueue (writeBlocks s.dev (s.queue.flatMap fun c => c.sync.2)) (fun c => c.sync.1)
          sync_blockId)

/-- Any sequence of calls, from any device with any set of blocks just loaded. -/
def system (a : Arith) : System CachedDevice Event where
  init s := ∀ c ∈ s.queue, c = .new c.blockId s.dev
  step := Step a

variable {a : Arith} {s s' : CachedDevice} {e : Event} {b : Nat} {v : Block} {c : BlockCache}

/-! ## The line of a block -/

/-- The block on the device and in the cache, as a line of the write-back library: cached bytes
and whether they are modified. -/
def line (s : CachedDevice) (b : Nat) : Line Block where
  device := s.dev b
  copy := (s.queue.find? fun c => c.blockId = b).map fun c => (c.cache, c.modified)

/-- The line of a block that is cached: what the device holds, the cached bytes, and whether
they are modified. -/
theorem line_of_mem (hc : c ∈ s.queue) :
    s.line c.blockId = ⟨s.dev c.blockId, some (c.cache, c.modified)⟩ := by
  have hfind : s.queue.find? (fun d => d.blockId = c.blockId) = some c := by
    cases h : s.queue.find? fun d => d.blockId = c.blockId with
    | none =>
      have hne := List.find?_eq_none.mp h c hc
      simp at hne
    | some d =>
      have hd := List.mem_of_find?_eq_some h
      have hid : d.blockId = c.blockId := by simpa using List.find?_some h
      rw [List.inj_on_of_nodup_map s.distinct hd hc hid]
  rw [line, hfind, Option.map_some]

/-- The line of a block that is not cached is the device's own block, with nothing above it. -/
theorem line_of_not_mem (hb : b ∉ s.queue.map BlockCache.blockId) : s.line b = ⟨s.dev b, none⟩ := by
  have hfind : s.queue.find? (fun d => d.blockId = b) = none := by
    refine List.find?_eq_none.mpr fun d hd heq => hb ?_
    exact List.mem_map.mpr ⟨d, hd, of_decide_eq_true heq⟩
  rw [line, hfind, Option.map_none]

/-- A block is cached by an entry of the queue, or its number is not among theirs. -/
theorem cached_or_not (s : CachedDevice) (b : Nat) :
    (∃ c ∈ s.queue, c.blockId = b) ∨ b ∉ s.queue.map BlockCache.blockId := by
  by_cases hb : b ∈ s.queue.map BlockCache.blockId
  · exact .inl (List.mem_map.mp hb)
  · exact .inr hb

section mapQueue

variable {dev : Store} {g : BlockCache → BlockCache} {hg : ∀ c, (g c).blockId = c.blockId}

/-- The line of a cached block after every entry was changed and the device was replaced. -/
theorem line_mapQueue_of_mem (hc : c ∈ s.queue) :
    (s.mapQueue dev g hg).line c.blockId = ⟨dev c.blockId, some ((g c).cache, (g c).modified)⟩ := by
  have h := line_of_mem (s := s.mapQueue dev g hg) (List.mem_map_of_mem hc)
  rwa [hg] at h

/-- The line of a block that is not cached changes only with the device, whatever happens to the
entries. -/
theorem line_mapQueue_of_not_mem (hb : b ∉ s.queue.map BlockCache.blockId) :
    (s.mapQueue dev g hg).line b = ⟨dev b, none⟩ := by
  refine line_of_not_mem (s := s.mapQueue dev g hg) ?_
  rwa [mapQueue, map_blockId hg]

end mapQueue

/-! ## Writing back -/

/-- `sync` writes a block only if it is its own, is modified, and with the bytes it has in the
cache. -/
theorem mem_sync_writes : (b, v) ∈ c.sync.2 ↔ c.modified = true ∧ b = c.blockId ∧ v = c.cache := by
  unfold BlockCache.sync
  split
  · rename_i hm
    simp [hm]
  · rename_i hm
    simp [hm]

/-- After `sync` a cached block is unmodified and holds the same bytes as before. -/
theorem sync_fst (c : BlockCache) : c.sync.1 = { c with modified := false } := by
  obtain ⟨cache, blockId, modified⟩ := c
  cases modified <;> rfl

/-- What `sync` leaves on the device: the cached bytes in its own block if that was modified,
the old ones elsewhere. -/
theorem writeBlocks_sync (dev : Store) (c : BlockCache) (b : Nat) :
    writeBlocks dev c.sync.2 b = if c.modified = true ∧ b = c.blockId then c.cache else dev b := by
  obtain ⟨cache, blockId, modified⟩ := c
  cases modified with
  | false => rfl
  | true =>
    rw [writeBlocks, BlockCache.sync, if_pos rfl, List.foldl_cons, List.foldl_nil,
      Function.update_apply]
    simp

/-- What a `sync` of every cached block leaves on the device. -/
theorem writeBlocks_syncs {queue : List BlockCache} (hd : (queue.map BlockCache.blockId).Nodup)
    (dev : Store) :
    (∀ b ∉ queue.map BlockCache.blockId,
      writeBlocks dev (queue.flatMap fun c => c.sync.2) b = dev b) ∧
    ∀ c ∈ queue, writeBlocks dev (queue.flatMap fun c => c.sync.2) c.blockId =
      if c.modified = true then c.cache else dev c.blockId := by
  induction queue generalizing dev with
  | nil => exact ⟨fun b _ => rfl, fun c hc => by cases hc⟩
  | cons c₀ queue ih =>
    rw [List.map_cons, List.nodup_cons] at hd
    obtain ⟨hother, hcached⟩ := ih hd.2 (writeBlocks dev c₀.sync.2)
    rw [List.flatMap_cons, writeBlocks, List.foldl_append]
    constructor
    · intro b hb
      rw [List.map_cons, List.mem_cons, not_or] at hb
      refine (hother b hb.2).trans ?_
      rw [writeBlocks_sync, if_neg fun h => hb.1 h.2]
    · intro c hc
      rcases List.mem_cons.mp hc with rfl | hc
      · refine (hother _ hd.1).trans ?_
        rw [writeBlocks_sync]
        simp
      · have hne : c.blockId ≠ c₀.blockId := by
          intro h
          exact hd.1 (List.mem_map.mpr ⟨c, hc, h⟩)
        have hdev : writeBlocks dev c₀.sync.2 c.blockId = dev c.blockId := by
          rw [writeBlocks_sync, if_neg fun h => hne h.2]
        refine (hcached c hc).trans ?_
        rw [hdev]

/-! ## The calls as acts on the lines -/

/-- What a call does to the line of a block. -/
def act (b : Nat) : Call → Act Block
  | .new b' => if b' = b then .load else .keep
  | .read .. => .keep
  | .modify b' offset _ f => if b' = b then .modify fun x => Block.patch x offset f else .keep
  | .sync b' => if b' = b then .sync else .keep
  | .drop b' => if b' = b then .drop else .keep
  | .syncAll => .sync

/-- What the device holds of a line once it is written back: the cached bytes if they were
modified. -/
theorem pending_getD (c : BlockCache) (d : Block) :
    (Line.pending ⟨d, some (c.cache, c.modified)⟩).getD d =
      if c.modified = true then c.cache else d := by
  cases hm : c.modified with
  | true => rfl
  | false => rfl

/-- The line of a block depends on the device and the cache at this block only. -/
theorem line_keep (hdev : s'.dev b = s.dev b)
    (hqueue : ∀ c, c.blockId = b → (c ∈ s'.queue ↔ c ∈ s.queue)) : s'.line b = s.line b := by
  rcases s.cached_or_not b with ⟨c, hc, rfl⟩ | hb
  · rw [line_of_mem hc, line_of_mem ((hqueue c rfl).mpr hc), hdev]
  · have hb' : b ∉ s'.queue.map BlockCache.blockId := by
      intro h
      obtain ⟨c, hc, hid⟩ := List.mem_map.mp h
      exact hb (List.mem_map.mpr ⟨c, (hqueue c hid).mp hc, hid⟩)
    rw [line_of_not_mem hb, line_of_not_mem hb', hdev]

/-- Replacing one cached block keeps the entries of the other blocks in the queue. -/
theorem mem_map_replace {c' d : BlockCache} (h : d.blockId ≠ c'.blockId) :
    d ∈ s.queue.map (replace c') ↔ d ∈ s.queue := by
  constructor
  · intro hd
    obtain ⟨c, hc, rfl⟩ := List.mem_map.mp hd
    rw [replace_blockId] at h
    rwa [replace, if_neg h]
  · intro hd
    refine List.mem_map.mpr ⟨d, hd, ?_⟩
    rw [replace, if_neg h]

/-- What follows the checks is what an access that succeeds returns. -/
theorem of_checkAccess {α : Type} {offset size : Nat} {x y : α}
    (h : (do checkAccess a offset size; return x) = Except.ok y) : y = x := by
  obtain ⟨-, -, h⟩ := bind_eq_ok.mp h
  exact (Except.ok.inj h).symm

/-- A `modify` that succeeds leaves the patched bytes and marks the block as modified; nothing
else changes. -/
theorem modify_eq_ok {c' : BlockCache} {offset size : Nat}
    {f : (Fin size → UInt8) → Fin size → UInt8} (h : c.modify a offset size f = .ok c') :
    c' = { c with cache := Block.patch c.cache offset f, modified := true } :=
  of_checkAccess h

/-- A `read` that succeeds hands its closure the bytes the cache holds at this place. -/
theorem read_eq_ok {offset size : Nat} {bytes : Fin size → UInt8}
    (h : c.read a offset size id = .ok bytes) : bytes = Block.view c.cache offset size :=
  of_checkAccess h

/-- A read of bytes that lie inside the block succeeds. -/
theorem read_of_inside {offset size : Nat} (hoffset : offset < blockSz)
    (hsize : offset + size ≤ blockSz) :
    c.read a offset size id = .ok (Block.view c.cache offset size) :=
  bind_eq_ok.mpr ⟨(), checkAccess_eq_ok a hoffset hsize, rfl⟩

/-- A modification of bytes that lie inside the block succeeds. -/
theorem modify_of_inside {offset size : Nat} {f : (Fin size → UInt8) → Fin size → UInt8}
    (hoffset : offset < blockSz) (hsize : offset + size ≤ blockSz) :
    c.modify a offset size f =
      .ok { c with cache := Block.patch c.cache offset f, modified := true } :=
  bind_eq_ok.mpr ⟨(), checkAccess_eq_ok a hoffset hsize, rfl⟩

/-- The lines after a cached block was replaced: that of the block itself has the new bytes, as
`modify` left them. -/
theorem line_replace {c' : BlockCache} {dev : Store} (hc : c ∈ s.queue)
    (hid : c'.blockId = c.blockId) :
    (s.mapQueue dev (replace c') (replace_blockId c')).line c.blockId =
      ⟨dev c.blockId, some (c'.cache, c'.modified)⟩ := by
  rw [line_mapQueue_of_mem hc, replace, if_pos hid.symm]

/-- Replacing the entry of one block leaves the line of every other block as it is. -/
theorem line_replace_of_ne {c' : BlockCache} {dev : Store} (hb : c'.blockId ≠ b)
    (hdev : dev b = s.dev b) :
    (s.mapQueue dev (replace c') (replace_blockId c')).line b = s.line b := by
  refine line_keep hdev fun d hd => mem_map_replace ?_
  rw [hd]
  exact hb.symm

/-- After a block was cached its line holds the device's bytes twice, unmodified. -/
theorem line_load (h : b ∉ s.queue.map BlockCache.blockId) :
    (s.load b h).line b = ⟨s.dev b, some (s.dev b, false)⟩ := by
  have hmem : BlockCache.new b s.dev ∈ (s.load b h).queue :=
    List.mem_append_right _ (List.mem_singleton_self _)
  exact line_of_mem hmem

/-- Caching one block leaves the line of every other block as it is. -/
theorem line_load_of_ne {b' : Nat} (h : b' ∉ s.queue.map BlockCache.blockId) (hb : b' ≠ b) :
    (s.load b' h).line b = s.line b := by
  refine line_keep rfl fun c hc => ?_
  simp only [load, List.mem_append, List.mem_singleton, or_iff_left_iff_imp]
  rintro rfl
  exact absurd hc hb

/-- The lines after a block was dropped from the cache. -/
theorem line_forget (dev : Store) : (s.forget dev b).line b = ⟨dev b, none⟩ := by
  have hnot : b ∉ (s.forget dev b).queue.map BlockCache.blockId := by
    simp [forget]
  exact line_of_not_mem hnot

/-- Dropping the entry of one block leaves the line of every other block as it is. -/
theorem line_forget_of_ne {b' : Nat} {dev : Store} (hb : b' ≠ b) (hdev : dev b = s.dev b) :
    (s.forget dev b').line b = s.line b := by
  refine line_keep hdev fun d hd => ?_
  simp only [forget, List.mem_filter, decide_eq_true_eq, and_iff_left_iff_imp]
  rintro _ heq
  exact hb (heq.symm.trans hd)

/-- **A call is an act on every line.** So the write-back library says what the call does to
each of the blocks. -/
theorem Step.line (hs : Step a s e s') (b : Nat) :
    (s.line b).Step (act b e.call) (s'.line b) := by
  cases hs with
  | @new b' h =>
    rw [act]
    by_cases hb : b' = b
    · subst hb
      rw [if_pos rfl, line_of_not_mem h, line_load h]
      exact .load rfl
    · rw [if_neg hb, line_load_of_ne h hb]
      exact .keep
  | read hc h => exact .keep
  | @modify c c' offset size f hc h =>
    have hc' := modify_eq_ok h
    have hid : c'.blockId = c.blockId := by rw [hc']
    rw [act]
    by_cases hb : c.blockId = b
    · subst hb
      rw [if_pos rfl, line_of_mem hc, line_replace hc hid, hc']
      exact .modify rfl
    · rw [if_neg hb, line_replace_of_ne (hid ▸ hb) rfl]
      exact .keep
  | @sync c hc =>
    have hid := sync_blockId c
    rw [act]
    by_cases hb : c.blockId = b
    · subst hb
      rw [if_pos rfl, line_of_mem hc, line_replace hc hid, sync_fst, writeBlocks_sync]
      simp only [and_true]
      rw [← pending_getD]
      exact .sync
    · rw [if_neg hb, line_replace_of_ne (hid ▸ hb)]
      · exact .keep
      · rw [writeBlocks_sync, if_neg fun h => hb h.2.symm]
  | @drop c hc =>
    rw [act]
    by_cases hb : c.blockId = b
    · subst hb
      rw [if_pos rfl, line_of_mem hc, line_forget, writeBlocks_sync]
      simp only [and_true]
      rw [← pending_getD]
      exact .drop
    · rw [if_neg hb, line_forget_of_ne hb]
      · exact .keep
      · rw [writeBlocks_sync, if_neg fun h => hb h.2.symm]
  | syncAll =>
    obtain ⟨hother, hcached⟩ := writeBlocks_syncs s.distinct s.dev
    rw [act]
    rcases s.cached_or_not b with ⟨c, hc, rfl⟩ | hb
    · rw [line_of_mem hc, line_mapQueue_of_mem hc, sync_fst, hcached c hc, ← pending_getD]
      exact .sync
    · rw [line_of_not_mem hb, line_mapQueue_of_not_mem hb, hother b hb]
      exact .sync

/-- What is written is written back from a line: the modified bytes, by an act that empties the
line's pending copy. -/
theorem Step.written (hs : Step a s e s') (hw : (b, v) ∈ e.writes) :
    (s.line b).written (act b e.call) = some v := by
  cases hs with
  | new _ | read _ _ | modify _ _ => cases hw
  | @sync c hc =>
    obtain ⟨hm, rfl, rfl⟩ := mem_sync_writes.mp hw
    rw [act, if_pos rfl, line_of_mem hc, hm]
    rfl
  | @drop c hc =>
    obtain ⟨hm, rfl, rfl⟩ := mem_sync_writes.mp hw
    rw [act, if_pos rfl, line_of_mem hc, hm]
    rfl
  | syncAll =>
    obtain ⟨c, hc, hw⟩ := List.mem_flatMap.mp hw
    obtain ⟨hm, rfl, rfl⟩ := mem_sync_writes.mp hw
    rw [act, line_of_mem hc, hm]
    rfl

/-! ## Runs -/

/-- What a call does to a device without a cache: a modification replaces the bytes from its offset
on by what its closure makes of them, and leaves all others. -/
def apply (dev : Store) : Call → Store
  | .modify b offset size f => fun b' i =>
    if h : b' = b ∧ offset ≤ i.val ∧ i.val < offset + size then
      f (fun k => if hk : offset + k.val < blockSz then dev b ⟨offset + k, hk⟩ else 0)
        ⟨i - offset, by omega⟩
    else dev b' i
  | .new _ | .read .. | .sync _ | .drop _ | .syncAll => dev

/-- The device without a cache after some calls, each of them made directly: what readers should
see. -/
def replay (dev : Store) (tr : List Event) : Store := tr.foldl (fun dev e => apply dev e.call) dev

/-- The block has been modified and not been written since. -/
def ModifiedSinceWrite (tr : List Event) (b : Nat) : Prop :=
  ∃ pre e post, tr = pre ++ e :: post ∧ (∃ offset size f, e.call = .modify b offset size f) ∧
    ∀ e' ∈ post, ∀ w ∈ e'.writes, w.1 ≠ b

/-- There has been a `block_cache_sync_all`, and nothing has been modified since. -/
def Synced (tr : List Event) : Prop :=
  ∃ pre ws post, tr = pre ++ ⟨.syncAll, ws⟩ :: post ∧
    ∀ e ∈ post, ∀ b offset size f, e.call ≠ .modify b offset size f

/-- A modification of the device without a cache, as a patch of one block. -/
theorem apply_modify (dev : Store) (b offset : Nat) {size : Nat}
    (f : (Fin size → UInt8) → Fin size → UInt8) :
    apply dev (.modify b offset size f) =
      Function.update dev b (Block.patch (dev b) offset f) := by
  funext b' i
  dsimp only [apply]
  rw [Function.update_apply]
  by_cases hb : b' = b
  · subst hb
    simp only [true_and, if_pos]
    rfl
  · rw [dif_neg fun h => hb h.1, if_neg hb]

/-- What a call does to the direct device at one block is the action of the call on that block's
line. -/
theorem apply_eq (dev : Store) (call : Call) (b : Nat) :
    apply dev call b = (act b call).apply (dev b) := by
  cases call with
  | modify b' offset size f =>
    rw [apply_modify, act, Function.update_apply]
    by_cases hb : b' = b
    · subst hb
      rw [if_pos rfl, if_pos rfl]
      rfl
    · rw [if_neg hb, if_neg fun h => hb h.symm]
      rfl
  | new b' | sync b' | drop b' =>
    rw [act]
    split <;> rfl
  | read | syncAll => rfl

/-- Only a `modify` of a block acts on its line as a modification. -/
theorem act_eq_modify {call : Call} {g : Block → Block} (h : act b call = .modify g) :
    ∃ offset size f, call = .modify b offset size f := by
  cases call with
  | modify b' offset size f =>
    rw [act] at h
    split at h
    · rename_i hb
      exact ⟨offset, size, f, hb ▸ rfl⟩
    · cases h
  | new b' | sync b' | drop b' =>
    rw [act] at h
    split at h <;> cases h
  | read | syncAll => cases h

/-- Right after a `block_cache_sync_all` everything is synced, whatever has been modified before
it. -/
theorem synced_syncAll (tr : List Event) (ws : List (Nat × Block)) :
    Synced (tr ++ [⟨.syncAll, ws⟩]) := by
  refine ⟨tr, ws, [], rfl, fun e he => ?_⟩
  cases he

/-- After a modification nothing is synced any more, until the next `block_cache_sync_all`. -/
theorem not_synced_modify {tr : List Event} {offset size : Nat}
    {f : (Fin size → UInt8) → Fin size → UInt8} (he : e.call = .modify b offset size f) :
    ¬ Synced (tr ++ [e]) := by
  rintro ⟨pre, ws, post, htr, hpost⟩
  rcases List.eq_nil_or_concat post with rfl | ⟨post, e', rfl⟩
  · obtain ⟨-, hlast⟩ := List.append_inj' htr rfl
    cases hlast
    cases he
  · rw [List.concat_eq_append, ← List.cons_append, ← List.append_assoc] at htr
    obtain ⟨-, hlast⟩ := List.append_inj' htr rfl
    cases hlast
    exact hpost e (by simp) b offset size f he

/-- What is synced was so before, or is so because of the last call. -/
theorem Synced.of_snoc {tr : List Event} (h : Synced (tr ++ [e])) :
    e.call = .syncAll ∨ Synced tr := by
  obtain ⟨pre, ws, post, htr, hpost⟩ := h
  rcases List.eq_nil_or_concat post with rfl | ⟨post, e', rfl⟩
  · obtain ⟨-, hlast⟩ := List.append_inj' htr rfl
    cases hlast
    exact .inl rfl
  · rw [List.concat_eq_append, ← List.cons_append, ← List.append_assoc] at htr
    obtain ⟨rfl, -⟩ := List.append_inj' htr rfl
    exact .inr ⟨pre, ws, post, rfl, fun e he => hpost e (by simp [he])⟩

/-- A block modified since its last write stays so over an event that does not write it. -/
theorem ModifiedSinceWrite.snoc {tr : List Event} (h : ModifiedSinceWrite tr b)
    (he : ∀ w ∈ e.writes, w.1 ≠ b) : ModifiedSinceWrite (tr ++ [e]) b := by
  obtain ⟨pre, e₀, post, rfl, hmod, hpost⟩ := h
  refine ⟨pre, e₀, post ++ [e], by simp, hmod, fun e' he' => ?_⟩
  rcases List.mem_append.mp he' with he' | he'
  · exact hpost e' he'
  · rw [List.mem_singleton] at he'
    subst he'
    exact he

/-- What holds of the line of a block after the calls `tr`. -/
structure Inv (dev : Store) (tr : List Event) (s : CachedDevice) (b : Nat) : Prop where
  coherent : (s.line b).Coherent
  value : (s.line b).value = replay dev tr b
  modified : (s.line b).pending.isSome → ModifiedSinceWrite tr b ∧ ¬ Synced tr

/-- **A call keeps the invariant.** The line of the block takes the step of the write-back
library that the call stands for. -/
theorem Inv.step {dev : Store} {tr : List Event} (h : Inv dev tr s b) (hs : Step a s e s') :
    Inv dev (tr ++ [e]) s' b := by
  have hline := hs.line b
  refine ⟨hline.coherent h.coherent, ?_, fun hp => ?_⟩
  · rw [hline.value_eq h.coherent, h.value, replay, replay, List.foldl_append, List.foldl_cons,
      List.foldl_nil, apply_eq]
  · rcases hline.pending_of_isSome hp with ⟨g, hact⟩ | ⟨hbefore, hnone⟩
    · obtain ⟨offset, size, f, hcall⟩ := act_eq_modify hact
      refine ⟨⟨tr, e, [], rfl, ⟨offset, size, f, hcall⟩, fun e' he' => by cases he'⟩, ?_⟩
      exact not_synced_modify hcall
    · obtain ⟨hmod, hsync⟩ := h.modified hbefore
      refine ⟨hmod.snoc ?_, fun hsynced => ?_⟩
      · rintro ⟨b', v⟩ hw rfl
        rw [hs.written hw] at hnone
        cases hnone
      · rcases hsynced.of_snoc with hcall | hsynced
        · rw [hcall, act, Line.written] at hnone
          rw [hnone] at hbefore
          cases hbefore
        · exact hsync hsynced

/-- A block that has just been loaded, or is not cached. -/
theorem inv_init (h : (system a).init s) (b : Nat) : Inv s.dev [] s b := by
  have hcopy : (s.line b).copy = none ∨ (s.line b).copy = some ((s.line b).device, false) := by
    rcases s.cached_or_not b with ⟨c, hc, rfl⟩ | hb
    · right
      rw [line_of_mem hc, h c hc]
      rfl
    · left
      rw [line_of_not_mem hb]
  obtain ⟨hcoherent, hvalue, hpending⟩ := Line.of_loaded hcopy
  refine ⟨hcoherent, hvalue, fun hp => ?_⟩
  rw [hpending] at hp
  cases hp

/-- The invariant holds at every block after every run: `Inv.step`, over the calls made so far. -/
theorem inv_of_run {s₀ : CachedDevice} {tr : List Event} (h₀ : (system a).init s₀)
    (hrun : (system a).Run s₀ tr s) (b : Nat) : Inv s₀.dev tr s b :=
  hrun.history (I := fun tr s => Inv s₀.dev tr s b) (inv_init h₀ b)
    fun _ _ _ _ h hs => h.step hs

/-- A cached block holds the value of the direct device, the one the calls so far have left. -/
theorem Inv.value_of_mem {dev : Store} {tr : List Event} (h : Inv dev tr s c.blockId)
    (hc : c ∈ s.queue) : c.cache = replay dev tr c.blockId := by
  rw [← h.value, line_of_mem hc]
  rfl

/-- The device after a block has been written back: it holds there what the direct device holds,
whatever was modified before. -/
theorem Inv.dev_eq {dev : Store} {tr : List Event} (h : Inv dev tr s b) (hs : Step a s e s')
    (hact : act b e.call = .sync ∨ act b e.call = .drop) : s'.dev b = replay dev tr b :=
  ((hs.line b).device_eq_value h.coherent hact).trans h.value

/-- What a call writes has been modified since the block was last written, and was not synced
before. -/
theorem Inv.modified_of_write {dev : Store} {tr : List Event} (h : Inv dev tr s b)
    (hs : Step a s e s') (hw : (b, v) ∈ e.writes) : ModifiedSinceWrite tr b ∧ ¬ Synced tr := by
  refine h.modified ?_
  rw [Line.pending_of_written (hs.written hw)]
  rfl

/-- A block that is not cached is not written, by any call: nothing of it can be waiting in the
cache. -/
theorem Step.dev_of_not_mem (hs : Step a s e s') (hb : b ∉ s.queue.map BlockCache.blockId) :
    s'.dev b = s.dev b := by
  have hdev : s'.dev b = ((s.line b).written (act b e.call)).getD (s.dev b) :=
    (hs.line b).device_eq
  cases hw : (s.line b).written (act b e.call) with
  | none => rwa [hw] at hdev
  | some x =>
    have hp := Line.pending_of_written hw
    rw [line_of_not_mem hb] at hp
    cases hp

/-- A modification of a store of blocks, as the file system sees the device, is a call on the device
without a cache. -/
theorem apply_of_modifyBlock {T : Type} {codec : Bytes.Codec T} {dev dev' : Store} {offset : Nat}
    {g : T → T} (h : modifyBlock codec dev b offset g = .ok dev') :
    offset + codec.size ≤ blockSz ∧ ∃ f, dev' = apply dev (.modify b offset codec.size f) := by
  obtain ⟨u, hcheck, h⟩ := bind_eq_ok.mp h
  obtain ⟨t, -, h⟩ := bind_eq_ok.mp h
  cases h
  refine ⟨?_, fun _ k => codec.encode (g t) k, ?_⟩
  · unfold checkBounds at hcheck
    split at hcheck
    · assumption
    · cases hcheck
  rw [apply_modify]
  refine congrArg (Function.update dev b) (funext fun i => ?_)
  rw [Bytes.Codec.write, Block.patch]
  split
  · rfl
  · rfl

/-- **The cache is write-through after a sync.** After any calls on any cached blocks, in any build:
* a cached block is what the calls make of the device without a cache, and so is the device's block
  when it is loaded;
* bytes that lie inside a cached block can be read and modified: a read sees what the calls make of
  the device without a cache, there as in a run, and a modification leaves in its range what its
  closure makes of the bytes a read sees, and outside it what was there;
* right after its `sync`, its `drop` or `block_cache_sync_all` the device's block is the cached one;
* the device changes by the calls of `write_block` only, which are on blocks modified since they
  were last written, and blocks that are not cached do not change;
* a `block_cache_sync_all` with no modification since the last one writes nothing. -/
theorem run_cache {s₀ : CachedDevice} {tr : List Event} (h₀ : (system a).init s₀)
    (hrun : (system a).Run s₀ tr s) :
    ((∀ c ∈ s.queue, c.cache = replay s₀.dev tr c.blockId) ∧
      ∀ b ws s', (system a).step s ⟨.new b, ws⟩ s' → s.dev b = replay s₀.dev tr b) ∧
    ((∀ c ∈ s.queue, ∀ offset size, offset < blockSz → offset + size ≤ blockSz →
        ∃ bytes : Fin size → UInt8, c.read a offset size id = .ok bytes ∧
          (∀ (k : Fin size) (i : Fin blockSz), i.val = offset + k.val →
            bytes k = replay s₀.dev tr c.blockId i) ∧
          ∀ f, ∃ c', c.modify a offset size f = .ok c' ∧
            (∀ (k : Fin size) (i : Fin blockSz), i.val = offset + k.val →
              c'.cache i = f bytes k) ∧
            ∀ i : Fin blockSz, i.val < offset ∨ offset + size ≤ i.val → c'.cache i = c.cache i) ∧
      ∀ b offset size bytes ws s', (system a).step s ⟨.read b offset size bytes, ws⟩ s' →
        ∀ (k : Fin size) (i : Fin blockSz), i.val = offset + k.val →
          bytes k = replay s₀.dev tr b i) ∧
    ((∀ b ws s', (system a).step s ⟨.sync b, ws⟩ s' →
        ∀ c ∈ s'.queue, c.blockId = b → s'.dev b = c.cache) ∧
      (∀ b ws s', (system a).step s ⟨.drop b, ws⟩ s' →
        ∀ c ∈ s.queue, c.blockId = b → s'.dev b = c.cache) ∧
      ∀ ws s', (system a).step s ⟨.syncAll, ws⟩ s' →
        ∀ c ∈ s'.queue, s'.dev c.blockId = c.cache) ∧
    (∀ e s', (system a).step s e s' → s'.dev = writeBlocks s.dev e.writes ∧
      (∀ w ∈ e.writes, ModifiedSinceWrite tr w.1) ∧
      ∀ b ∉ s.queue.map BlockCache.blockId, s'.dev b = s.dev b) ∧
    (Synced tr → ∀ ws s', (system a).step s ⟨.syncAll, ws⟩ s' → ws = []) := by
  have hinv := inv_of_run h₀ hrun
  refine ⟨⟨fun c hc => (hinv _).value_of_mem hc, fun b ws s' hs => ?_⟩,
    ⟨fun c hc offset size hoffset hsize => ?_, fun b offset size bytes ws s' hs k i hi => ?_⟩,
    ⟨fun b ws s' hs c hc hb => ?_, fun b ws s' hs c hc hb => ?_, fun ws s' hs c hc => ?_⟩,
    fun e s' hs => ⟨?_, fun w hw => ?_, fun b hb => ?_⟩, fun hsynced ws s' hs => ?_⟩
  · cases hs with
    | new hb =>
      rw [← (hinv b).value, line_of_not_mem hb]
      rfl
  · refine ⟨_, read_of_inside hoffset hsize, fun k i hi => ?_, fun f =>
      ⟨_, modify_of_inside hoffset hsize, fun k i hi => ?_, fun i hi => ?_⟩⟩
    · rw [Block.view_apply hi, (hinv _).value_of_mem hc]
    · exact Block.patch_inside hi
    · exact Block.patch_outside hi
  · cases hs with
    | read hc h => rw [read_eq_ok h, Block.view_apply hi, (hinv _).value_of_mem hc]
  · have hnext := ((hinv c.blockId).step hs).value_of_mem hc
    rw [hb] at hnext
    rw [hnext, (hinv b).dev_eq hs (.inl (if_pos rfl)), replay, replay, List.foldl_append]
    rfl
  · subst hb
    rw [(hinv c.blockId).dev_eq hs (.inr (if_pos rfl)), (hinv c.blockId).value_of_mem hc]
  · rw [((hinv c.blockId).step hs).value_of_mem hc, (hinv _).dev_eq hs (.inl rfl), replay, replay,
      List.foldl_append]
    rfl
  · cases hs with
    | new _ | read _ _ | modify _ _ | sync _ | drop _ | syncAll => rfl
  · exact ((hinv w.1).modified_of_write hs hw).1
  · exact Step.dev_of_not_mem hs hb
  · refine List.eq_nil_iff_forall_not_mem.mpr fun w hw => ?_
    exact ((hinv w.1).modified_of_write hs hw).2 hsynced

/-- A byte of block 3 is modified, then that byte and the one before. After `block_cache_sync_all` a
read sees both, and a second `block_cache_sync_all` would write nothing. -/
theorem run_cache_modify : ∃ (s₀ s : CachedDevice) (tr : List Event), (system .debug).init s₀ ∧
    (system .debug).Run s₀ tr s ∧ Synced tr ∧
    (∀ ws s', (system .debug).step s ⟨.syncAll, ws⟩ s' → ws = []) ∧
    ∃ c ∈ s.queue, ∃ bytes, c.read .debug 4 2 id = .ok bytes ∧ bytes 0 = 9 ∧ bytes 1 = 8 := by
  let seven : (Fin 1 → UInt8) → Fin 1 → UInt8 := fun _ _ => 7
  let increment : (Fin 2 → UInt8) → Fin 2 → UInt8 := fun bytes => ![9, bytes 1 + 1]
  let c₀ : BlockCache := .new 3 fun _ _ => 0
  let c₁ : BlockCache := ⟨Block.patch c₀.cache 5 seven, 3, true⟩
  let s₀ : CachedDevice := ⟨fun _ _ => 0, [c₀], List.nodup_singleton _⟩
  have h₀ : (system .debug).init s₀ := by
    intro c hc
    rw [List.mem_singleton.mp hc]
    rfl
  have hmem : ∀ c : BlockCache, c ∈ [c] := List.mem_singleton_self
  have hrun : (system .debug).Run s₀ ([] ++ [⟨.modify 3 5 1 seven, []⟩] ++
      [⟨.modify 3 4 2 increment, []⟩] ++ [⟨.syncAll, _⟩]) _ :=
    .snoc (.snoc (.snoc (.nil s₀) (.modify (c := c₀) (hmem _) rfl))
      (.modify (c := c₁) (hmem _) rfl)) .syncAll
  have hall := run_cache h₀ hrun
  obtain ⟨bytes, hread, hbytes, -⟩ := hall.2.1.1 _ (hmem _) 4 2 (by decide) (by decide)
  refine ⟨s₀, _, _, h₀, hrun, synced_syncAll _ _, hall.2.2.2.2 (synced_syncAll _ _), _, hmem _,
    bytes, hread, ?_, ?_⟩
  · exact hbytes 0 ⟨4, by decide⟩ rfl
  · exact hbytes 1 ⟨5, by decide⟩ rfl

end CachedDevice

end TinyOS.EasyFs
