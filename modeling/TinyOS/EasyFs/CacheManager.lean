import TinyOS.EasyFs.BlockCache
import TinyOS.EasyFs.Locking

/-!
# The block cache manager

`BlockCacheManager` of `easy-fs/src/block_cache.rs`: the queue of cached blocks, the objects they
are, and the `Arc`s its clients hold. The queue is searched by `block_id` alone, so the manager can
only serve one device: here all clients pass the same `block_device`, which is no argument any more.
`get_block_cache` is an exercise; `Meets` states its three requirements. An entry is evicted only if
nobody else has an `Arc` of it, so what a client modifies is always the object in the queue
(`Inv.arcs`), and the manager is the cached device of `BlockCache` (`Step.refines`). So it is the
store of blocks that the other modules take the device for (`run_nothing_lost`).
-/

namespace TinyOS.EasyFs

open Transition
open Locking (blockCacheSize)

/-- The manager with the objects its `Arc`s point to. An object is a number, `arcs` are the `Arc`s
of the clients, each with the `block_id` it was asked for. -/
structure BlockCacheManager where
  dev : Store
  queue : List (Nat × Nat)
  heap : Nat → BlockCache
  next : Nat
  arcs : List (Nat × Nat)

/-- What a client does, with what it gets: the object of a block from `get_block_cache`, or the
bytes of a read. -/
inductive Request where
  | get (b o : Nat)
  | read (b o offset size : Nat) (bytes : Fin size → UInt8)
  | modify (b o offset size : Nat) (f : (Fin size → UInt8) → Fin size → UInt8)
  | release (b o : Nat)
  | syncAll

/-- A request and the calls on cached blocks it makes. -/
structure Request.Served where
  request : Request
  calls : List Event

/-- What a request does to a device without a cache. -/
def Request.apply (dev : Store) : Request → Store
  | .modify b _ offset size f => CachedDevice.apply dev (.modify b offset size f)
  | .get .. | .read .. | .release .. | .syncAll => dev

/-- The device without a cache after some requests, of which only the modifications count. -/
def direct (dev : Store) (tr : List Request.Served) : Store :=
  tr.foldl (fun dev r => r.request.apply dev) dev

namespace BlockCacheManager

/-- `Arc::strong_count` of a cached block: the pointers in the queue and those the clients hold. -/
def strong (s : BlockCacheManager) (o : Nat) : Nat :=
  (s.queue.map Prod.snd).count o + (s.arcs.map Prod.snd).count o

/-- The state after the `Arc` of an entry was cloned for a client that asked for its block. -/
def clone (s : BlockCacheManager) (b o : Nat) : BlockCacheManager :=
  { s with arcs := (b, o) :: s.arcs }

/-- A new `BlockCache` at the back of the queue, under a number no object has had, with the
block as the device has it. -/
def load (s : BlockCacheManager) (b : Nat) : BlockCacheManager :=
  { s with
    queue := s.queue ++ [(b, s.next)]
    heap := Function.update s.heap s.next (.new b s.dev)
    next := s.next + 1 }

/-- The last `Arc` of `o` is dropped, and `Drop` of the block syncs it: the events are what it
writes. -/
def dropped (s : BlockCacheManager) (o : Nat) : BlockCacheManager × List Event :=
  ({ s with dev := writeBlocks s.dev (s.heap o).sync.2 },
    [⟨.drop (s.heap o).blockId, (s.heap o).sync.2⟩])

/-- The entry `o` is removed from the queue, and with the last `Arc` the cached block is dropped
and synced. -/
def evict (s : BlockCacheManager) (queue : List (Nat × Nat)) (o : Nat) :
    BlockCacheManager × List Event :=
  { s with queue := queue }.dropped o

/-- A client's `Arc` is dropped; the block itself goes with it if this was the last one. -/
def release (s : BlockCacheManager) (b o : Nat) : BlockCacheManager × List Event :=
  let s := { s with arcs := s.arcs.erase (b, o) }
  if s.strong o = 0 then s.dropped o else (s, [])

/-- An iteration of the loop of `block_cache_sync_all`: one entry of the queue is locked and
synced. -/
def syncEntry (s : BlockCacheManager) (e : Nat × Nat) : BlockCacheManager :=
  { s with
    dev := writeBlocks s.dev (s.heap e.2).sync.2
    heap := Function.update s.heap e.2 (s.heap e.2).sync.1 }

/-- `block_cache_sync_all`: `sync` of every cached block, in the order of the queue. -/
def blockCacheSyncAll (s : BlockCacheManager) : BlockCacheManager := s.queue.foldl syncEntry s

/-- The requirements on `BlockCacheManager::get_block_cache`: the object it returns, the manager
after it and the calls it makes; `none` is its panic. -/
structure Meets (get : BlockCacheManager → Nat → Option (Nat × BlockCacheManager × List Event)) :
    Prop where
  hit : ∀ s b o, s.queue.find? (fun e => e.1 = b) = some (b, o) →
    get s b = some (o, s.clone b o, [])
  room : ∀ s b, b ∉ s.queue.map Prod.fst → s.queue.length < blockCacheSize →
    get s b = some (s.next, (s.load b).clone b s.next, [⟨.new b, []⟩])
  evict : ∀ s b l x o r, b ∉ s.queue.map Prod.fst → s.queue.length = blockCacheSize →
    s.queue = l ++ (x, o) :: r → (∀ e ∈ l, s.strong e.2 ≠ 1) → s.strong o = 1 →
    get s b = some (s.next, ((s.evict (l ++ r) o).1.load b).clone b s.next,
      (s.evict (l ++ r) o).2 ++ [⟨.new b, []⟩])
  full : ∀ s b, b ∉ s.queue.map Prod.fst → s.queue.length = blockCacheSize →
    (∀ e ∈ s.queue, s.strong e.2 ≠ 1) → get s b = none

variable (a : Arith)
  (get : BlockCacheManager → Nat → Option (Nat × BlockCacheManager × List Event))

/-- A request is served. Blocks are accessed through an `Arc` only. -/
inductive Step (s : BlockCacheManager) : Request.Served → BlockCacheManager → Prop where
  | get {b o : Nat} {calls : List Event} {s' : BlockCacheManager}
      (h : get s b = some (o, s', calls)) : Step s ⟨.get b o, calls⟩ s'
  | read {b o offset size : Nat} {bytes : Fin size → UInt8} (harc : (b, o) ∈ s.arcs)
      (h : (s.heap o).read a offset size id = .ok bytes) :
      Step s ⟨.read b o offset size bytes, [⟨.read (s.heap o).blockId offset size bytes, []⟩]⟩ s
  | modify {b o offset size : Nat} {f : (Fin size → UInt8) → Fin size → UInt8} {c : BlockCache}
      (harc : (b, o) ∈ s.arcs) (h : (s.heap o).modify a offset size f = .ok c) :
      Step s ⟨.modify b o offset size f, [⟨.modify (s.heap o).blockId offset size f, []⟩]⟩
        { s with heap := Function.update s.heap o c }
  | release {b o : Nat} (harc : (b, o) ∈ s.arcs) :
      Step s ⟨.release b o, (s.release b o).2⟩ (s.release b o).1
  | syncAll :
      Step s ⟨.syncAll, [⟨.syncAll, s.queue.flatMap fun e => (s.heap e.2).sync.2⟩]⟩
        s.blockCacheSyncAll

/-- The manager as a transition system, from `BlockCacheManager::new()` and any device on; `get`
stands for the exercise. -/
def system : System BlockCacheManager Request.Served where
  init s := s.queue = [] ∧ s.arcs = []
  step := Step a get

/-! ## The invariant -/

variable {a} {get} {s s' : BlockCacheManager} {r : Request.Served} {b o : Nat} {d : CachedDevice}

/-- The queue holds every block and every object once, each under its own block number, and no
more of them than fit. -/
structure Inv (s : BlockCacheManager) : Prop where
  keys : (s.queue.map Prod.fst).Nodup
  objects : (s.queue.map Prod.snd).Nodup
  length_le : s.queue.length ≤ blockCacheSize
  blockId : ∀ e ∈ s.queue, (s.heap e.2).blockId = e.1
  fresh : ∀ e ∈ s.queue, e.2 < s.next
  /-- What a client holds is in the queue, under the number it was asked for. -/
  arcs : ∀ e ∈ s.arcs, e ∈ s.queue

/-- The manager as a cached device: the same device, and the cached blocks of the queue in the
queue's order. -/
structure Represents (s : BlockCacheManager) (d : CachedDevice) : Prop where
  dev : d.dev = s.dev
  queue : d.queue = s.queue.map fun e => s.heap e.2

/-- The invariant holds of `BlockCacheManager::new()`, whose queue is empty and which no client
has an `Arc` of. -/
theorem inv_init (h : (system a get).init s) : Inv s := by
  obtain ⟨hqueue, harcs⟩ := h
  constructor
  all_goals simp [hqueue, harcs]

/-- A device of which nothing is cached yet, the abstract side of a new manager. -/
def uncached (dev : Store) : CachedDevice := ⟨dev, [], List.nodup_nil⟩

/-- A device nothing is cached of is an initial state of the cached device. -/
theorem uncached_init (dev : Store) : (CachedDevice.system a).init (uncached dev) := by
  intro c hc
  cases hc

/-- A new manager represents the device it starts with, with nothing cached. -/
theorem represents_init (h : (system a get).init s) : Represents s (uncached s.dev) := by
  refine ⟨rfl, ?_⟩
  rw [h.1]
  rfl

/-- An entry of the queue is given by its block: no block is cached twice. -/
theorem Inv.eq_of_fst (h : Inv s) {e e' : Nat × Nat} (he : e ∈ s.queue) (he' : e' ∈ s.queue)
    (heq : e.1 = e'.1) : e = e' :=
  List.inj_on_of_nodup_map h.keys he he' heq

/-- An entry of the queue is given by its object: no cached block is queued twice. -/
theorem Inv.eq_of_snd (h : Inv s) {e e' : Nat × Nat} (he : e ∈ s.queue) (he' : e' ∈ s.queue)
    (heq : e.2 = e'.2) : e = e' :=
  List.inj_on_of_nodup_map h.objects he he' heq

/-- The `Arc`s of an entry: one in the queue and those of the clients. -/
theorem Inv.strong_eq (h : Inv s) {e : Nat × Nat} (he : e ∈ s.queue) :
    s.strong e.2 = 1 + s.arcs.count e := by
  have hqueue : (s.queue.map Prod.snd).count e.2 = 1 :=
    List.count_eq_one_of_mem h.objects (List.mem_map_of_mem he)
  have harcs : (s.arcs.map Prod.snd).count e.2 = s.arcs.count e := by
    rw [List.count, List.countP_map, List.count]
    refine List.countP_congr fun e' he' => ?_
    rw [Function.comp_apply, beq_iff_eq, beq_iff_eq]
    exact ⟨fun heq => h.eq_of_snd (h.arcs e' he') he heq, fun heq => heq ▸ rfl⟩
  rw [strong, hqueue, harcs]

/-- An entry can be evicted if no client holds it. -/
theorem Inv.strong_eq_one_iff (h : Inv s) {e : Nat × Nat} (he : e ∈ s.queue) :
    s.strong e.2 = 1 ↔ e ∉ s.arcs := by
  rw [h.strong_eq he, ← List.count_eq_zero]
  omega

/-- Who accesses a block accesses the cached one: an `Arc` that was returned for a block leads
to its only copy. -/
theorem Inv.blockId_of_arc (h : Inv s) (harc : (b, o) ∈ s.arcs) : (s.heap o).blockId = b :=
  h.blockId (b, o) (h.arcs _ harc)

/-- The cached block of an entry of the queue is one of the cached device. -/
theorem Represents.mem (hd : Represents s d) {e : Nat × Nat} (he : e ∈ s.queue) :
    s.heap e.2 ∈ d.queue := by
  rw [hd.queue]
  exact List.mem_map_of_mem he

/-- The block numbers of the cached device are those of the queue, in its order. -/
theorem Represents.blockIds (hd : Represents s d) (h : Inv s) :
    d.queue.map BlockCache.blockId = s.queue.map Prod.fst := by
  rw [hd.queue, List.map_map]
  exact List.map_congr_left fun e he => h.blockId e he

/-! ## The operations -/

/-- Handing an `Arc` of a cached block to one more client keeps the invariant. -/
theorem Inv.clone (h : Inv s) (he : (b, o) ∈ s.queue) : Inv (s.clone b o) where
  keys := h.keys
  objects := h.objects
  length_le := h.length_le
  blockId := h.blockId
  fresh := h.fresh
  arcs := by
    intro e harc
    rcases List.mem_cons.mp harc with rfl | harc
    · exact he
    · exact h.arcs e harc

/-- The entries of a queue are not touched by a new object. -/
theorem Inv.heap_load (h : Inv s) {e : Nat × Nat} (he : e ∈ s.queue) (c : BlockCache) :
    Function.update s.heap s.next c e.2 = s.heap e.2 :=
  Function.update_of_ne (h.fresh e he).ne _ _

/-- Caching a block that was not cached, while the queue is not full, keeps the invariant. -/
theorem Inv.load (h : Inv s) (hb : b ∉ s.queue.map Prod.fst)
    (hlen : s.queue.length < blockCacheSize) : Inv (s.load b) where
  keys := by
    rw [BlockCacheManager.load, List.map_append, List.map_singleton, ← List.concat_eq_append]
    exact h.keys.concat hb
  objects := by
    rw [BlockCacheManager.load, List.map_append, List.map_singleton, ← List.concat_eq_append]
    refine h.objects.concat fun hnext => ?_
    obtain ⟨e, he, heq⟩ := List.mem_map.mp hnext
    exact (h.fresh e he).ne heq
  length_le := by
    rw [BlockCacheManager.load, List.length_append, List.length_singleton]
    exact hlen
  blockId := by
    intro e he
    rcases List.mem_append.mp he with he | he
    · exact (congrArg BlockCache.blockId (h.heap_load he _)).trans (h.blockId e he)
    · rw [List.mem_singleton.mp he]
      exact congrArg BlockCache.blockId (Function.update_self s.next _ s.heap)
  fresh := by
    intro e he
    rcases List.mem_append.mp he with he | he
    · exact (h.fresh e he).trans (Nat.lt_succ_self _)
    · rw [List.mem_singleton.mp he]
      exact Nat.lt_succ_self _
  arcs := fun e harc => List.mem_append_left _ (h.arcs e harc)

/-- Loading a new `BlockCache` is a `new` of the cached device, with nothing written. -/
theorem Represents.load (hd : Represents s d) (h : Inv s) (hb : b ∉ s.queue.map Prod.fst) :
    ∃ d', (CachedDevice.system a).step d ⟨.new b, []⟩ d' ∧ Represents (s.load b) d' := by
  have hb' : b ∉ d.queue.map BlockCache.blockId := by rwa [hd.blockIds h]
  refine ⟨d.load b hb', .new hb', hd.dev, ?_⟩
  show d.queue ++ [.new b d.dev] = _
  rw [hd.queue, hd.dev, BlockCacheManager.load, List.map_append, List.map_singleton]
  refine congrArg₂ _ (List.map_congr_left fun e he => ?_) (congrArg (fun c => [c]) ?_)
  · exact (h.heap_load he _).symm
  · exact (Function.update_self s.next (BlockCache.new b s.dev) s.heap).symm

section evict

variable {l tail : List (Nat × Nat)} {x : Nat}

/-- Evicting an entry no client holds an `Arc` of keeps the invariant. -/
theorem Inv.evict (h : Inv s) (hqueue : s.queue = l ++ (x, o) :: tail) (harc : (x, o) ∉ s.arcs) :
    Inv (s.evict (l ++ tail) o).1 := by
  have hsub : (l ++ tail).Sublist s.queue := by
    rw [hqueue]
    exact List.Sublist.append_left (List.sublist_cons_self _ _) l
  refine ⟨h.keys.sublist (hsub.map _), h.objects.sublist (hsub.map _),
    hsub.length_le.trans h.length_le, fun e he => h.blockId e (hsub.subset he),
    fun e he => h.fresh e (hsub.subset he), fun e he => ?_⟩
  have hmem := h.arcs e he
  rw [hqueue, List.mem_append, List.mem_cons] at hmem
  rcases hmem with hmem | rfl | hmem
  · exact List.mem_append_left _ hmem
  · exact absurd he harc
  · exact List.mem_append_right _ hmem

/-- The last `Arc` of an entry is dropped, and for the cached device that is a `drop` of its
block with what it writes. -/
theorem Represents.evict (hd : Represents s d) (h : Inv s)
    (hqueue : s.queue = l ++ (x, o) :: tail) :
    ∃ d', (CachedDevice.system a).Run d (s.evict (l ++ tail) o).2 d' ∧
      Represents (s.evict (l ++ tail) o).1 d' := by
  have hmem : (x, o) ∈ s.queue := by simp [hqueue]
  refine ⟨_, .snoc (.nil d) (.drop (hd.mem hmem)), ?_, ?_⟩
  · show writeBlocks d.dev _ = writeBlocks s.dev _
    rw [hd.dev]
  · have hkeys := h.keys
    show d.queue.filter _ = (l ++ tail).map fun e => s.heap e.2
    rw [hqueue, List.map_append, List.map_cons, List.nodup_append, List.nodup_cons] at hkeys
    obtain ⟨-, ⟨htail, -⟩, hl⟩ := hkeys
    have hkeep : ∀ e ∈ l ++ tail, (s.heap e.2).blockId ≠ (s.heap o).blockId := by
      intro e he
      have hmem' : e ∈ s.queue := by
        rw [hqueue]
        exact List.mem_append.mpr ((List.mem_append.mp he).imp_right (List.mem_cons_of_mem _))
      rw [h.blockId (x, o) hmem, h.blockId e hmem']
      rcases List.mem_append.mp he with he | he
      · exact hl _ (List.mem_map_of_mem he) _ List.mem_cons_self
      · intro heq
        exact htail (heq ▸ List.mem_map_of_mem he)
    have hrest : ((l ++ tail).map fun e => s.heap e.2).filter
        (·.blockId ≠ (s.heap o).blockId) = (l ++ tail).map fun e => s.heap e.2 := by
      refine List.filter_eq_self.mpr fun c hc => ?_
      obtain ⟨e, he, rfl⟩ := List.mem_map.mp hc
      exact decide_eq_true (hkeep e he)
    rw [← hrest, hd.queue, hqueue]
    simp

end evict

/-- A cached block is replaced by one of the same number. -/
theorem Inv.update (h : Inv s) {c : BlockCache} (hc : c.blockId = (s.heap o).blockId) :
    Inv { s with heap := Function.update s.heap o c } := by
  refine ⟨h.keys, h.objects, h.length_le, fun e he => ?_, h.fresh, h.arcs⟩
  show (Function.update s.heap o c e.2).blockId = e.1
  rw [← h.blockId e he, Function.update_apply]
  split
  · rename_i heq
    rw [hc, heq]
  · rfl

/-- Replacing a cached block among those of the queue is an update of the heap at its object. -/
theorem Inv.map_replace (h : Inv s) {c : BlockCache} (he : (b, o) ∈ s.queue)
    (hc : c.blockId = b) :
    (s.queue.map fun e => s.heap e.2).map (CachedDevice.replace c) =
      s.queue.map fun e => Function.update s.heap o c e.2 := by
  rw [List.map_map]
  refine List.map_congr_left fun e he' => ?_
  rw [Function.comp_apply, CachedDevice.replace, Function.update_apply, h.blockId e he', hc]
  refine if_congr ⟨fun heq => ?_, fun heq => ?_⟩ rfl rfl
  · rw [h.eq_of_fst he' he heq]
  · rw [h.eq_of_snd he' he heq]

/-- A client's `modify` of a cached block is a `modify` of the cached device, with nothing
written. -/
theorem Represents.modify (hd : Represents s d) (h : Inv s) {offset size : Nat}
    {f : (Fin size → UInt8) → Fin size → UInt8} {c : BlockCache} (he : (b, o) ∈ s.queue)
    (hc : (s.heap o).modify a offset size f = .ok c) :
    ∃ d', (CachedDevice.system a).step d ⟨.modify (s.heap o).blockId offset size f, []⟩ d' ∧
      Represents { s with heap := Function.update s.heap o c } d' := by
  refine ⟨_, .modify (hd.mem he) hc, hd.dev, ?_⟩
  show d.queue.map (CachedDevice.replace c) = _
  have hid : c.blockId = b := by
    rw [CachedDevice.modify_eq_ok hc]
    exact h.blockId (b, o) he
  rw [hd.queue, h.map_replace he hid]

/-! ## The loop of `block_cache_sync_all` -/

/-- What some iterations of the loop leave: their blocks written and no longer modified, all
else as it was. -/
theorem foldl_syncEntry {entries : List (Nat × Nat)} (s : BlockCacheManager)
    (hnodup : (entries.map Prod.snd).Nodup) :
    entries.foldl syncEntry s =
      { s with
        dev := writeBlocks s.dev (entries.flatMap fun e => (s.heap e.2).sync.2)
        heap := fun o => if o ∈ entries.map Prod.snd then (s.heap o).sync.1 else s.heap o } := by
  induction entries generalizing s with
  | nil => simp [writeBlocks]
  | cons e entries ih =>
    rw [List.map_cons, List.nodup_cons] at hnodup
    have hrest : ∀ e' ∈ entries, (s.syncEntry e).heap e'.2 = s.heap e'.2 := by
      intro e' he'
      refine Function.update_of_ne (fun heq => hnodup.1 ?_) _ _
      rw [← heq]
      exact List.mem_map_of_mem he'
    rw [List.foldl_cons, ih (s.syncEntry e) hnodup.2]
    have hdev : (s.syncEntry e).dev = writeBlocks s.dev (s.heap e.2).sync.2 := rfl
    have hwrites : (entries.flatMap fun e' => ((s.syncEntry e).heap e'.2).sync.2) =
        entries.flatMap fun e' => (s.heap e'.2).sync.2 := by
      refine List.flatMap_congr fun e' he' => ?_
      rw [hrest e' he']
    have hheap : (fun o => if o ∈ entries.map Prod.snd then ((s.syncEntry e).heap o).sync.1
        else (s.syncEntry e).heap o) =
        fun o => if o ∈ (e :: entries).map Prod.snd then (s.heap o).sync.1 else s.heap o := by
      funext o
      simp only [List.map_cons, List.mem_cons, syncEntry]
      by_cases ho : o = e.2
      · subst ho
        simp [hnodup.1]
      · rw [Function.update_of_ne ho]
        simp only [ho, false_or]
    rw [hwrites, hdev, hheap, List.flatMap_cons, writeBlocks, writeBlocks, writeBlocks,
      List.foldl_append]
    rfl

/-- What `block_cache_sync_all` leaves: every cached block written and no longer modified. -/
theorem Inv.syncAll_eq (h : Inv s) : s.blockCacheSyncAll =
    { s with
      dev := writeBlocks s.dev (s.queue.flatMap fun e => (s.heap e.2).sync.2)
      heap := fun o => if o ∈ s.queue.map Prod.snd then (s.heap o).sync.1 else s.heap o } :=
  foldl_syncEntry s h.objects

/-- `block_cache_sync_all` keeps the invariant: the queue itself does not change. -/
theorem Inv.syncAll (h : Inv s) : Inv s.blockCacheSyncAll := by
  rw [h.syncAll_eq]
  refine ⟨h.keys, h.objects, h.length_le, fun e he => ?_, h.fresh, h.arcs⟩
  dsimp only
  rw [if_pos (List.mem_map_of_mem he), CachedDevice.sync_blockId]
  exact h.blockId e he

/-- `block_cache_sync_all` is a `syncAll` of the cached device, with the writes of all its
blocks. -/
theorem Represents.syncAll (hd : Represents s d) (h : Inv s) :
    ∃ d', (CachedDevice.system a).step d
        ⟨.syncAll, s.queue.flatMap fun e => (s.heap e.2).sync.2⟩ d' ∧
      Represents s.blockCacheSyncAll d' := by
  have hwrites : (d.queue.flatMap fun c => c.sync.2) =
      s.queue.flatMap fun e => (s.heap e.2).sync.2 := by
    rw [hd.queue, List.flatMap_map]
  have hstep := CachedDevice.Step.syncAll (a := a) (s := d)
  rw [hwrites] at hstep
  refine ⟨_, hstep, ?_, ?_⟩
  · rw [h.syncAll_eq]
    exact congrArg (writeBlocks · _) hd.dev
  · rw [h.syncAll_eq]
    show d.queue.map (fun c => c.sync.1) = _
    rw [hd.queue, List.map_map]
    refine List.map_congr_left fun e he => ?_
    dsimp only
    rw [if_pos (List.mem_map_of_mem he), Function.comp_apply]

/-! ## Steps -/

/-- What a call of `get_block_cache` that returns does: the block was cached, or is loaded, or
is loaded after another was evicted. -/
theorem get_cases (hget : Meets get) (h : Inv s) {calls : List Event}
    (hs : get s b = some (o, s', calls)) :
    ((b, o) ∈ s.queue ∧ s' = s.clone b o ∧ calls = []) ∨
    b ∉ s.queue.map Prod.fst ∧ o = s.next ∧
      (s.queue.length < blockCacheSize ∧ s' = (s.load b).clone b s.next ∧ calls = [⟨.new b, []⟩] ∨
        ∃ l x o' tail, s.queue = l ++ (x, o') :: tail ∧ (x, o') ∉ s.arcs ∧
          s' = ((s.evict (l ++ tail) o').1.load b).clone b s.next ∧
          calls = (s.evict (l ++ tail) o').2 ++ [⟨.new b, []⟩]) := by
  cases hfind : s.queue.find? fun e => e.1 = b with
  | some e =>
    obtain ⟨b', o'⟩ := e
    have hmem := List.mem_of_find?_eq_some hfind
    have hb : b' = b := by simpa using List.find?_some hfind
    subst hb
    rw [hget.hit s b' o' hfind] at hs
    cases hs
    exact .inl ⟨hmem, rfl, rfl⟩
  | none =>
    have hb : b ∉ s.queue.map Prod.fst := by
      intro hmem
      obtain ⟨e, he, heq⟩ := List.mem_map.mp hmem
      simpa [heq] using List.find?_eq_none.mp hfind e he
    right
    rcases h.length_le.lt_or_eq with hlen | hlen
    · rw [hget.room s b hb hlen] at hs
      cases hs
      exact ⟨hb, rfl, .inl ⟨hlen, rfl, rfl⟩⟩
    · cases hfree : s.queue.find? fun e => s.strong e.2 = 1 with
      | none =>
        rw [hget.full s b hb hlen fun e he => by simpa using List.find?_eq_none.mp hfree e he] at hs
        cases hs
      | some e =>
        obtain ⟨hone, l, tail, hqueue, hl⟩ := List.find?_eq_some_iff_append.mp hfree
        obtain ⟨x, o'⟩ := e
        have hmem := List.mem_of_find?_eq_some hfree
        rw [hget.evict s b l x o' tail hb hlen hqueue (fun e he => by simpa using hl e he)
          (of_decide_eq_true hone)] at hs
        cases hs
        refine ⟨hb, rfl, .inr ⟨l, x, o', tail, hqueue, ?_, rfl, rfl⟩⟩
        exact (h.strong_eq_one_iff hmem).mp (of_decide_eq_true hone)

/-- What a request that is served comes to: calls on a cached device that do what the request
does. -/
structure Refines (a : Arith) (s : BlockCacheManager) (r : Request.Served)
    (s' : BlockCacheManager) : Prop where
  inv : Inv s'
  run : ∀ d, Represents s d → ∃ d', (CachedDevice.system a).Run d r.calls d' ∧ Represents s' d'
  replay : ∀ dev, CachedDevice.replay dev r.calls = r.request.apply dev

/-- A `get_block_cache` that meets the comment of the exercise refines the calls it makes on the
cached device. -/
theorem refines_get (hget : Meets get) (h : Inv s) {calls : List Event}
    (hs : get s b = some (o, s', calls)) : Refines a s ⟨.get b o, calls⟩ s' := by
  rcases get_cases hget h hs with
    ⟨hmem, rfl, rfl⟩ | ⟨hb, rfl, ⟨hlen, rfl, rfl⟩ | ⟨l, x, o', tail, hqueue, harc, rfl, rfl⟩⟩
  · exact ⟨h.clone hmem, fun d hd => ⟨d, .nil d, hd.dev, hd.queue⟩, fun dev => rfl⟩
  · refine ⟨(h.load hb hlen).clone (List.mem_append_right _ (List.mem_singleton_self _)),
      fun d hd => ?_, fun dev => rfl⟩
    obtain ⟨d', hstep, hd'⟩ := hd.load h hb
    exact ⟨d', .snoc (.nil d) hstep, hd'.dev, hd'.queue⟩
  · have hevict := h.evict hqueue harc
    have hsub : ∀ e ∈ l ++ tail, e ∈ s.queue := by
      intro e he
      rw [hqueue]
      exact List.mem_append.mpr ((List.mem_append.mp he).imp_right (List.mem_cons_of_mem _))
    have hb' : b ∉ (s.evict (l ++ tail) o').1.queue.map Prod.fst := by
      intro hmem
      obtain ⟨e, he, heq⟩ := List.mem_map.mp hmem
      exact hb (List.mem_map.mpr ⟨e, hsub e he, heq⟩)
    have hlen : (s.evict (l ++ tail) o').1.queue.length < blockCacheSize := by
      have hle := h.length_le
      rw [hqueue] at hle
      show (l ++ tail).length < _
      simp only [List.length_append, List.length_cons] at hle ⊢
      omega
    refine ⟨(hevict.load hb' hlen).clone (List.mem_append_right _ (List.mem_singleton_self _)),
      fun d hd => ?_, fun dev => rfl⟩
    obtain ⟨d₁, hrun, hd₁⟩ := hd.evict h hqueue
    obtain ⟨d₂, hstep, hd₂⟩ := hd₁.load hevict hb'
    exact ⟨d₂, hrun.snoc hstep, hd₂.dev, hd₂.queue⟩

/-- **A served request is a run of the cached device.** -/
theorem Step.refines (hget : Meets get) (h : Inv s) (hs : Step a get s r s') :
    Refines a s r s' := by
  cases hs with
  | get hs => exact refines_get hget h hs
  | read harc hread =>
    refine ⟨h, fun d hd => ⟨d, .snoc (.nil d) (.read (hd.mem (h.arcs _ harc)) hread), hd⟩, ?_⟩
    exact fun dev => rfl
  | @modify b o offset size f c harc hmod =>
    refine ⟨h.update ?_, fun d hd => ?_, fun dev => ?_⟩
    · rw [CachedDevice.modify_eq_ok hmod]
    · obtain ⟨d', hstep, hd'⟩ := hd.modify h (h.arcs _ harc) hmod
      exact ⟨d', .snoc (.nil d) hstep, hd'⟩
    · rw [h.blockId_of_arc harc]
      rfl
  | @release b o harc =>
    have hqueue := h.arcs _ harc
    have hinv : Inv { s with arcs := s.arcs.erase (b, o) } :=
      ⟨h.keys, h.objects, h.length_le, h.blockId, h.fresh,
        fun e he => h.arcs e (List.mem_of_mem_erase he)⟩
    have hrelease : s.release b o = ({ s with arcs := s.arcs.erase (b, o) }, []) := by
      rw [BlockCacheManager.release, if_neg]
      rw [hinv.strong_eq hqueue]
      omega
    rw [hrelease]
    exact ⟨hinv, fun d hd => ⟨d, .nil d, hd.dev, hd.queue⟩, fun dev => rfl⟩
  | syncAll =>
    refine ⟨h.syncAll, fun d hd => ?_, fun dev => rfl⟩
    obtain ⟨d', hstep, hd'⟩ := hd.syncAll h
    exact ⟨d', .snoc (.nil d) hstep, hd'⟩

/-! ## Runs -/

section

variable {s₀ : BlockCacheManager} {tr : List Request.Served}

/-- Every run of the manager is a run of the cached device, so that reads see the direct device;
the simulation over all requests. -/
theorem run_refines (hget : Meets get) (h₀ : (system a get).init s₀)
    (hrun : (system a get).Run s₀ tr s) :
    Inv s ∧ (∃ d, (CachedDevice.system a).Run (uncached s₀.dev) (tr.flatMap (·.calls)) d ∧
      Represents s d) ∧
    ∀ dev, CachedDevice.replay dev (tr.flatMap (·.calls)) = direct dev tr := by
  refine hrun.history (I := fun tr s => Inv s ∧ (∃ d, (CachedDevice.system a).Run
    (uncached s₀.dev) (tr.flatMap (·.calls)) d ∧ Represents s d) ∧
    ∀ dev, CachedDevice.replay dev (tr.flatMap (·.calls)) = direct dev tr)
    ⟨inv_init h₀, ⟨_, .nil _, represents_init h₀⟩, fun dev => rfl⟩ ?_
  rintro tr s r s' ⟨hinv, ⟨d, hrun, hd⟩, hreplay⟩ hs
  have hrefines := hs.refines hget hinv
  obtain ⟨d', hrun', hd'⟩ := hrefines.run d hd
  have hcalls : (tr ++ [r]).flatMap (·.calls) = tr.flatMap (·.calls) ++ r.calls := by simp
  refine ⟨hrefines.inv, ⟨d', hcalls ▸ hrun.append hrun', hd'⟩, fun dev => ?_⟩
  rw [hcalls, CachedDevice.replay, List.foldl_append, direct, List.foldl_append]
  exact (congrArg (fun dev => r.calls.foldl _ dev) (hreplay dev)).trans (hrefines.replay _)

/-- What the cached block of a client is: the block of the direct device after all modifications
so far. -/
theorem cache_eq_direct (hget : Meets get) (h₀ : (system a get).init s₀)
    (hrun : (system a get).Run s₀ tr s) (harc : (b, o) ∈ s.arcs) :
    (s.heap o).cache = direct s₀.dev tr b := by
  obtain ⟨hinv, ⟨d, hdrun, hd⟩, hreplay⟩ := run_refines hget h₀ hrun
  have hline := CachedDevice.inv_of_run (uncached_init s₀.dev) hdrun (s.heap o).blockId
  rw [hline.value_of_mem (hd.mem (hinv.arcs _ harc)), hinv.blockId_of_arc harc, hreplay]
  rfl

/-- What is on the device after a `block_cache_sync_all`: for every block what the direct device
has. -/
theorem syncAll_dev (hget : Meets get) (h₀ : (system a get).init s₀)
    (hrun : (system a get).Run s₀ tr s) : s.blockCacheSyncAll.dev = direct s₀.dev tr := by
  obtain ⟨hinv, ⟨d, hdrun, hd⟩, hreplay⟩ := run_refines hget h₀ hrun
  obtain ⟨d', hstep, hd'⟩ := hd.syncAll (a := a) hinv
  rw [← hd'.dev]
  funext b
  rw [(CachedDevice.inv_of_run (uncached_init s₀.dev) hdrun b).dev_eq hstep (.inl rfl), hreplay]
  rfl

/-- When `get_block_cache` panics: the block is not cached, the cache is full, and a client
holds an `Arc` of every entry. -/
theorem Inv.get_eq_none_iff (hget : Meets get) (h : Inv s) (b : Nat) : get s b = none ↔
    b ∉ s.queue.map Prod.fst ∧ s.queue.length = blockCacheSize ∧ ∀ e ∈ s.queue, e ∈ s.arcs := by
  constructor
  · intro hnone
    have hb : b ∉ s.queue.map Prod.fst := by
      intro hmem
      obtain ⟨⟨b', o⟩, he, rfl⟩ := List.mem_map.mp hmem
      have hfind : s.queue.find? (fun e => e.1 = b') = some (b', o) := by
        cases hfind : s.queue.find? fun e => e.1 = b' with
        | none => simpa using List.find?_eq_none.mp hfind _ he
        | some e =>
          have heq : e.1 = b' := by simpa using List.find?_some hfind
          rw [h.eq_of_fst (List.mem_of_find?_eq_some hfind) he heq]
      rw [hget.hit s b' o hfind] at hnone
      cases hnone
    rcases h.length_le.lt_or_eq with hlen | hlen
    · rw [hget.room s b hb hlen] at hnone
      cases hnone
    refine ⟨hb, hlen, fun e he => ?_⟩
    by_contra harc
    cases hfree : s.queue.find? fun e => s.strong e.2 = 1 with
    | none =>
      have hne := List.find?_eq_none.mp hfree e he
      rw [decide_eq_true_eq, h.strong_eq_one_iff he] at hne
      exact hne harc
    | some e =>
      obtain ⟨hone, l, tail, hqueue, hl⟩ := List.find?_eq_some_iff_append.mp hfree
      rw [hget.evict s b l e.1 e.2 tail hb hlen hqueue (fun e he => by simpa using hl e he)
        (of_decide_eq_true hone)] at hnone
      cases hnone
  · rintro ⟨hb, hlen, hall⟩
    refine hget.full s b hb hlen fun e he hone => ?_
    exact (h.strong_eq_one_iff he).mp hone (hall e he)

/-- A client can modify what lies inside its block: such a request is served, whatever the
closure makes of the bytes. -/
theorem modify_of_arc (harc : (b, o) ∈ s.arcs) {offset size : Nat} (hoffset : offset < blockSz)
    (hsize : offset + size ≤ blockSz) (f : (Fin size → UInt8) → Fin size → UInt8) :
    ∃ calls s', (system a get).step s ⟨.modify b o offset size f, calls⟩ s' :=
  ⟨_, _, .modify harc (CachedDevice.modify_of_inside hoffset hsize)⟩

/-- **No modification is lost to an eviction.** After any requests of any clients for blocks of one
device, in any build and with any `get_block_cache` that meets its requirements:
* there are at most `BLOCK_CACHE_SIZE` cached blocks, no block twice, and what a client holds is
  one of them;
* so a client can read in its block what all clients made of it, in the order in which they did,
  and modify it there and nowhere else;
* what `modifyBlock` does to the device without a cache, a client of the block can do;
* `block_cache_sync_all` leaves on the device what all of them made of all blocks, those that have
  been evicted since included;
* `get_block_cache` panics exactly if it would have to evict a block and all of them are held. -/
theorem run_nothing_lost (hget : Meets get) (h₀ : (system a get).init s₀)
    (hrun : (system a get).Run s₀ tr s) :
    (s.queue.length ≤ blockCacheSize ∧ (s.queue.map Prod.fst).Nodup ∧
      ∀ e ∈ s.arcs, e ∈ s.queue) ∧
    ((∀ b o, (b, o) ∈ s.arcs → ∀ offset size, offset < blockSz → offset + size ≤ blockSz →
        ∃ bytes : Fin size → UInt8,
          (system a get).step s
            ⟨.read b o offset size bytes, [⟨.read b offset size bytes, []⟩]⟩ s ∧
          (∀ (k : Fin size) (i : Fin blockSz), i.val = offset + k.val →
            bytes k = direct s₀.dev tr b i) ∧
          ∀ f, ∃ calls s', (system a get).step s ⟨.modify b o offset size f, calls⟩ s' ∧
            (∀ (k : Fin size) (i : Fin blockSz), i.val = offset + k.val →
              (s'.heap o).cache i = f bytes k) ∧
            ∀ i : Fin blockSz, i.val < offset ∨ offset + size ≤ i.val →
              (s'.heap o).cache i = direct s₀.dev tr b i) ∧
      ∀ b o offset size bytes calls s',
        (system a get).step s ⟨.read b o offset size bytes, calls⟩ s' →
          ∀ (k : Fin size) (i : Fin blockSz), i.val = offset + k.val →
            bytes k = direct s₀.dev tr b i) ∧
    (∀ (T : Type) (codec : Bytes.Codec T) b o offset g dev', (b, o) ∈ s.arcs → offset < blockSz →
      modifyBlock codec (direct s₀.dev tr) b offset g = .ok dev' →
        ∃ r s', (system a get).step s r s' ∧ direct s₀.dev (tr ++ [r]) = dev') ∧
    (∀ calls s', (system a get).step s ⟨.syncAll, calls⟩ s' → s'.dev = direct s₀.dev tr) ∧
    ∀ b, get s b = none ↔
      b ∉ s.queue.map Prod.fst ∧ s.queue.length = blockCacheSize ∧ ∀ e ∈ s.queue, e ∈ s.arcs := by
  have hinv := (run_refines hget h₀ hrun).1
  have hcache := fun b o harc => cache_eq_direct (b := b) (o := o) hget h₀ hrun harc
  refine ⟨⟨hinv.length_le, hinv.keys, hinv.arcs⟩, ⟨?_, ?_⟩, ?_, ?_, hinv.get_eq_none_iff hget⟩
  · intro b o harc offset size hoffset hsize
    have hread : Step a get s _ s :=
      .read harc (CachedDevice.read_of_inside hoffset hsize)
    rw [hinv.blockId_of_arc harc] at hread
    refine ⟨_, hread, fun k i hi => ?_, fun f =>
      ⟨_, _, .modify harc (CachedDevice.modify_of_inside hoffset hsize), fun k i hi => ?_,
        fun i hi => ?_⟩⟩
    · rw [Block.view_apply hi, hcache b o harc]
    · dsimp only
      rw [Function.update_self]
      exact Block.patch_inside hi
    · dsimp only
      rw [Function.update_self, ← hcache b o harc]
      exact Block.patch_outside hi
  · intro b o offset size bytes calls s' hs k i hi
    cases hs with
    | read harc hread =>
      rw [CachedDevice.read_eq_ok hread, Block.view_apply hi, hcache b o harc]
  · intro T codec b o offset g dev' harc hoffset hmod
    obtain ⟨hsize, f, hdev'⟩ := CachedDevice.apply_of_modifyBlock hmod
    obtain ⟨calls, s', hs⟩ : ∃ calls s',
        (system a get).step s ⟨.modify b o offset codec.size f, calls⟩ s' :=
      modify_of_arc harc hoffset hsize f
    refine ⟨_, s', hs, ?_⟩
    rw [direct, List.foldl_append, hdev']
    rfl
  · intro calls s' hs
    cases hs with
    | syncAll => exact syncAll_dev hget h₀ hrun

end

/-- A `get_block_cache` by its requirements: the first entry of the queue that no client holds
makes room. -/
def firstFree (s : BlockCacheManager) (b : Nat) :
    Option (Nat × BlockCacheManager × List Event) :=
  match s.queue.find? fun e => e.1 = b with
  | some e => some (e.2, s.clone b e.2, [])
  | none =>
    if s.queue.length < blockCacheSize then
      some (s.next, (s.load b).clone b s.next, [⟨.new b, []⟩])
    else
      match s.queue.dropWhile fun e => s.strong e.2 ≠ 1 with
      | [] => none
      | e :: tail =>
        let (s, calls) := s.evict ((s.queue.takeWhile fun e => s.strong e.2 ≠ 1) ++ tail) e.2
        some (s.next, (s.load b).clone b s.next, calls ++ [⟨.new b, []⟩])

/-- Looking for a block that is not cached finds no entry of the queue. -/
theorem find?_of_not_mem (hb : b ∉ s.queue.map Prod.fst) :
    s.queue.find? (fun e => e.1 = b) = none := by
  refine List.find?_eq_none.mpr fun e he heq => hb ?_
  exact List.mem_map.mpr ⟨e, he, of_decide_eq_true heq⟩

/-- The requirements on `get_block_cache` can be met: evicting the first entry nobody holds does. -/
theorem meets_firstFree : Meets firstFree where
  hit := by
    intro s b o hfind
    rw [firstFree, hfind]
  room := by
    intro s b hb hlen
    rw [firstFree, find?_of_not_mem hb]
    exact if_pos hlen
  evict := by
    intro s b l x o tail hb hlen hqueue hl hone
    have hl' : ∀ e ∈ l, decide (s.strong e.2 ≠ 1) = true := fun e he => decide_eq_true (hl e he)
    have htake : (s.queue.takeWhile fun e => s.strong e.2 ≠ 1) = l := by
      rw [hqueue, List.takeWhile_append_of_pos hl', List.takeWhile_cons_of_neg (by simp [hone]),
        List.append_nil]
    have hdrop : (s.queue.dropWhile fun e => s.strong e.2 ≠ 1) = (x, o) :: tail := by
      rw [hqueue, List.dropWhile_append_of_pos hl', List.dropWhile_cons_of_neg (by simp [hone])]
    rw [firstFree, find?_of_not_mem hb]
    dsimp only
    rw [if_neg (by omega), hdrop, htake]
    rfl
  full := by
    intro s b hb hlen hall
    have hdrop : (s.queue.dropWhile fun e => s.strong e.2 ≠ 1) = [] :=
      List.dropWhile_eq_nil_iff.mpr fun e he => decide_eq_true (hall e he)
    rw [firstFree, find?_of_not_mem hb]
    dsimp only
    rw [if_neg (by omega), hdrop]

/-- Two clients hold block 3; one of them modifies a byte and gives the block back. The other one
reads the byte, and `block_cache_sync_all` writes it. -/
theorem run_nothing_lost_one_byte : ∃ (s₀ s s' : BlockCacheManager) (tr : List Request.Served)
    (calls : List Event), (system .debug firstFree).Run s₀ tr s ∧ s.arcs = [(3, 0)] ∧
      (∃ bytes : Fin 1 → UInt8, (system .debug firstFree).step s
        ⟨.read 3 0 5 1 bytes, [⟨.read 3 5 1 bytes, []⟩]⟩ s ∧ bytes 0 = 7) ∧
      (system .debug firstFree).step s ⟨.syncAll, calls⟩ s' ∧ s'.dev 3 ⟨5, by decide⟩ = 7 := by
  let s₀ : BlockCacheManager := ⟨fun _ _ => 0, [], fun _ => .new 0 fun _ _ => 0, 0, []⟩
  have h₀ : (system .debug firstFree).init s₀ := ⟨rfl, rfl⟩
  have hmem : (3, 0) ∈ (((s₀.load 3).clone 3 0).clone 3 0).arcs := List.mem_cons_self
  have hrun : (system .debug firstFree).Run s₀ ([] ++ [⟨.get 3 0, _⟩] ++ [⟨.get 3 0, _⟩] ++
      [⟨.modify 3 0 5 1 fun _ _ => 7, _⟩] ++ [⟨.release 3 0, _⟩]) _ :=
    .snoc (.snoc (.snoc (.snoc (.nil s₀) (.get rfl)) (.get rfl)) (.modify hmem rfl))
      (.release hmem)
  have hall := run_nothing_lost meets_firstFree h₀ hrun
  obtain ⟨bytes, hread, hbytes, -⟩ := hall.2.1.1 3 0 List.mem_cons_self 5 1 (by decide) (by decide)
  refine ⟨s₀, _, _, _, _, hrun, rfl, ⟨bytes, hread, hbytes 0 ⟨5, by decide⟩ rfl⟩, .syncAll, ?_⟩
  rw [hall.2.2.2.1 _ _ .syncAll]
  rfl

end BlockCacheManager

end TinyOS.EasyFs
