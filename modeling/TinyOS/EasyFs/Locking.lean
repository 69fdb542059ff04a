import TinyOS.Lib.Locks
import TinyOS.Lib.Transition

/-!
# The locks of easy-fs

Which locks `Inode::read_at`, `write_at`, `clear`, `size` and `is_dir` take, and in which order
(`easy-fs/src/vfs.rs`, `block_cache.rs`, `efs.rs`). There are three kinds: one lock for every
`EasyFileSystem`, the static `BLOCK_CACHE_MANAGER`, and one for every cached block, which the
manager finds by its number alone. The methods that are exercises are taken as what they are to be:
sequences of `get_block_cache(..).lock()` and releases.

`get_block_cache` gives the manager back before the block is locked. `block_cache_sync_all` keeps it
while it locks the blocks, and a closure of `modify_disk_inode` keeps its block while it calls
`get_block_cache`: two threads on two file systems can wait for each other (`twoFs_cycle`).
`careful_acyclic` says what rules that out; with one file system its lock almost does.
-/

namespace TinyOS.EasyFs.Locking

open Transition

/-! ## Calls -/

/-- A `spin::Mutex` of easy-fs: that of a file system, of the cache manager or of a block; `F`
are the file systems. -/
inductive Lock (F : Type) where
  | fs (k : F)
  | manager
  | block (b : Nat)

/-- What the closure of a call does to blocks: `get_block_cache(b).lock()`, and the release of the
block locked last. -/
inductive Cmd where
  | fetch (b : Nat)
  | release

/-- The operations of `Inode`, the methods that lock a block of the device. -/
inductive Op where
  | readAt
  | writeAt
  | clear
  | size
  | isDir

/-- The operation starts with `self.fs.lock()`; `size` and `is_dir` do without it. -/
def Op.locksFs : Op → Bool
  | .readAt | .writeAt | .clear => true
  | .size | .isDir => false

/-- The operation ends with `block_cache_sync_all()`, with the file system still locked. -/
def Op.syncs : Op → Bool
  | .writeAt | .clear => true
  | .readAt | .size | .isDir => false

/-- A call on an inode in block `block` of the file system `fs`. `body` is what the methods of
`DiskInode` and `Bitmap` do inside the closure of `read_at`, `write_at` or `clear`; the closures of
`size` and `is_dir` only look at the inode. -/
structure Call (F : Type) where
  op : Op
  fs : F
  block : Nat
  body : List Cmd

/-- `read_disk_inode` or `modify_disk_inode`: the inode's block is fetched and locked, and the
closure runs with it. -/
def Call.code {F : Type} (c : Call F) : List Cmd :=
  .fetch c.block :: if c.op.locksFs then c.body else []

/-! ## Threads -/

/-- Where a thread is. `held` are the blocks it has locked, the last one first, and `rest` is what
it has still to do. -/
inductive Phase (F : Type) where
  | idle
  /-- Waits for the file system. -/
  | lockFs (c : Call F)
  /-- Runs the code of `read_disk_inode` or `modify_disk_inode`. -/
  | body (c : Call F) (held : List Nat) (rest : List Cmd)
  /-- In `get_block_cache(b)`, waits for the manager. -/
  | getCache (c : Call F) (held : List Nat) (b : Nat) (rest : List Cmd)
  /-- In `get_block_cache(b)`, with the manager. -/
  | fetching (c : Call F) (held : List Nat) (b : Nat) (rest : List Cmd)
  /-- Waits for the block. -/
  | lockBlock (c : Call F) (held : List Nat) (b : Nat) (rest : List Cmd)
  /-- In `block_cache_sync_all`, waits for the manager. -/
  | lockManager (c : Call F)
  /-- In the loop of `block_cache_sync_all`. -/
  | syncLoop (c : Call F) (todo : List Nat)
  /-- In the loop, waits for a block. -/
  | syncLock (c : Call F) (b : Nat) (todo : List Nat)
  /-- In the loop, with a block. -/
  | syncBlock (c : Call F) (b : Nat) (todo : List Nat)
  /-- At the end of the call, with the file system. -/
  | unlockFs (c : Call F)

namespace Phase

variable {F : Type}

/-- The lock of the call's file system, if the operation has taken it. -/
def HoldsFs (c : Call F) (l : Lock F) : Prop := c.op.locksFs = true ∧ l = .fs c.fs

/-- A lock is that of one of the blocks, the ones a thread has locked. -/
def HoldsBlock (held : List Nat) (l : Lock F) : Prop := ∃ b ∈ held, l = .block b

/-- The locks of a thread in a phase: the file system, the cache manager and some blocks. -/
def Holds : Phase F → Lock F → Prop
  | .idle, _ | .lockFs _, _ => False
  | .body c held _, l | .getCache c held _ _, l | .lockBlock c held _ _, l =>
    HoldsFs c l ∨ HoldsBlock held l
  | .fetching c held _ _, l => HoldsFs c l ∨ HoldsBlock held l ∨ l = .manager
  | .lockManager c, l | .unlockFs c, l => HoldsFs c l
  | .syncLoop c _, l | .syncLock c _ _, l => HoldsFs c l ∨ l = .manager
  | .syncBlock c b _, l => HoldsFs c l ∨ l = .manager ∨ l = .block b

/-- The lock a thread waits for in a phase, if it waits at all. -/
def want : Phase F → Option (Lock F)
  | .lockFs c => some (.fs c.fs)
  | .getCache .. | .lockManager _ => some .manager
  | .lockBlock _ _ b _ | .syncLock _ b _ => some (.block b)
  | .idle | .body .. | .fetching .. | .syncLoop .. | .syncBlock .. | .unlockFs _ => none

/-- The blocks whose cache a thread has an `Arc` of. -/
def arcs : Phase F → List Nat
  | .body _ held _ | .getCache _ held _ _ | .fetching _ held _ _ => held
  | .lockBlock _ held b _ => b :: held
  | .idle | .lockFs _ | .lockManager _ | .syncLoop .. | .syncLock .. | .syncBlock ..
  | .unlockFs _ => []

end Phase

/-- The threads, each with where it is in its call, and the queue of the cache manager, block by
block. -/
structure State (T F : Type) where
  phase : T → Phase F
  queue : List Nat

/-- Nobody holds the lock, so that a thread that waits for it may take it. -/
def State.Free {T F : Type} (s : State T F) (l : Lock F) : Prop := ∀ t, ¬ (s.phase t).Holds l

/-- Some thread has an `Arc` of the block's cache, so that `get_block_cache` does not evict the
block. -/
def State.Pinned {T F : Type} (s : State T F) (b : Nat) : Prop := ∃ t, b ∈ (s.phase t).arcs

section

variable {T F : Type} (fetch : List Nat → (Nat → Prop) → Nat → List Nat → Prop)

/-- The moves of a thread: from one phase to the next, with the queue it leaves. `fetch` is what
`BlockCacheManager::get_block_cache` does to the queue. -/
inductive Move (s : State T F) : Phase F → Phase F → List Nat → Prop where
  | call (c : Call F) :
      Move s .idle (if c.op.locksFs then .lockFs c else .body c [] c.code) s.queue
  | lockFs {c : Call F} (h : s.Free (.fs c.fs)) : Move s (.lockFs c) (.body c [] c.code) s.queue
  | fetch {c : Call F} {held : List Nat} {b : Nat} {rest : List Cmd} :
      Move s (.body c held (.fetch b :: rest)) (.getCache c held b rest) s.queue
  | release {c : Call F} {held : List Nat} {rest : List Cmd} :
      Move s (.body c held (.release :: rest)) (.body c held.tail rest) s.queue
  | getCache {c : Call F} {held : List Nat} {b : Nat} {rest : List Cmd} (h : s.Free .manager) :
      Move s (.getCache c held b rest) (.fetching c held b rest) s.queue
  | fetching {c : Call F} {held : List Nat} {b : Nat} {rest : List Cmd} {queue : List Nat}
      (h : fetch s.queue s.Pinned b queue) :
      Move s (.fetching c held b rest) (.lockBlock c held b rest) queue
  | lockBlock {c : Call F} {held : List Nat} {b : Nat} {rest : List Cmd}
      (h : s.Free (.block b)) :
      Move s (.lockBlock c held b rest) (.body c (b :: held) rest) s.queue
  /-- The guards that are left at the end of the closure are dropped. -/
  | drop {c : Call F} {b : Nat} {held : List Nat} :
      Move s (.body c (b :: held) []) (.body c held []) s.queue
  | finish {c : Call F} :
      Move s (.body c [] []) (if c.op.syncs then .lockManager c
        else if c.op.locksFs then .unlockFs c else .idle) s.queue
  | lockManager {c : Call F} (h : s.Free .manager) :
      Move s (.lockManager c) (.syncLoop c s.queue) s.queue
  | syncLoop {c : Call F} {b : Nat} {todo : List Nat} :
      Move s (.syncLoop c (b :: todo)) (.syncLock c b todo) s.queue
  | syncLock {c : Call F} {b : Nat} {todo : List Nat} (h : s.Free (.block b)) :
      Move s (.syncLock c b todo) (.syncBlock c b todo) s.queue
  | syncBlock {c : Call F} {b : Nat} {todo : List Nat} :
      Move s (.syncBlock c b todo) (.syncLoop c todo) s.queue
  | syncEnd {c : Call F} : Move s (.syncLoop c []) (.unlockFs c) s.queue
  | unlockFs {c : Call F} : Move s (.unlockFs c) .idle s.queue

variable [DecidableEq T]

/-- Thread `t` moves, and the others stay where they are. -/
def Step (s : State T F) (t : T) (s' : State T F) : Prop :=
  ∃ p queue, Move fetch s (s.phase t) p queue ∧ s' = ⟨Function.update s.phase t p, queue⟩

/-- Any number of threads, any calls with any closures, any interleaving, from a cache that is
empty. -/
def system : System (State T F) T where
  init s := s.queue = [] ∧ ∀ t, s.phase t = .idle
  step := Step fetch

end

/-- Who holds and who waits for which lock, as the library of lock graphs sees a state. -/
def snapshot {T F : Type} (s : State T F) : Locks.Snapshot T (Lock F) where
  held t l := (s.phase t).Holds l
  want t := (s.phase t).want

/-- `BLOCK_CACHE_SIZE`, the capacity of the cache manager's queue: one more block and another
has to go. -/
def blockCacheSize : Nat := 16

/-- What `BlockCacheManager::get_block_cache` is to do to the queue: nothing if the block is cached;
otherwise evict the first block nobody has an `Arc` of, if the queue is full, and append the
block. -/
inductive DocumentedFetch (queue : List Nat) (pinned : Nat → Prop) (b : Nat) : List Nat → Prop where
  | hit (h : b ∈ queue) : DocumentedFetch queue pinned b queue
  | room (h : b ∉ queue) (hlen : queue.length < blockCacheSize) :
      DocumentedFetch queue pinned b (queue ++ [b])
  | evict {l r : List Nat} {x : Nat} (h : b ∉ queue) (hlen : queue.length = blockCacheSize)
      (hq : queue = l ++ x :: r) (hl : ∀ y ∈ l, pinned y) (hx : ¬ pinned x) :
      DocumentedFetch queue pinned b (l ++ r ++ [b])

/-! ## Two threads -/

section

variable {F : Type} {fetch : List Nat → (Nat → Prop) → Nat → List Nat → Prop} {p q p' : Phase F}
  {queue queue' : List Nat}

/-- Two threads, in the phases that are given: the first and the second. -/
def pair (p q : Phase F) : Bool → Phase F
  | false => p
  | true => q

/-- A move of the first of two threads is a step of the system in which the second stays where
it is. -/
theorem step_pair_left (hm : Move fetch ⟨pair p q, queue⟩ p p' queue') :
    (system fetch).step ⟨pair p q, queue⟩ false ⟨pair p' q, queue'⟩ := by
  refine ⟨p', queue', hm, ?_⟩
  congr 1
  funext t
  cases t <;> rfl

/-- A move of the second of two threads is a step of the system in which the first stays where
it is. -/
theorem step_pair_right (hm : Move fetch ⟨pair q p, queue⟩ p p' queue') :
    (system fetch).step ⟨pair q p, queue⟩ true ⟨pair q p', queue'⟩ := by
  refine ⟨p', queue', hm, ?_⟩
  congr 1
  funext t
  cases t <;> rfl

/-- A lock is free if neither of two threads holds it. -/
theorem free_pair {l : Lock F} (hp : ¬ p.Holds l) (hq : ¬ q.Holds l) :
    State.Free ⟨pair p q, queue⟩ l := by
  intro t
  cases t
  · exact hp
  · exact hq

end

/-! ## Careful runs -/

namespace Phase

variable {F : Type}

/-- The thread is inside `block_cache_sync_all`, with the manager. -/
def Syncing : Phase F → Prop
  | .syncLoop .. | .syncLock .. | .syncBlock .. => True
  | _ => False

/-- The thread has locked a block and waits for the manager in `get_block_cache`. -/
def Stuck : Phase F → Prop
  | .getCache _ held _ _ => held ≠ []
  | _ => False

/-- The block a thread is about to lock comes after the blocks it has locked. -/
def Ascending : Phase F → Prop
  | .getCache _ held b _ | .fetching _ held b _ | .lockBlock _ held b _ => ∀ x ∈ held, x < b
  | _ => True

end Phase

section

variable {T F : Type} {fetch : List Nat → (Nat → Prop) → Nat → List Nat → Prop}

/-- A closure asks only for blocks that come after the blocks it has locked. -/
def InOrder (s : State T F) (t : T) : Prop :=
  match s.phase t with
  | .body _ held (.fetch b :: _) => ∀ x ∈ held, x < b
  | _ => True

/-- A closure that has locked a block calls `get_block_cache` only while no thread is inside
`block_cache_sync_all`, and `block_cache_sync_all` takes the manager only while no closure that has
locked a block waits for it. -/
def Undisturbed (s : State T F) (t : T) : Prop :=
  match s.phase t with
  | .body _ held (.fetch _ :: _) => held ≠ [] → ∀ u, ¬ (s.phase u).Syncing
  | .lockManager _ => ∀ u, ¬ (s.phase u).Stuck
  | _ => True

/-- A closure asks for no block that it has locked. -/
def NoRelock (s : State T F) (t : T) : Prop :=
  match s.phase t with
  | .body _ held (.fetch b :: _) => b ∉ held
  | _ => True

/-- The condition on a step of thread `t`: blocks are locked in order and undisturbed by
`block_cache_sync_all`. With one file system only it is enough that no block is locked twice. -/
def Careful (s : State T F) (t : T) : Prop :=
  InOrder s t ∧ Undisturbed s t ∨ Subsingleton F ∧ NoRelock s t

/-- A block that comes after those that are locked is none of them. -/
theorem InOrder.noRelock {s : State T F} {t : T} (h : InOrder s t) : NoRelock s t := by
  unfold InOrder at h
  unfold NoRelock
  generalize s.phase t = p at h ⊢
  cases p with
  | body c held rest =>
    rcases rest with _ | ⟨_ | _, rest⟩
    · trivial
    · exact fun hmem => Nat.lt_irrefl _ (h _ hmem)
    · trivial
  | _ => trivial

/-- Careful steps lock no block twice: a step in order asks for a higher block, and with one
file system this is the condition itself. -/
theorem Careful.noRelock {s : State T F} {t : T} (h : Careful s t) : NoRelock s t := by
  rcases h with ⟨horder, -⟩ | ⟨-, hno⟩
  · exact horder.noRelock
  · exact hno

/-- With several file systems careful steps are in order and undisturbed. -/
theorem Careful.resolve {s : State T F} {t : T} (h : Careful s t) (hF : ¬ Subsingleton F) :
    InOrder s t ∧ Undisturbed s t :=
  h.resolve_right fun h => hF h.1

/-- The runs all of whose steps are careful: the system, with its condition on every step. -/
def carefulSystem [DecidableEq T] (fetch : List Nat → (Nat → Prop) → Nat → List Nat → Prop) :
    System (State T F) T where
  init := (system fetch).init
  step s t s' := (system fetch).step s t s' ∧ Careful s t

/-- What steps keep that are in order and undisturbed: blocks are locked in ascending order, and
nobody syncs while a closure with a block waits. -/
structure Inv (s : State T F) : Prop where
  ascending : ∀ t, (s.phase t).Ascending
  apart : ∀ t u, (s.phase t).Stuck → ¬ (s.phase u).Syncing

/-- **What a move in order can do.** It keeps the blocks in order, it makes a closure wait with a
block only while nobody is in `block_cache_sync_all`, and it enters that only while no closure
waits with a block. -/
theorem Move.inOrder {s : State T F} {t : T} {p : Phase F} {queue : List Nat}
    (hm : Move fetch s (s.phase t) p queue) (hc : InOrder s t ∧ Undisturbed s t)
    (h : (s.phase t).Ascending) :
    p.Ascending ∧ (p.Stuck → ∀ u, ¬ (s.phase u).Syncing) ∧
      (p.Syncing → (s.phase t).Syncing ∨ ∀ u, ¬ (s.phase u).Stuck) := by
  unfold InOrder Undisturbed at hc
  generalize s.phase t = old at hm hc h
  cases hm with
  | call c =>
    split
    · exact ⟨trivial, False.elim, False.elim⟩
    · exact ⟨trivial, False.elim, False.elim⟩
  | finish =>
    split
    · exact ⟨trivial, False.elim, False.elim⟩
    · split
      · exact ⟨trivial, False.elim, False.elim⟩
      · exact ⟨trivial, False.elim, False.elim⟩
  | fetch => exact ⟨hc.1, hc.2, False.elim⟩
  | lockManager => exact ⟨trivial, False.elim, fun _ => .inr hc.2⟩
  | getCache _ | fetching _ => exact ⟨h, False.elim, False.elim⟩
  | syncLoop | syncLock _ | syncBlock => exact ⟨trivial, False.elim, fun _ => .inl trivial⟩
  | lockFs _ | release | lockBlock _ | drop | syncEnd | unlockFs =>
    exact ⟨trivial, False.elim, False.elim⟩

/-! ## Waiting threads -/

/-- A thread that waits and has the manager is in `block_cache_sync_all`. -/
theorem eq_syncLock_of_want {p : Phase F} {l : Lock F} (hp : p.Holds .manager)
    (hw : p.want = some l) : ∃ c b todo, p = .syncLock c b todo := by
  cases p with
  | syncLock c b todo => exact ⟨c, b, todo, rfl⟩
  | lockFs => cases hp
  | getCache | lockBlock =>
    rcases hp with ⟨-, hp⟩ | ⟨b, -, hp⟩
    · cases hp
    · cases hp
  | lockManager => cases hp.2
  | idle | body | fetching | syncLoop | syncBlock | unlockFs => cases hw

/-- A thread that waits and has a block is in a closure. -/
theorem mem_held_of_want {p : Phase F} {x : Nat} {l : Lock F} (hp : p.Holds (.block x))
    (hw : p.want = some l) : ∃ c held b rest, x ∈ held ∧
      (p = .getCache c held b rest ∨ p = .lockBlock c held b rest) := by
  cases p with
  | getCache c held b rest =>
    rcases hp with ⟨-, hp⟩ | ⟨b', hb', hp⟩
    · cases hp
    · cases hp
      exact ⟨c, held, b, rest, hb', .inl rfl⟩
  | lockBlock c held b rest =>
    rcases hp with ⟨-, hp⟩ | ⟨b', hb', hp⟩
    · cases hp
    · cases hp
      exact ⟨c, held, b, rest, hb', .inr rfl⟩
  | lockFs => cases hp
  | lockManager => cases hp.2
  | syncLock =>
    rcases hp with ⟨-, hp⟩ | hp
    · cases hp
    · cases hp
  | idle | body | fetching | syncLoop | syncBlock | unlockFs => cases hw

/-- How far up the blocks a waiting thread is; 0 for one that has no block and waits for none. -/
def Phase.rank : Phase F → Nat
  | .getCache _ held b _ => if held = [] then 0 else b + 1
  | .lockBlock _ _ b _ | .syncLock _ b _ => b + 1
  | _ => 0

/-- A closure that has block `x` and waits is above `x`. -/
theorem Inv.lt_rank {s : State T F} (h : Inv s) {u : T} {x : Nat} {l : Lock F}
    (hu : (s.phase u).Holds (.block x)) (hw : (s.phase u).want = some l) :
    x + 1 < (s.phase u).rank := by
  have hasc := h.ascending u
  obtain ⟨c, held, b, rest, hx, hp | hp⟩ := mem_held_of_want hu hw
  · rw [hp] at hasc ⊢
    rw [Phase.rank, if_neg (List.ne_nil_of_mem hx)]
    exact Nat.succ_lt_succ (hasc x hx)
  · rw [hp] at hasc ⊢
    exact Nat.succ_lt_succ (hasc x hx)

/-- Where closures wait with blocks in order and apart from `block_cache_sync_all`, nobody waits in
a cycle: the block a thread waits for gets higher and higher along it. -/
theorem Inv.acyclic {s : State T F} (hinv : Inv s) : (snapshot s).Acyclic := by
  refine Locks.Snapshot.acyclic_of_rank (fun t => (s.phase t).rank) ?_
  rintro r t u v ⟨l₀, -, ht⟩ ⟨l, hl, hu⟩ ⟨l', hl', -⟩
  simp only [snapshot] at ht hl hu hl'
  cases hp : s.phase t with
  | lockFs =>
    rw [hp] at ht
    cases ht
  | getCache c held b rest =>
    rw [hp] at hl
    cases hl
    obtain ⟨c', b', todo, hq⟩ := eq_syncLock_of_want hu hl'
    by_cases hheld : held = []
    · rw [hq, Phase.rank, if_pos hheld]
      exact Nat.succ_pos b'
    · -- the closure would wait with a block while `u` is in `block_cache_sync_all`
      refine absurd ?_ (hinv.apart t u ?_)
      · rw [hq]
        trivial
      · rw [hp]
        exact hheld
  | lockManager c =>
    rw [hp] at hl
    cases hl
    obtain ⟨c', b', todo, hq⟩ := eq_syncLock_of_want hu hl'
    rw [hq]
    exact Nat.succ_pos b'
  | lockBlock c held b rest =>
    rw [hp] at hl
    cases hl
    exact hinv.lt_rank hu hl'
  | syncLock c b todo =>
    rw [hp] at hl
    cases hl
    exact hinv.lt_rank hu hl'
  | idle | body | fetching | syncLoop | syncBlock | unlockFs =>
    rw [hp] at hl
    cases hl

/-! ## The lock of the file system -/

/-- The phases with the lock of the file system, apart from those a call of `size` or `is_dir` goes
through: it looks at the inode's block and at no other. -/
def Phase.Guarded : Phase F → Prop
  | .idle | .lockFs _ => True
  | .body c held rest =>
    c.op.locksFs = true ∨ c.op.syncs = false ∧ (held = [] ∧ (∃ b, rest = [.fetch b]) ∨ rest = [])
  | .getCache c held _ rest | .fetching c held _ rest | .lockBlock c held _ rest =>
    c.op.locksFs = true ∨ c.op.syncs = false ∧ held = [] ∧ rest = []
  | .lockManager c | .syncLoop c _ | .syncLock c _ _ | .syncBlock c _ _ | .unlockFs c =>
    c.op.locksFs = true

/-- An operation that does not lock the file system does not sync the caches either. -/
theorem Op.syncs_eq_false {op : Op} (h : op.locksFs = false) : op.syncs = false := by
  cases op <;> first | rfl | cases h

/-- The start of a call is guarded, whether or not its operation locks the file system. -/
theorem guarded_code (c : Call F) : (Phase.body c [] c.code).Guarded := by
  cases hfs : c.op.locksFs with
  | true => exact .inl hfs
  | false => exact .inr ⟨Op.syncs_eq_false hfs, .inl ⟨rfl, c.block, by simp [Call.code, hfs]⟩⟩

/-- Every move leads to a guarded phase: what a phase promises of the file system's lock is kept. -/
theorem Move.guarded {s : State T F} {old p : Phase F} {queue : List Nat}
    (hm : Move fetch s old p queue) (h : old.Guarded) : p.Guarded := by
  cases hm with
  | call c =>
    split
    · trivial
    · exact guarded_code c
  | lockFs _ => exact guarded_code _
  | fetch =>
    rcases h with h | ⟨hs, ⟨hheld, b', hrest⟩ | hrest⟩
    · exact .inl h
    · cases hrest
      exact .inr ⟨hs, hheld, rfl⟩
    · cases hrest
  | release =>
    rcases h with h | ⟨hs, ⟨hheld, b', hrest⟩ | hrest⟩
    · exact .inl h
    · cases hrest
    · cases hrest
  | getCache _ | fetching _ => exact h
  | lockBlock _ =>
    rcases h with h | ⟨hs, -, hrest⟩
    · exact .inl h
    · exact .inr ⟨hs, .inr hrest⟩
  | drop =>
    rcases h with h | ⟨hs, -⟩
    · exact .inl h
    · exact .inr ⟨hs, .inr rfl⟩
  | finish =>
    split
    · rename_i hs
      rcases h with h | ⟨hs', -⟩
      · exact h
      · rw [hs'] at hs
        cases hs
    · split
      · assumption
      · trivial
  | lockManager _ | syncLoop | syncLock _ | syncBlock | syncEnd => exact h
  | unlockFs => trivial

/-- A move takes the lock of a file system only if it is free. -/
theorem Move.holds_fs {s : State T F} {old p : Phase F} {queue : List Nat} {k : F}
    (hm : Move fetch s old p queue) (hp : p.Holds (.fs k)) :
    old.Holds (.fs k) ∨ s.Free (.fs k) := by
  cases hm with
  | lockFs hfree =>
    rcases hp with ⟨-, hp⟩ | ⟨b, -, hp⟩
    · cases hp
      exact .inr hfree
    · cases hp
  | call c =>
    split at hp
    · cases hp
    · rename_i hfs
      rcases hp with ⟨hfs', -⟩ | ⟨b, -, hp⟩
      · exact absurd hfs' hfs
      · cases hp
  | finish =>
    split at hp
    · exact .inl (.inl hp)
    · split at hp
      · exact .inl (.inl hp)
      · cases hp
  | unlockFs => cases hp
  | fetch | release | getCache _ | fetching _ | lockBlock _ | drop | lockManager _ | syncLoop
  | syncLock _ | syncBlock | syncEnd =>
    left
    simpa [Phase.Holds, Phase.HoldsBlock] using hp

/-- Guarded threads, and one owner for every file system: no two threads hold its lock at the
same time. -/
structure OneOwner (s : State T F) : Prop where
  guarded : ∀ t, (s.phase t).Guarded
  unique : ∀ t u k, (s.phase t).Holds (.fs k) → (s.phase u).Holds (.fs k) → t = u

/-- A thread that waits and holds any lock has the lock of its file system. -/
theorem OneOwner.holds_fs_of_want {s : State T F} (h : OneOwner s) {t : T} {l l' : Lock F}
    (ht : (s.phase t).Holds l) (hw : (s.phase t).want = some l') :
    ∃ k, (s.phase t).Holds (.fs k) := by
  have hg := h.guarded t
  cases l with
  | fs k => exact ⟨k, ht⟩
  | manager =>
    obtain ⟨c, b, todo, hp⟩ := eq_syncLock_of_want ht hw
    rw [hp] at hg ⊢
    exact ⟨c.fs, .inl ⟨hg, rfl⟩⟩
  | block x =>
    obtain ⟨c, held, b, rest, hx, hp | hp⟩ := mem_held_of_want ht hw
    · rw [hp] at hg ⊢
      rcases hg with hfs | ⟨-, hnil, -⟩
      · exact ⟨c.fs, .inl ⟨hfs, rfl⟩⟩
      · exact absurd hnil (List.ne_nil_of_mem hx)
    · rw [hp] at hg ⊢
      rcases hg with hfs | ⟨-, hnil, -⟩
      · exact ⟨c.fs, .inl ⟨hfs, rfl⟩⟩
      · exact absurd hnil (List.ne_nil_of_mem hx)

/-- The block a thread is about to lock is none of the blocks it has locked. -/
def Phase.Fresh : Phase F → Prop
  | .getCache _ held b _ | .fetching _ held b _ | .lockBlock _ held b _ => b ∉ held
  | _ => True

/-- Such a thread does not wait for itself: the lock it wants is none of those it holds. -/
theorem Phase.Fresh.not_holds_want {p : Phase F} {l : Lock F} (h : p.Fresh) (hw : p.want = some l) :
    ¬ p.Holds l := by
  cases p with
  | lockFs => exact id
  | getCache =>
    cases hw
    rintro (⟨-, hl⟩ | ⟨b, -, hl⟩)
    · cases hl
    · cases hl
  | lockBlock =>
    cases hw
    rintro (⟨-, hl⟩ | ⟨b, hb, hl⟩)
    · cases hl
    · cases hl
      exact h hb
  | lockManager =>
    cases hw
    rintro ⟨-, hl⟩
    cases hl
  | syncLock =>
    cases hw
    rintro (⟨-, hl⟩ | hl)
    · cases hl
    · cases hl
  | idle | body | fetching | syncLoop | syncBlock | unlockFs => cases hw

/-- A move leads to a phase that waits for no block its thread already has, if its step locks
none twice. -/
theorem Move.fresh {s : State T F} {t : T} {p : Phase F} {queue : List Nat}
    (hm : Move fetch s (s.phase t) p queue) (hn : NoRelock s t) (h : (s.phase t).Fresh) :
    p.Fresh := by
  unfold NoRelock at hn
  generalize s.phase t = old at hm hn h
  cases hm with
  | call c =>
    split
    · trivial
    · trivial
  | finish =>
    split
    · trivial
    · split
      · trivial
      · trivial
  | fetch => exact hn
  | getCache _ | fetching _ => exact h
  | lockFs _ | release | lockBlock _ | drop | lockManager _ | syncLoop | syncLock _ | syncBlock
  | syncEnd | unlockFs => trivial

/-- With one file system two threads in a row that wait and are waited for both have the file
system: they are one thread, which would wait for itself. -/
theorem OneOwner.acyclic [Subsingleton F] {s : State T F} (h : OneOwner s)
    (hfresh : ∀ t, (s.phase t).Fresh) : (snapshot s).Acyclic := by
  refine Locks.Snapshot.acyclic_of_rank (fun _ => 0) ?_
  rintro r t u v ⟨l₀, -, ht⟩ ⟨l, hl, hu⟩ ⟨l', hl', -⟩
  simp only [snapshot] at ht hl hu hl'
  obtain ⟨k, hk⟩ := h.holds_fs_of_want ht hl
  obtain ⟨k', hk'⟩ := h.holds_fs_of_want hu hl'
  rw [Subsingleton.elim k' k] at hk'
  rw [← h.unique t u k hk hk'] at hu
  exact absurd hu ((hfresh t).not_holds_want hl)

/-! ## Runs -/

variable [DecidableEq T]

/-- Steps that are in order and undisturbed keep the invariant. -/
theorem Inv.step {s s' : State T F} {t : T} (h : Inv s) (hs : (system fetch).step s t s')
    (hc : InOrder s t ∧ Undisturbed s t) : Inv s' := by
  obtain ⟨p, queue, hm, rfl⟩ := hs
  obtain ⟨hasc, hstuck, hsync⟩ := hm.inOrder hc (h.ascending t)
  refine ⟨?_, fun u v hu hv => ?_⟩
  · exact (Function.forall_update_iff s.phase fun _ => Phase.Ascending).mpr
      ⟨hasc, fun u _ => h.ascending u⟩
  · dsimp only at hu hv
    rcases eq_or_ne u t with rfl | hut
    · rw [Function.update_self] at hu
      rcases eq_or_ne v u with rfl | hvt
      · rw [Function.update_self] at hv
        cases p <;> first | exact hu | exact hv
      · rw [Function.update_of_ne hvt] at hv
        exact hstuck hu v hv
    · rw [Function.update_of_ne hut] at hu
      rcases eq_or_ne v t with rfl | hvt
      · rw [Function.update_self] at hv
        rcases hsync hv with hold | hnone
        · exact h.apart u v hu hold
        · exact hnone u hu
      · rw [Function.update_of_ne hvt] at hv
        exact h.apart u v hu hv

/-- With several file systems the invariant holds in every state of a careful run. -/
theorem inv_of_reachable (hF : ¬ Subsingleton F) {s : State T F}
    (h : (carefulSystem fetch).Reachable s) : Inv s := by
  refine h.invariant (I := Inv) ?_ fun s t s' hinv hs => hinv.step hs.1 (hs.2.resolve hF)
  rintro s ⟨-, hidle⟩
  refine ⟨fun t => ?_, fun t u ht => ?_⟩
  · rw [hidle]
    trivial
  · rw [hidle] at ht
    exact ht.elim

/-- Every step keeps one owner for every file system, since its lock is taken only when it is
free. -/
theorem OneOwner.step {s s' : State T F} {t : T} (h : OneOwner s)
    (hs : (system fetch).step s t s') :
    OneOwner s' := by
  obtain ⟨p, queue, hm, rfl⟩ := hs
  refine ⟨?_, fun u v k hu hv => ?_⟩
  · exact (Function.forall_update_iff s.phase fun _ => Phase.Guarded).mpr
      ⟨hm.guarded (h.guarded t), fun u _ => h.guarded u⟩
  · have hold : ∀ w, (Function.update s.phase t p w).Holds (.fs k) →
        (s.phase w).Holds (.fs k) ∨ w = t ∧ s.Free (.fs k) := by
      intro w hw
      rcases eq_or_ne w t with rfl | hwt
      · rw [Function.update_self] at hw
        exact (hm.holds_fs hw).imp_right fun hfree => ⟨rfl, hfree⟩
      · rw [Function.update_of_ne hwt] at hw
        exact .inl hw
    rcases hold u hu with hu' | ⟨hut, hfree⟩
    · rcases hold v hv with hv' | ⟨hvt, hfree⟩
      · exact h.unique u v k hu' hv'
      · exact absurd hu' (hfree u)
    · rcases hold v hv with hv' | ⟨hvt, -⟩
      · exact absurd hv' (hfree v)
      · rw [hut, hvt]

/-- In a careful run every file system has one owner, and no thread waits for a block it has. -/
theorem oneOwner_of_reachable {s : State T F} (h : (carefulSystem fetch).Reachable s) :
    OneOwner s ∧ ∀ t, (s.phase t).Fresh := by
  refine h.invariant (I := fun s => OneOwner s ∧ ∀ t, (s.phase t).Fresh) ?_ ?_
  · rintro s ⟨-, hidle⟩
    refine ⟨⟨fun t => ?_, fun t u k ht => ?_⟩, fun t => ?_⟩
    · rw [hidle]
      trivial
    · rw [hidle] at ht
      exact ht.elim
    · rw [hidle]
      trivial
  · rintro s t s' ⟨howner, hfresh⟩ ⟨hs, hc⟩
    refine ⟨howner.step hs, ?_⟩
    obtain ⟨p, queue, hm, rfl⟩ := hs
    exact (Function.forall_update_iff s.phase fun _ => Phase.Fresh).mpr
      ⟨hm.fresh hc.noRelock (hfresh t), fun u _ => hfresh u⟩

/-- **Careful runs never deadlock.** In every state that a run of careful steps reaches, for any
number of threads, file systems and calls and whatever the cache manager does to its queue, there is
no cycle of threads each waiting for a lock held by the next. -/
theorem careful_acyclic {s : State T F} (h : (carefulSystem fetch).Reachable s) :
    (snapshot s).Acyclic := by
  by_cases hF : Subsingleton F
  · obtain ⟨howner, hfresh⟩ := oneOwner_of_reachable h
    exact howner.acyclic hfresh
  · exact (inv_of_reachable hF h).acyclic

end

/-! ## Two threads on two file systems -/

/-- `clear` of an empty file in block 2 of one file system. -/
def clearCall : Call Bool := ⟨.clear, false, 2, []⟩

/-- `read_at` of a file in block 3 of another file system, with its first data block in block
1027. -/
def readCall : Call Bool := ⟨.readAt, true, 3, [.fetch 1027, .release]⟩

/-- A step from here calls no `get_block_cache` with a block locked, and does not enter
`block_cache_sync_all`. -/
def Phase.Plain {F : Type} : Phase F → Prop
  | .body _ held (.fetch _ :: _) => held = []
  | .lockManager _ => False
  | _ => True

/-- A plain step is careful: there is nothing the condition asks of it. -/
theorem Phase.Plain.careful {s : State Bool Bool} {t : Bool} (h : (s.phase t).Plain) :
    Careful s t := by
  left
  unfold InOrder Undisturbed
  generalize s.phase t = p at h ⊢
  cases p with
  | body c held rest =>
    rcases rest with _ | ⟨_ | _, rest⟩
    · exact ⟨trivial, trivial⟩
    · cases h
      exact ⟨by simp, fun hne => absurd rfl hne⟩
    · exact ⟨trivial, trivial⟩
  | lockManager => exact h.elim
  | _ => exact ⟨trivial, trivial⟩

/-- A careful move of the first of two threads leads on to a state that careful steps can reach. -/
theorem careful_pair_left {p q p' : Phase Bool} {queue queue' : List Nat}
    (h : (carefulSystem DocumentedFetch).Reachable ⟨pair p q, queue⟩)
    (hm : Move DocumentedFetch ⟨pair p q, queue⟩ p p' queue') (hp : p.Plain) :
    (carefulSystem DocumentedFetch).Reachable ⟨pair p' q, queue'⟩ :=
  h.step ⟨step_pair_left hm, Phase.Plain.careful (t := false) hp⟩

/-- A careful move of the second of two threads leads on to a state that careful steps can reach. -/
theorem careful_pair_right {p q p' : Phase Bool} {queue queue' : List Nat}
    (h : (carefulSystem DocumentedFetch).Reachable ⟨pair q p, queue⟩)
    (hm : Move DocumentedFetch ⟨pair q p, queue⟩ p p' queue') (hp : p.Plain) :
    (carefulSystem DocumentedFetch).Reachable ⟨pair q p', queue'⟩ :=
  h.step ⟨step_pair_right hm, Phase.Plain.careful (t := true) hp⟩

/-- The reader has locked its inode's block and is about to call `get_block_cache` for the data
block. -/
theorem reachable_reader : (carefulSystem DocumentedFetch).Reachable
    (⟨pair .idle (.body readCall [3] [.fetch 1027, .release]), [3]⟩ : State Bool Bool) := by
  have h₀ : (carefulSystem DocumentedFetch).Reachable (⟨pair .idle .idle, []⟩ : State Bool Bool) :=
    .of_init ⟨rfl, fun t => by cases t <;> rfl⟩
  have h₁ := careful_pair_right h₀ (.call readCall) trivial
  have h₂ := careful_pair_right h₁ (.lockFs (free_pair id id)) trivial
  have h₃ := careful_pair_right h₂ .fetch rfl
  have h₄ := careful_pair_right h₃ (.getCache (free_pair id (by
    simp [Phase.Holds, Phase.HoldsFs, Phase.HoldsBlock]))) trivial
  have h₅ := careful_pair_right h₄ (.fetching (.room (by simp) (by decide))) trivial
  exact careful_pair_right h₅ (.lockBlock (free_pair id (by
    simp [Phase.Holds, Phase.HoldsFs, Phase.HoldsBlock]))) trivial

/-- The other thread has cleared its file meanwhile and is about to enter
`block_cache_sync_all`. -/
theorem reachable_clear : (carefulSystem DocumentedFetch).Reachable
    (⟨pair (.lockManager clearCall) (.body readCall [3] [.fetch 1027, .release]), [3, 2]⟩ :
      State Bool Bool) := by
  have h₁ := careful_pair_left reachable_reader (.call clearCall) trivial
  have h₂ := careful_pair_left h₁ (.lockFs (free_pair id (by
    simp [Phase.Holds, Phase.HoldsFs, Phase.HoldsBlock, readCall, clearCall]))) trivial
  have h₃ := careful_pair_left h₂ .fetch rfl
  have h₄ := careful_pair_left h₃ (.getCache (free_pair
    (by simp [Phase.Holds, Phase.HoldsFs, Phase.HoldsBlock])
    (by simp [Phase.Holds, Phase.HoldsFs, Phase.HoldsBlock]))) trivial
  have h₅ := careful_pair_left h₄ (.fetching (.room (by decide) (by decide))) trivial
  have h₆ := careful_pair_left h₅ (.lockBlock (free_pair
    (by simp [Phase.Holds, Phase.HoldsFs, Phase.HoldsBlock])
    (by simp [Phase.Holds, Phase.HoldsFs, Phase.HoldsBlock, clearCall]))) trivial
  have h₇ := careful_pair_left h₆ .drop trivial
  exact careful_pair_left h₇ .finish trivial

/-- The reader, with its inode's block, fetches the data block while the other thread waits to enter
`block_cache_sync_all`. That one enters when the reader has given the manager back, and waits for
the reader's block; the reader waits for a block nobody has. -/
theorem careful_acyclic_sync : ∃ s : State Bool Bool,
    (carefulSystem DocumentedFetch).Reachable s ∧
    s.phase false = .syncLock clearCall 3 [2, 1027] ∧
    s.phase true = .lockBlock readCall [3] 1027 [.release] ∧
    (snapshot s).WaitsFor false true ∧ (snapshot s).Acyclic := by
  have hfetch : Careful (⟨pair (.lockManager clearCall)
      (.body readCall [3] [.fetch 1027, .release]), [3, 2]⟩ : State Bool Bool) true :=
    .inl ⟨by simp [InOrder, pair], fun _ u => by cases u <;> exact id⟩
  have h₁ := reachable_clear.step ⟨step_pair_right .fetch, hfetch⟩
  have h₂ := careful_pair_right h₁ (.getCache (free_pair
    (by simp [Phase.Holds, Phase.HoldsFs])
    (by simp [Phase.Holds, Phase.HoldsFs, Phase.HoldsBlock]))) trivial
  have h₃ := careful_pair_right h₂ (.fetching (.room (by decide) (by decide))) trivial
  have hsync : Careful (⟨pair (.lockManager clearCall)
      (.lockBlock readCall [3] 1027 [.release]), [3, 2, 1027]⟩ : State Bool Bool) false :=
    .inl ⟨trivial, fun u => by cases u <;> exact id⟩
  have h₄ := h₃.step ⟨step_pair_left (.lockManager (free_pair
    (by simp [Phase.Holds, Phase.HoldsFs])
    (by simp [Phase.Holds, Phase.HoldsFs, Phase.HoldsBlock]))), hsync⟩
  have h₅ := careful_pair_left h₄ .syncLoop trivial
  refine ⟨_, h₅, rfl, rfl, ⟨.block 3, rfl, ?_⟩, careful_acyclic h₅⟩
  exact .inr ⟨3, by simp, rfl⟩

/-- **Two threads deadlock.** A thread in `block_cache_sync_all` holds the manager and waits for a
block; the thread that holds this block, on another file system, waits for the manager. -/
theorem twoFs_cycle :
    ∃ s : State Bool Bool, (system DocumentedFetch).Reachable s ∧ ¬ (snapshot s).Acyclic := by
  have h₁ : (system DocumentedFetch).Reachable _ :=
    reachable_clear.mono (fun _ => id) fun _ _ _ hs => hs.1
  have h₂ := h₁.step (step_pair_left (.lockManager (free_pair
    (by simp [Phase.Holds, Phase.HoldsFs])
    (by simp [Phase.Holds, Phase.HoldsFs, Phase.HoldsBlock]))))
  have h₃ := h₂.step (step_pair_left .syncLoop)
  refine ⟨_, h₃.step (step_pair_right .fetch), fun h => h false ?_⟩
  refine .tail (.single (b := true) ⟨.block 3, rfl, ?_⟩) ⟨.manager, rfl, ?_⟩
  · exact .inr ⟨3, by simp, rfl⟩
  · exact .inr rfl

end TinyOS.EasyFs.Locking
