import TinyOS.EasyFs.FileTree
import TinyOS.EasyFs.DataBlocks

/-!
# The blocks a file gets and gives back

The loops over `alloc_data` and `dealloc_data` in `Inode::increase_size` and `Inode::clear`
(`easy-fs/src/vfs.rs`), for one file beside others. What they allocate nobody has and is zero, and
what they give back is zeroed, so `increase_size` fills a file up with zeros (`increaseSize_cases`).
-/

namespace TinyOS.EasyFs

section

variable (dealloc : Bitmap → Store → Nat → Except Panic Store)

namespace EasyFileSystem

/-- `dealloc_data` of a block, with the device it leaves, also where it panics on the way. -/
def deallocDataHeld (a : Arith) (efs : EasyFileSystem) (blockId : UInt32) :
    EStateM Panic Held Unit := do
  let dev ← ofExcept (modifyBlock dataBlock (← get).dev blockId.toNat 0 fun _ _ => 0)
  modify fun s => { s with dev }
  let bit ← ofExcept (a.sub blockId efs.dataAreaStartBlock)
  let dev ← ofExcept (dealloc efs.dataBitmap dev bit.toNat)
  modify fun s => { s with dev }

/-- The loop `for b in freed { fs.dealloc_data(b); }`, which gives the blocks back in the order
they were returned. -/
def deallocLoop (a : Arith) (efs : EasyFileSystem) : List UInt32 → EStateM Panic Held Unit
  | [] => pure ()
  | b :: freed => do
    efs.deallocDataHeld dealloc a b
    deallocLoop a efs freed

end EasyFileSystem

end

variable {alloc : Bitmap → Store → Option Nat × Store}
  {dealloc : Bitmap → Store → Nat → Except Panic Store}
  {grow : UInt32 → List UInt32 → EStateM Panic Held Unit}
  {a : Arith} {totalBlocks : UInt32} {efs : EasyFileSystem}

/-- The bits that are not free are those of the things that have been handed out. -/
theorem Bitmap.card_free_add {bm : Bitmap} {dev : Store} {l : List UInt32} {start : Nat}
    (hnodup : l.Nodup) (hrange : ∀ id ∈ l, ∃ bit < bm.maximum, id.toNat = bit + start)
    (hbits : ∀ bit < bm.maximum, bm.testBit dev bit = true ↔ ∃ id ∈ l, id.toNat = bit + start) :
    (bm.free dev).card + l.length = bm.maximum := by
  have hset : (Finset.range bm.maximum).filter (fun bit => ¬ bm.testBit dev bit = false) =
      l.toFinset.image fun id => id.toNat - start := by
    ext bit
    rw [Finset.mem_filter, Finset.mem_range, Bool.not_eq_false, Finset.mem_image]
    constructor
    · rintro ⟨hlt, hset⟩
      obtain ⟨id, hid, heq⟩ := (hbits bit hlt).mp hset
      exact ⟨id, List.mem_toFinset.mpr hid, by omega⟩
    · rintro ⟨id, hid, rfl⟩
      obtain ⟨bit, hlt, heq⟩ := hrange id (List.mem_toFinset.mp hid)
      rw [heq, Nat.add_sub_cancel]
      exact ⟨hlt, (hbits bit hlt).mpr ⟨id, List.mem_toFinset.mp hid, heq⟩⟩
  have hinj : Set.InjOn (fun id : UInt32 => id.toNat - start) l.toFinset := by
    intro id hid id' hid' heq
    obtain ⟨bit, -, hbit⟩ := hrange id (List.mem_toFinset.mp hid)
    obtain ⟨bit', -, hbit'⟩ := hrange id' (List.mem_toFinset.mp hid')
    exact UInt32.toNat_inj.mp (by dsimp only at heq; omega)
  have hcard := Finset.card_filter_add_card_filter_not (s := Finset.range bm.maximum)
    (fun bit => bm.testBit dev bit = false)
  rw [hset, Finset.card_image_of_injOn hinj, List.toFinset_card_of_nodup hnodup,
    Finset.card_range] at hcard
  exact hcard

/-! ## Allocating and freeing blocks -/

/-- Outside the data bitmap nothing changes but the blocks of `touched`. -/
def Untouched (efs : EasyFileSystem) (touched : UInt32 → Prop) (dev dev' : Store) : Prop :=
  ∀ n, n < efs.dataBitmap.startBlockId ∨ efs.dataAreaStartBlock.toNat ≤ n →
    (∀ b, touched b → b.toNat ≠ n) → dev' n = dev n

/-- A device is untouched by doing nothing, whatever might have been touched. -/
theorem Untouched.refl (efs : EasyFileSystem) (touched : UInt32 → Prop) (dev : Store) :
    Untouched efs touched dev dev := fun _ _ _ => rfl

/-- The loop of `increase_size` hands out blocks that nobody has. -/
theorem allocLoop_inv (hspec : AllocSpec alloc) (hfit : Fits efs) {n : Nat} {s s' : Held}
    {v v' owned : List UInt32} (h : Blocks.Inv totalBlocks efs ⟨s.dev, owned⟩)
    (hrun : efs.allocLoop alloc a n v s = .ok v' s') :
    ∃ new, v' = v ++ new ∧ new.length = n ∧ s'.inode = s.inode ∧
      Blocks.Inv totalBlocks efs ⟨s'.dev, new.reverse ++ owned⟩ ∧
      Untouched efs (fun _ => False) s.dev s'.dev := by
  induction n generalizing s v owned with
  | zero =>
    cases hrun
    exact ⟨[], (List.append_nil _).symm, rfl, rfl, h, Untouched.refl _ _ _⟩
  | succ n ih =>
    rcases allocData_cases hspec hfit a s.dev with ⟨hcard, -⟩ | ⟨bit, hbit, id, hid, hok⟩
    · rcases allocDataHeld_cases a efs hspec s with ⟨-, herr⟩ | ⟨_, _, -, hcard', -⟩
      · rw [EasyFileSystem.allocLoop, run_bind_error herr] at hrun
        cases hrun
      · omega
    · have hstep := (allocDataHeld_eq_ok_iff a efs (s := s)).mpr hok
      rw [EasyFileSystem.allocLoop, run_bind_ok hstep] at hrun
      obtain ⟨new, rfl, hlen, hinode, hinv, hdev⟩ := ih (h.allocated hfit hbit hid) hrun
      refine ⟨id :: new, by simp, by simp [hlen], hinode, by simpa using hinv, fun m hm _ => ?_⟩
      have hblock := hfit.blockOf_lt (Bitmap.mem_free.mp hbit).1
      rw [hdev m hm fun _ h => h.elim]
      exact Bitmap.setBit_of_ne (by omega)

/-- `dealloc_data` of a block that somebody has succeeds, and then nobody has the block. -/
theorem deallocDataHeld_eq (hdspec : DeallocSpec dealloc) (hfit : Fits efs) (a : Arith) {s : Held}
    {owned : List UInt32} {b : UInt32} (h : Blocks.Inv totalBlocks efs ⟨s.dev, owned⟩)
    (hb : b ∈ owned) :
    ∃ dev, efs.deallocDataHeld dealloc a b s = .ok () { s with dev } ∧
      Blocks.Inv totalBlocks efs ⟨dev, owned.erase b⟩ ∧ Untouched efs (· = b) s.dev dev := by
  obtain ⟨bit, hbit, hid, hok⟩ := h.deallocData_eq_ok hdspec hfit a hb
  refine ⟨_, ?_, h.deallocated hfit hbit hb hid, fun n hn hne => ?_⟩
  · rw [EasyFileSystem.deallocData, modifyBlock_zero] at hok
    obtain ⟨_, hdev, hok⟩ := bind_eq_ok.mp hok
    cases hdev
    obtain ⟨x, hx, hok⟩ := bind_eq_ok.mp hok
    rw [EasyFileSystem.deallocDataHeld, run_get_bind,
      run_bind_ok (run_ofExcept_ok (modifyBlock_zero s.dev b.toNat) s)]
    refine (run_bind_ok rfl).trans ((run_bind_ok (run_ofExcept_ok hx _)).trans ?_)
    exact (run_bind_ok (run_ofExcept_ok hok _)).trans rfl
  · have hblock := hfit.blockOf_lt hbit
    rw [Bitmap.clearBit_of_ne (by omega)]
    exact Function.update_of_ne (hne b rfl).symm ..

/-- The loop of `clear` gives back the blocks it is given. -/
theorem deallocLoop_inv (hdspec : DeallocSpec dealloc) (hfit : Fits efs) (a : Arith) {s : Held}
    {freed owned : List UInt32} (h : Blocks.Inv totalBlocks efs ⟨s.dev, owned⟩)
    (hnodup : freed.Nodup) (hmem : ∀ b ∈ freed, b ∈ owned) :
    ∃ dev owned', efs.deallocLoop dealloc a freed s = .ok () { s with dev } ∧
      Blocks.Inv totalBlocks efs ⟨dev, owned'⟩ ∧ (∀ b, b ∈ owned' ↔ b ∈ owned ∧ b ∉ freed) ∧
      Untouched efs (· ∈ freed) s.dev dev := by
  induction freed generalizing s owned with
  | nil => exact ⟨s.dev, owned, rfl, h, by simp, Untouched.refl _ _ _⟩
  | cons b freed ih =>
    obtain ⟨hb, hnodup⟩ := List.nodup_cons.mp hnodup
    obtain ⟨dev, hok, hinv, hdev⟩ :=
      deallocDataHeld_eq hdspec hfit a h (hmem b List.mem_cons_self)
    have herase : ∀ b', b' ∈ owned.erase b ↔ b' ≠ b ∧ b' ∈ owned :=
      fun b' => h.nodup.mem_erase_iff
    obtain ⟨dev', owned', hok', hinv', hmem', hdev'⟩ := @ih { s with dev } _ hinv hnodup
      fun b' hb' => (herase b').mpr
        ⟨fun heq => hb (heq ▸ hb'), hmem b' (List.mem_cons_of_mem _ hb')⟩
    refine ⟨dev', owned', ?_, hinv', fun b' => ?_, fun n hn hne => ?_⟩
    · rw [EasyFileSystem.deallocLoop, run_bind_ok hok]
      exact hok'
    · rw [hmem', herase, List.mem_cons, not_or]
      tauto
    · rw [hdev' n hn fun b' hb' => hne b' (List.mem_cons_of_mem _ hb')]
      exact hdev n hn fun b' hb' => hne b' (hb' ▸ List.mem_cons_self)

/-! ## Growing -/

/-- What `Inode::increase_size` leaves of a file: it has got the blocks `v`, which nobody had, and
is filled up with zeros. -/
structure Enlarged (totalBlocks : UInt32) (efs : EasyFileSystem) (h : Held) (owned : List UInt32)
    (newSize : Nat) (v : List UInt32) (h' : Held) : Prop where
  size : h'.size = max h.size newSize
  sound : h'.Sound
  blocks : h'.blocks = h.blocks ∪ v.toFinset
  inv : ∃ owned', Blocks.Inv totalBlocks efs ⟨h'.dev, owned'⟩ ∧ ∀ b, b ∈ owned' ↔ b ∈ v ∨ b ∈ owned
  fresh : ∀ b ∈ v, b ∉ owned
  frame : Untouched efs (· ∈ h'.blocks) h.dev h'.dev
  bytes : h.Padded → (∀ b ∈ v, b.toNat < totalBlocks.toNat) →
    ∀ k < dataBlocks h'.size * blockSz, h'.byteAt k = h.contents.getD k 0

section

variable {h h' h₁ : Held} {owned v : List UInt32} {newSize : UInt32}

/-- The blocks somebody has are behind the data bitmap, and so never the super block, an inode
or a bitmap. -/
theorem Blocks.Inv.le_of_mem {s : Blocks} (hinv : s.Inv totalBlocks efs) {b : UInt32}
    (hb : b ∈ s.owned) : efs.dataAreaStartBlock.toNat ≤ b.toNat := by
  obtain ⟨bit, -, heq⟩ := hinv.range b hb
  omega

/-- The blocks the loop has allocated are given to `DiskInode::increase_size`, and the file is
then enlarged by them. -/
theorem Enlarged.of_grown (hfit : Fits efs) (hb : Blocks.Inv totalBlocks efs ⟨h.dev, owned⟩)
    (hsub : ∀ b ∈ h.blocks, b ∈ owned) (hcall : GrowCall h₁ newSize v)
    (hinode : h₁.inode = h.inode)
    (hb₁ : Blocks.Inv totalBlocks efs ⟨h₁.dev, v.reverse ++ owned⟩)
    (hdev : Untouched efs (fun _ => False) h.dev h₁.dev) (hg : Grown h₁ newSize v h') :
    Enlarged totalBlocks efs h owned newSize.toNat v h' := by
  have hsame : h.Same h₁ := .of_dev hinode fun b hmem =>
    hdev _ (.inr (hb.le_of_mem (hsub b hmem))) fun _ h => h.elim
  have hfresh : ∀ b ∈ v, b ∉ owned := by
    intro b hbv hbo
    exact (List.nodup_append.mp hb₁.nodup).2.2 b (List.mem_reverse.mpr hbv) b hbo rfl
  have hblocks : h'.blocks = h.blocks ∪ v.toFinset := by rw [hg.blocks_eq hcall, hsame.blocks]
  have hmem : ∀ b ∈ h'.blocks, b ∈ v.reverse ++ owned := by
    intro b hbm
    rw [hblocks, Finset.mem_union, List.mem_toFinset] at hbm
    rw [List.mem_append, List.mem_reverse]
    exact hbm.symm.imp id (hsub b)
  have hframe : ∀ n, (∀ b ∈ h'.blocks, b.toNat ≠ n) → h'.dev n = h₁.dev n := by
    intro n hn
    exact hg.frame n fun x hx _ => hn _ (Held.blockAt_mem hx)
  have hsize : h'.size = newSize.toNat := congrArg UInt32.toNat hg.size
  have hle : h.size ≤ newSize.toNat := by
    rw [← hsame.size]
    exact UInt32.le_iff_toNat_le.mp hcall.size_le
  refine ⟨by omega, hg.sound hcall, hblocks, ⟨v.reverse ++ owned, ?_, fun b => ?_⟩, hfresh,
    fun n hn hne => ?_, fun hpad hreal k hk => ?_⟩
  · refine hb₁.write (fun bit hbit => hframe _ fun b hbm => ?_) (fun n hn hne => hframe _ ?_)
    · have := hfit.blockOf_lt hbit
      have := hb₁.le_of_mem (hmem b hbm)
      omega
    · exact fun b hbm => hne b (hmem b hbm)
  · rw [List.mem_append, List.mem_reverse]
  · rw [hframe n hne]
    exact hdev n hn fun _ h => h.elim
  · have hzero : ∀ b ∈ v, h₁.dev b.toNat = fun _ => 0 := by
      intro b hbv
      have hle := hb₁.le_of_mem (List.mem_append_left _ (List.mem_reverse.mpr hbv))
      rw [hdev _ (.inr hle) fun _ h => h.elim]
      refine hb.zero _ hle (hreal b hbv) fun b' hb' heq => hfresh b hbv ?_
      rwa [← UInt32.toNat_inj.mp heq]
    rw [hg.byteAt_eq hcall (hsame.padded hpad) hzero hk, hsame.contents]

/-- **`Inode::increase_size`.** It succeeds if and only if there are enough free bits. -/
theorem increaseSize_cases (hspec : AllocSpec alloc) (hgrow : GrowSpec grow) (hfit : Fits efs)
    (a : Arith) (hb : Blocks.Inv totalBlocks efs ⟨h.dev, owned⟩) (hsound : h.Sound)
    (hsub : ∀ b ∈ h.blocks, b ∈ owned) (hroom : newSize.toNat ≤ indirect2Bound * blockSz) :
    ((efs.dataBitmap.free h.dev).card + h.nodes.card < (tree (dataBlocks newSize.toNat)).card ∧
      ∃ e h', Inode.increaseSize alloc grow a efs newSize h = .error e h') ∨
    ((tree (dataBlocks newSize.toNat)).card ≤ (efs.dataBitmap.free h.dev).card + h.nodes.card ∧
      ∃ v h', Inode.increaseSize alloc grow a efs newSize h = .ok () h' ∧
        Enlarged totalBlocks efs h owned newSize.toNat v h') := by
  rcases UInt32.lt_or_le h.inode.size newSize with hlt | hle
  · obtain ⟨old, new, needed, -, -, hneeded, hold, hnew, hdiff⟩ :=
      blocksNumNeeded_eq a (UInt32.le_of_lt hlt) (Nat.lt_of_le_of_lt
        (Nat.add_le_add_right hroom _) (by decide : indirect2Bound * blockSz + blockSz < 2 ^ 32))
    change old.toNat = h.nodes.card at hold
    rw [increaseSize_eq a efs hlt hneeded]
    rcases Nat.lt_or_ge (efs.dataBitmap.free h.dev).card needed.toNat with hfew | henough
    · obtain ⟨e, h', herr, -⟩ := allocLoop_eq_error a efs hspec hfew []
      exact .inl ⟨by omega, e, h', run_bind_error herr⟩
    · obtain ⟨v, h₁, hloop⟩ := allocLoop_eq_ok a efs hspec hfit.lt henough []
      obtain ⟨v, rfl, hlen, hinode, hb₁, hdev⟩ := allocLoop_inv hspec hfit hb hloop
      have hsame : h.Same h₁ := .of_dev hinode fun b hmem =>
        hdev _ (.inr (hb.le_of_mem (hsub b hmem))) fun _ h => h.elim
      have hnodup := List.nodup_append.mp hb₁.nodup
      have hcall : GrowCall h₁ newSize v := by
        refine ⟨hsame.sound hsound, ?_, hroom, List.nodup_reverse.mp hnodup.1, fun b hbv hbm => ?_,
          ?_⟩
        · rw [hinode]
          exact UInt32.le_of_lt hlt
        · rw [hsame.blocks] at hbm
          exact hnodup.2.2 b (List.mem_reverse.mpr hbv) b (hsub b hbm) rfl
        · rw [Held.nodes, hsame.size]
          change _ + h.nodes.card = _
          omega
      obtain ⟨h', hok, hg⟩ := hgrow h₁ newSize v hcall
      refine .inr ⟨by omega, v, h', ?_, .of_grown hfit hb hsub hcall hinode hb₁ hdev hg⟩
      rw [run_bind_ok hloop]
      exact hok
  · have hle' := UInt32.le_iff_toNat_le.mp hle
    have hcard := Finset.card_le_card (tree_mono (dataBlocks_mono hle'))
    change _ ≤ h.nodes.card at hcard
    refine .inr ⟨by omega, [], h, increaseSize_of_le a efs hle, (Nat.max_eq_left hle').symm, hsound,
      by simp, ⟨owned, hb, by simp⟩, by simp, Untouched.refl _ _ _, fun hpad _ k hk => ?_⟩
    exact hpad.byteAt_eq hk

end

end TinyOS.EasyFs
