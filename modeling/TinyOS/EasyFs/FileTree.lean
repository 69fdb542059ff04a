import TinyOS.EasyFs.Vfs
import TinyOS.Lib.Overwrite

/-!
# The blocks and the bytes of a file

Where the blocks of a file are: `Held.blockAt` follows the inode and its indirect blocks as the
comment of `DiskInode::get_block_id` describes (`easy-fs/src/layout.rs`), and `Held.byteAt` reads
the file's bytes there. `increase_size`, `clear_size`, `read_at` and `write_at` of `DiskInode` are
exercises; `GrowSpec`, `ClearSpec`, `ReadSpec` and `WriteSpec` state what their comments require.

A file is `Sound` if no block occurs twice in its tree. Then what is written to a data block is in
no indirect block, and what is written to an indirect block is in no data block, so the file keeps
its tree when it is written and its bytes when it grows.
-/

namespace TinyOS.EasyFs

/-- Entry `i` of an `IndirectBlock`, an array of 128 `u32`. -/
def entry (b : Block) (i : Nat) : UInt32 := Bytes.le32 (Bytes.Codec.view b (4 * i))

/-- A place holds bytes of the file, and not the numbers of other blocks. -/
def Node.isData : Node → Bool
  | .data _ => true
  | .indirect1 | .indirect2 | .leaf _ => false

/-! ## Where the blocks are -/

namespace Held

/-- The number of the block at a place of the tree. -/
def blockAt (s : Held) : Node → UInt32
  | .indirect1 => s.inode.indirect1
  | .indirect2 => s.inode.indirect2
  | .leaf g => entry (s.dev s.inode.indirect2.toNat) g
  | .data i =>
    if h : i < inodeDirectCount then s.inode.direct ⟨i, h⟩
    else if i < indirect1Bound then
      entry (s.dev s.inode.indirect1.toNat) (i - directBound)
    else
      let leaf :=
        entry (s.dev s.inode.indirect2.toNat) ((i - indirect1Bound) / inodeIndirect1Count)
      entry (s.dev leaf.toNat) ((i - indirect1Bound) % inodeIndirect1Count)

/-- The size of the file in bytes, as its inode has it. -/
def size (s : Held) : Nat := s.inode.size.toNat

/-- The places of the file's tree, as many as its size needs. -/
def nodes (s : Held) : Finset Node := tree (dataBlocks s.size)

/-- The blocks of the file, data blocks and indirect blocks. -/
def blocks (s : Held) : Finset UInt32 := s.nodes.image s.blockAt

/-- Byte `k` of the file, or of the rest of its last block. -/
def byteAt (s : Held) (k : Nat) : UInt8 :=
  s.dev (s.blockAt (.data (k / blockSz))).toNat ⟨k % blockSz, Nat.mod_lt _ (by decide)⟩

/-- The bytes of the file, in order: what `read_at` is to return of it. -/
def contents (s : Held) : List UInt8 := (List.range s.size).map s.byteAt

/-- The tree has room for the file, and no block is in it twice. -/
structure Sound (s : Held) : Prop where
  size : s.size ≤ indirect2Bound * blockSz
  inj : Set.InjOn s.blockAt s.nodes

/-- The rest of the last block is zero, so that a file that grows reads as zeros where nothing
was written. -/
def Padded (s : Held) : Prop :=
  ∀ k, s.size ≤ k → k < dataBlocks s.size * blockSz → s.byteAt k = 0

end Held

variable {s s' : Held} {x : Node} {k : Nat}

/-- A block belongs to a file if it is the block at some place of the file's tree. -/
theorem Held.mem_blocks {b : UInt32} : b ∈ s.blocks ↔ ∃ x ∈ s.nodes, s.blockAt x = b :=
  Finset.mem_image

/-- The block at a place of the file's tree is one of the file's blocks. -/
theorem Held.blockAt_mem (h : x ∈ s.nodes) : s.blockAt x ∈ s.blocks := Finset.mem_image_of_mem _ h

/-- A file has as many bytes as the size in its inode says. -/
@[simp] theorem Held.length_contents (s : Held) : s.contents.length = s.size := by
  rw [Held.contents, List.length_map, List.length_range]

/-- A byte within the file's size is the byte its data block has there. -/
theorem Held.getD_contents (hk : k < s.size) : s.contents.getD k 0 = s.byteAt k := by
  rw [Held.contents, List.getD_eq_getElem _ _ (by simpa using hk), List.getElem_map,
    List.getElem_range]

/-- Every byte of a file is in one of its data blocks. -/
theorem lt_dataBlocks {size : Nat} (hk : k < size) : k < dataBlocks size * blockSz := by
  rw [dataBlocks, blockSz]
  omega

/-- A byte before the end of the last data block lies in one of the data blocks. -/
theorem div_lt_dataBlocks {n : Nat} (hk : k < n * blockSz) : k / blockSz < n :=
  Nat.div_lt_of_lt_mul (by rwa [Nat.mul_comm])

/-- The data block of a byte before the end of the last one is a place of the file's tree. -/
theorem Held.data_mem_nodes (hk : k < dataBlocks s.size * blockSz) :
    .data (k / blockSz) ∈ s.nodes := data_mem_tree.mpr (div_lt_dataBlocks hk)

/-- The way to a place of the tree is in the tree. -/
theorem mem_tree_of_leaf {n g : Nat} (h : .leaf g ∈ tree n) : .indirect2 ∈ tree n := by
  obtain ⟨i, hi, hon⟩ := mem_tree.mp h
  exact mem_tree.mpr ⟨i, hi, mem_way.mpr (mem_way.mp hon).1⟩

/-- With a data block the tree has the indirect blocks on the way to it. -/
theorem mem_tree_of_data {n i : Nat} (h : .data i ∈ tree n) :
    (directBound ≤ i → i < indirect1Bound → .indirect1 ∈ tree n) ∧
      (indirect1Bound ≤ i → .indirect2 ∈ tree n ∧
        .leaf ((i - indirect1Bound) / inodeIndirect1Count) ∈ tree n) := by
  have hi := data_mem_tree.mp h
  refine ⟨fun hle hlt => ?_, fun hle => ⟨?_, ?_⟩⟩
  · exact mem_tree.mpr ⟨i, hi, mem_way.mpr ⟨hle, hlt⟩⟩
  · exact mem_tree.mpr ⟨i, hi, mem_way.mpr hle⟩
  · exact mem_tree.mpr ⟨i, hi, mem_way.mpr ⟨hle, rfl⟩⟩

/-- **The tree is in the indirect blocks.** If they stay as they are, all blocks stay where they
are. -/
theorem Held.blockAt_congr (hinode : s'.inode = s.inode)
    (hdev : ∀ x ∈ s.nodes, x.isData = false →
      s'.dev (s.blockAt x).toNat = s.dev (s.blockAt x).toNat) :
    ∀ x ∈ s.nodes, s'.blockAt x = s.blockAt x := by
  have hleaf : ∀ g, .leaf g ∈ s.nodes → s'.blockAt (.leaf g) = s.blockAt (.leaf g) := by
    intro g hg
    have hdev₂ := hdev .indirect2 (mem_tree_of_leaf hg) rfl
    simp only [blockAt] at hdev₂ ⊢
    rw [hinode, hdev₂]
  intro x hx
  cases x with
  | indirect1 | indirect2 => simp only [blockAt, hinode]
  | leaf g => exact hleaf g hx
  | data i =>
    obtain ⟨hway₁, hway₂⟩ := mem_tree_of_data hx
    simp only [blockAt]
    rw [hinode]
    split
    · rfl
    · rename_i hi
      have hi' : directBound ≤ i := Nat.le_of_not_lt hi
      split
      · rename_i hlt
        have hdev₁ := hdev .indirect1 (hway₁ hi' hlt) rfl
        simp only [blockAt] at hdev₁
        rw [hdev₁]
      · rename_i hge
        obtain ⟨-, hmem⟩ := hway₂ (Nat.le_of_not_lt hge)
        have heq := hleaf _ hmem
        have hdev₃ := hdev _ hmem rfl
        simp only [blockAt] at heq hdev₃
        rw [hinode] at heq
        rw [heq, hdev₃]

/-- The same size and the same blocks in the tree: one file is as sound as the other. -/
theorem Held.sound_congr (hsize : s'.size = s.size)
    (hat : ∀ x ∈ s.nodes, s'.blockAt x = s.blockAt x) (h : s.Sound) : s'.Sound := by
  have hnodes : s'.nodes = s.nodes := by rw [nodes, hsize, nodes]
  refine ⟨hsize ▸ h.size, ?_⟩
  rw [hnodes]
  exact (Set.EqOn.injOn_iff fun x hx => hat x hx).mpr h.inj

/-- The same size and the same blocks in the tree: the two files have the same blocks. -/
theorem Held.blocks_congr (hsize : s'.size = s.size)
    (hat : ∀ x ∈ s.nodes, s'.blockAt x = s.blockAt x) : s'.blocks = s.blocks := by
  rw [blocks, blocks, nodes, hsize]
  exact Finset.image_congr fun x hx => hat x hx

/-- Nothing that can be seen of a file differs: its size, its blocks and its bytes are the same. -/
structure Held.Same (s s' : Held) : Prop where
  size : s'.size = s.size
  sound : s.Sound → s'.Sound
  blocks : s'.blocks = s.blocks
  contents : s'.contents = s.contents
  padded : s.Padded → s'.Padded

/-- **A file that nobody touches.** If its inode and its blocks stay as they are, so do its tree and
its bytes. -/
theorem Held.Same.of_dev (hinode : s'.inode = s.inode)
    (hdev : ∀ b ∈ s.blocks, s'.dev b.toNat = s.dev b.toNat) : s.Same s' := by
  have hsize : s'.size = s.size := congrArg (·.size.toNat) hinode
  have hat := Held.blockAt_congr hinode fun x hx _ => hdev _ (Held.blockAt_mem hx)
  have hbyte : ∀ k < dataBlocks s.size * blockSz, s'.byteAt k = s.byteAt k := by
    intro k hk
    have hmem := Held.data_mem_nodes hk
    rw [Held.byteAt, Held.byteAt, hat _ hmem, hdev _ (Held.blockAt_mem hmem)]
  refine ⟨hsize, Held.sound_congr hsize hat, Held.blocks_congr hsize hat, ?_,
    fun hpad k hle hlt => ?_⟩
  · rw [Held.contents, Held.contents, hsize]
    exact List.map_congr_left fun k hk => hbyte k (lt_dataBlocks (List.mem_range.mp hk))
  · rw [hsize] at hle hlt
    rw [hbyte k hlt]
    exact hpad k hle hlt

/-- A file without bytes has no blocks, is sound and has nothing to pad. -/
theorem Held.of_size_eq_zero (h : s.size = 0) :
    s.nodes = ∅ ∧ s.Sound ∧ s.blocks = ∅ ∧ s.contents = [] ∧ s.Padded := by
  have hnodes : s.nodes = ∅ := by rw [nodes, h]; rfl
  refine ⟨hnodes, ⟨by omega, ?_⟩, ?_, ?_, fun k _ hk => ?_⟩
  · rw [hnodes, Finset.coe_empty]
    exact Set.injOn_empty _
  · rw [blocks, hnodes, Finset.image_empty]
  · rw [contents, h]
    rfl
  · rw [h] at hk
    exact absurd hk (Nat.not_lt_zero _)

/-! ## What the exercises are to do -/

/-- `DiskInode::increase_size` with the new blocks `v`: the tree grows, keeps the blocks it has and
takes those of `v`. Only indirect blocks are written. -/
structure Grown (s : Held) (newSize : UInt32) (v : List UInt32) (s' : Held) : Prop where
  size : s'.inode.size = newSize
  kept : ∀ x ∈ s.nodes, s'.blockAt x = s.blockAt x
  consumed : ∀ b ∈ v, ∃ x ∈ s'.nodes, x ∉ s.nodes ∧ s'.blockAt x = b
  frame : ∀ n, (∀ x ∈ s'.nodes, x.isData = false → (s'.blockAt x).toNat ≠ n) →
    s'.dev n = s.dev n

/-- The call `Inode::increase_size` makes, with as many new blocks as the tree needs. -/
structure GrowCall (s : Held) (newSize : UInt32) (v : List UInt32) : Prop where
  sound : s.Sound
  size_le : s.inode.size ≤ newSize
  room : newSize.toNat ≤ indirect2Bound * blockSz
  nodup : v.Nodup
  fresh : ∀ b ∈ v, b ∉ s.blocks
  length : v.length + s.nodes.card = (tree (dataBlocks newSize.toNat)).card

/-- What the exercise `DiskInode::increase_size` is to do: called as `Inode::increase_size`
calls it, it succeeds and grows the tree. -/
def GrowSpec (grow : UInt32 → List UInt32 → EStateM Panic Held Unit) : Prop :=
  ∀ s newSize v, GrowCall s newSize v → ∃ s', grow newSize v s = .ok () s' ∧ Grown s newSize v s'

/-- `DiskInode::write_at` into a file that is long enough: the bytes are written, and nothing
else. -/
structure Written (s : Held) (offset : Nat) (buf : List UInt8) (s' : Held) : Prop where
  inode : s'.inode = s.inode
  bytes : ∀ k < dataBlocks s.size * blockSz,
    s'.dev (s.blockAt (.data (k / blockSz))).toNat ⟨k % blockSz, Nat.mod_lt _ (by decide)⟩ =
      if offset ≤ k ∧ k < offset + buf.length then buf.getD (k - offset) 0 else s.byteAt k
  frame : ∀ n, (∀ i < dataBlocks s.size, (s.blockAt (.data i)).toNat ≠ n) → s'.dev n = s.dev n

/-- What the exercise `DiskInode::write_at` is to do within the size of a sound file: it
succeeds and writes all bytes. -/
def WriteSpec (write : Nat → List UInt8 → EStateM Panic Held Nat) : Prop :=
  ∀ s offset buf, s.Sound → offset + buf.length ≤ s.size →
    ∃ s', write offset buf s = .ok buf.length s' ∧ Written s offset buf s'

/-- `DiskInode::clear_size` returns all blocks of the file and empties it. -/
structure Cleared (s : Held) (freed : List UInt32) (s' : Held) : Prop where
  size : s'.inode.size = 0
  dev : s'.dev = s.dev
  nodup : freed.Nodup
  mem : ∀ b, b ∈ freed ↔ b ∈ s.blocks

/-- What the exercise `DiskInode::clear_size` is to do: it succeeds, and returns the blocks of
the file. -/
def ClearSpec (clearSize : EStateM Panic Held (List UInt32)) : Prop :=
  ∀ s, s.Sound → ∃ freed s', clearSize s = .ok freed s' ∧ Cleared s freed s'

/-- `DiskInode::read_at`, with the bytes it puts into a buffer of length `len`: those from `offset`
on up to the end of the file. -/
def ReadSpec (read : Nat → Nat → Held → List UInt8) : Prop :=
  ∀ s offset len, s.Sound → read offset len s = (s.contents.drop offset).take len

/-! ## Growing -/

section

variable {newSize : UInt32} {v : List UInt32} {offset : Nat} {buf : List UInt8}

/-- A file that grows keeps the places of its tree, since its size does not get smaller. -/
theorem Grown.nodes_subset (h : Grown s newSize v s') (hcall : GrowCall s newSize v) :
    s.nodes ⊆ s'.nodes := by
  refine tree_mono (dataBlocks_mono ?_)
  rw [Held.size, Held.size, h.size]
  exact UInt32.le_iff_toNat_le.mp hcall.size_le

/-- The new places have the new blocks, one each: as many were handed over as the larger tree
needs. -/
theorem Grown.image_new (h : Grown s newSize v s') (hcall : GrowCall s newSize v) :
    (s'.nodes \ s.nodes).image s'.blockAt = v.toFinset ∧
      Set.InjOn s'.blockAt ((s'.nodes \ s.nodes : Finset Node) : Set Node) := by
  have hcard : (s'.nodes \ s.nodes).card = v.toFinset.card := by
    have hlen : v.length + s.nodes.card = s'.nodes.card := by
      rw [hcall.length, Held.nodes.eq_def s', Held.size, h.size]
    rw [Finset.card_sdiff_of_subset (h.nodes_subset hcall),
      List.toFinset_card_of_nodup hcall.nodup, ← hlen, Nat.add_sub_cancel]
  have hsub : v.toFinset ⊆ (s'.nodes \ s.nodes).image s'.blockAt := by
    intro b hb
    obtain ⟨x, hx, hnew, rfl⟩ := h.consumed b (List.mem_toFinset.mp hb)
    exact Finset.mem_image_of_mem _ (Finset.mem_sdiff.mpr ⟨hx, hnew⟩)
  have heq := Finset.eq_of_subset_of_card_le hsub (hcard ▸ Finset.card_image_le)
  refine ⟨heq.symm, Finset.card_image_iff.mp ?_⟩
  rw [← heq, hcard]

/-- A place the file has got with its new size holds one of the new blocks. -/
theorem Grown.blockAt_mem_new (h : Grown s newSize v s') (hcall : GrowCall s newSize v)
    (hx : x ∈ s'.nodes) (hnew : x ∉ s.nodes) : s'.blockAt x ∈ v := by
  rw [← List.mem_toFinset, ← (h.image_new hcall).1]
  exact Finset.mem_image_of_mem _ (Finset.mem_sdiff.mpr ⟨hx, hnew⟩)

/-- A file that has grown has the blocks it had before and the new ones. -/
theorem Grown.blocks_eq (h : Grown s newSize v s') (hcall : GrowCall s newSize v) :
    s'.blocks = s.blocks ∪ v.toFinset := by
  have hold : s.nodes.image s'.blockAt = s.blocks := Finset.image_congr fun x hx => h.kept x hx
  rw [Held.blocks, ← Finset.union_sdiff_of_subset (h.nodes_subset hcall), Finset.image_union, hold,
    (h.image_new hcall).1]

/-- A file that has grown is sound again: the new blocks are distinct, and none of them was the
file's before. -/
theorem Grown.sound (h : Grown s newSize v s') (hcall : GrowCall s newSize v) : s'.Sound := by
  refine ⟨?_, fun x hx y hy heq => ?_⟩
  · rw [Held.size, h.size]
    exact hcall.room
  · have hmixed : ∀ x ∈ s.nodes, ∀ y ∈ s'.nodes, y ∉ s.nodes → s'.blockAt x ≠ s'.blockAt y := by
      intro x hx y hy hnew heq
      refine hcall.fresh _ (h.blockAt_mem_new hcall hy hnew) ?_
      rw [← heq, h.kept x hx]
      exact Held.blockAt_mem hx
    by_cases hxo : x ∈ s.nodes <;> by_cases hyo : y ∈ s.nodes
    · rw [h.kept x hxo, h.kept y hyo] at heq
      exact hcall.sound.inj hxo hyo heq
    · exact absurd heq (hmixed x hxo y hy hyo)
    · exact absurd heq.symm (hmixed y hyo x hx hxo)
    · exact (h.image_new hcall).2 (Finset.mem_sdiff.mpr ⟨hx, hxo⟩)
        (Finset.mem_sdiff.mpr ⟨hy, hyo⟩) heq

/-- A data block is none of the indirect blocks, so that writing bytes of the file does not
change the tree. -/
theorem Held.Sound.data_ne (h : s.Sound) (hx : x ∈ s.nodes) (hdata : x.isData = true) {y : Node}
    (hy : y ∈ s.nodes) (hy' : y.isData = false) : (s.blockAt y).toNat ≠ (s.blockAt x).toNat := by
  intro heq
  rw [h.inj hy hx (UInt32.toNat_inj.mp heq), hdata] at hy'
  cases hy'

/-- The bytes a file has after it has grown are those of its blocks before. -/
theorem Grown.byteAt (h : Grown s newSize v s') (hcall : GrowCall s newSize v)
    (hk : k < dataBlocks s'.size * blockSz) :
    s'.byteAt k = s.dev (s'.blockAt (.data (k / blockSz))).toNat
      ⟨k % blockSz, Nat.mod_lt _ (by decide)⟩ := by
  rw [Held.byteAt, h.frame]
  exact fun y hy hy' => (h.sound hcall).data_ne (Held.data_mem_nodes hk) rfl hy hy'

/-- A file that grows keeps its bytes, up to the end of the last block it had before. -/
theorem Grown.byteAt_old (h : Grown s newSize v s') (hcall : GrowCall s newSize v)
    (hk : k < dataBlocks s.size * blockSz) : s'.byteAt k = s.byteAt k := by
  have hmem := Held.data_mem_nodes hk
  have hlt := div_lt_dataBlocks hk
  have hk' : k < dataBlocks s'.size * blockSz := by
    have := data_mem_tree.mp (h.nodes_subset hcall hmem)
    exact (Nat.div_lt_iff_lt_mul (by decide)).mp this
  rw [h.byteAt hcall hk', h.kept _ hmem]
  rfl

/-- In a padded file, what is behind the end is zero. -/
theorem Held.Padded.byteAt_eq (h : s.Padded) (hk : k < dataBlocks s.size * blockSz) :
    s.byteAt k = s.contents.getD k 0 := by
  rcases Nat.lt_or_ge k s.size with hlt | hge
  · exact (Held.getD_contents hlt).symm
  · rw [h k hge hk, List.getD_eq_default _ _ (by rwa [Held.length_contents])]

/-- A padded file that grows by zeroed blocks is filled up with zeros. -/
theorem Grown.byteAt_eq (h : Grown s newSize v s') (hcall : GrowCall s newSize v) (hpad : s.Padded)
    (hzero : ∀ b ∈ v, s.dev b.toNat = fun _ => 0) (hk : k < dataBlocks s'.size * blockSz) :
    s'.byteAt k = s.contents.getD k 0 := by
  rcases Nat.lt_or_ge k (dataBlocks s.size * blockSz) with hlt | hge
  · rw [h.byteAt_old hcall hlt, hpad.byteAt_eq hlt]
  · have hnew : .data (k / blockSz) ∉ s.nodes := by
      intro hmem
      have := (Nat.div_lt_iff_lt_mul (by decide)).mp (data_mem_tree.mp hmem)
      omega
    have hge' : s.size ≤ k := by
      by_contra hlt
      exact absurd (lt_dataBlocks (Nat.lt_of_not_le hlt)) (Nat.not_lt.mpr hge)
    rw [h.byteAt hcall hk, hzero _ (h.blockAt_mem_new hcall (Held.data_mem_nodes hk) hnew),
      List.getD_eq_default _ _ (by rwa [Held.length_contents])]

/-! ## Writing -/

/-- A write leaves the tree as it is: it changes data blocks only, and these hold no block
numbers. -/
theorem Written.blockAt (h : Written s offset buf s') (hs : s.Sound) :
    ∀ x ∈ s.nodes, s'.blockAt x = s.blockAt x := by
  refine Held.blockAt_congr h.inode fun x hx hdata => h.frame _ fun i hi => ?_
  exact (hs.data_ne (data_mem_tree.mpr hi) rfl hx hdata).symm

/-- A write within the file keeps its size: the inode is not touched. -/
theorem Written.size (h : Written s offset buf s') : s'.size = s.size :=
  congrArg (·.size.toNat) h.inode

/-- A write within a sound file leaves it sound, as the indirect blocks are not touched. -/
theorem Written.sound (h : Written s offset buf s') (hs : s.Sound) : s'.Sound :=
  Held.sound_congr h.size (h.blockAt hs) hs

/-- A write within a sound file leaves it the blocks it has. -/
theorem Written.blocks (h : Written s offset buf s') (hs : s.Sound) : s'.blocks = s.blocks :=
  Held.blocks_congr h.size (h.blockAt hs)

/-- After a write the bytes of its range are those of the buffer, and the others are as before. -/
theorem Written.byteAt (h : Written s offset buf s') (hs : s.Sound)
    (hk : k < dataBlocks s.size * blockSz) : s'.byteAt k =
      if offset ≤ k ∧ k < offset + buf.length then buf.getD (k - offset) 0 else s.byteAt k := by
  rw [Held.byteAt, h.blockAt hs _ (Held.data_mem_nodes hk), h.bytes k hk]

/-- **What a write does to the bytes** of a file that has been filled up to the end of the write. -/
theorem Written.contents_eq {bytes : List UInt8} (h : Written s offset buf s') (hs : s.Sound)
    (hsize : s.size = max bytes.length (offset + buf.length))
    (hbytes : ∀ k < dataBlocks s.size * blockSz, s.byteAt k = bytes.getD k 0) :
    s'.contents = Overwrite.overwrite 0 bytes offset buf ∧ s'.Padded := by
  have hsize' := h.size
  refine ⟨Overwrite.ext_getD 0 ?_ fun k hk => ?_, fun k hk hlt => ?_⟩
  · rw [Held.length_contents, Overwrite.length_overwrite, hsize', hsize]
  · rw [Held.length_contents, hsize'] at hk
    have hlt := lt_dataBlocks hk
    rw [Held.getD_contents (hsize'.symm ▸ hk), h.byteAt hs hlt, hbytes k hlt,
      Overwrite.getD_overwrite]
  · rw [hsize'] at hk hlt
    rw [h.byteAt hs hlt, if_neg (by omega), hbytes k hlt, List.getD_eq_default _ _ (by omega)]

end

end TinyOS.EasyFs
