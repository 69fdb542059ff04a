import TinyOS.EasyFs.Layout

/-!
# The blocks of a file

An inode addresses 28 data blocks directly, the next 128 through the block `indirect1` and the
others through `indirect2`, whose entries are blocks of 128 addresses each. `tree n` is the set of
the blocks on the ways to the first `n` data blocks. `DiskInode::total_blocks` computes its size
(`easy-fs/src/layout.rs`), so a file that grows in steps asks for as many blocks as one that grows
at once (`totalBlocks_tree`).
-/

namespace TinyOS.EasyFs

/-- A block of a file: a data block by its number, one of the two indirect blocks, or an entry of
the second one. -/
inductive Node where
  | data (i : Nat)
  | indirect1
  | indirect2
  | leaf (g : Nat)
  deriving DecidableEq

/-- The blocks on the way from the inode to data block `i`. -/
def way (i : Nat) : List Node :=
  if i < directBound then [.data i]
  else if i < indirect1Bound then [.indirect1, .data i]
  else [.indirect2, .leaf ((i - indirect1Bound) / inodeIndirect1Count), .data i]

/-- A block is on the way to data block `i`. -/
def Node.On (i : Nat) : Node → Prop
  | .data j => j = i
  | .indirect1 => directBound ≤ i ∧ i < indirect1Bound
  | .indirect2 => indirect1Bound ≤ i
  | .leaf g => indirect1Bound ≤ i ∧ (i - indirect1Bound) / inodeIndirect1Count = g

/-- The blocks of a file with `n` data blocks: all that are on the way to one of these. -/
def tree (n : Nat) : Finset Node := (Finset.range n).biUnion fun i => (way i).toFinset

section

variable {n m i : Nat}

/-- A place is in the tree of a file if it is on the way to one of its data blocks. -/
theorem mem_tree {x : Node} : x ∈ tree n ↔ ∃ i < n, x ∈ way i := by
  simp only [tree, Finset.mem_biUnion, Finset.mem_range, List.mem_toFinset]

/-- A file with more data blocks has all the places of a smaller one. -/
theorem tree_mono (h : n ≤ m) : tree n ⊆ tree m := by
  intro x hx
  obtain ⟨i, hi, hway⟩ := mem_tree.mp hx
  exact mem_tree.mpr ⟨i, Nat.lt_of_lt_of_le hi h, hway⟩

/-- Whether a place is on the way to a data block can be read off its number. -/
theorem mem_way {x : Node} : x ∈ way i ↔ x.On i := by
  have hle : directBound ≤ indirect1Bound := by decide
  rw [way]
  cases x with
  | data j =>
    rw [Node.On]
    split
    · simp
    · split <;> simp
  | indirect1 =>
    rw [Node.On]
    split
    · simp; omega
    · split <;> simp <;> omega
  | indirect2 =>
    rw [Node.On]
    split
    · simp; omega
    · split <;> simp <;> omega
  | leaf g =>
    rw [Node.On]
    split
    · simp; omega
    · split
      · simp; omega
      · simp [eq_comm]; omega

/-! ## The size of the tree -/

/-- How many entries of the second indirect block are in use. -/
def leaves (n : Nat) : Nat := (n - indirect1Bound + inodeIndirect1Count - 1) / inodeIndirect1Count

/-- The data blocks of the tree are those with a number below the count. -/
theorem data_mem_tree {j : Nat} : .data j ∈ tree n ↔ j < n := by
  simp [mem_tree, mem_way, Node.On]

/-- A file has the first indirect block once its direct entries do not suffice. -/
theorem indirect1_mem_tree : .indirect1 ∈ tree n ↔ directBound < n := by
  have hlt : directBound < indirect1Bound := by decide
  simp only [mem_tree, mem_way, Node.On]
  constructor
  · rintro ⟨i, hi, hle, -⟩
    omega
  · exact fun h => ⟨directBound, h, Nat.le_refl _, hlt⟩

/-- A file has the second indirect block once the first one is full as well. -/
theorem indirect2_mem_tree : .indirect2 ∈ tree n ↔ indirect1Bound < n := by
  simp only [mem_tree, mem_way, Node.On]
  constructor
  · rintro ⟨i, hi, hle⟩
    omega
  · exact fun h => ⟨indirect1Bound, h, Nat.le_refl _⟩

/-- The first data block of leaf `g` is one of the file's. -/
theorem leaf_mem_tree {g : Nat} : .leaf g ∈ tree n ↔ g < leaves n := by
  have hcount : inodeIndirect1Count = 128 := rfl
  simp only [mem_tree, mem_way, Node.On, leaves, hcount]
  constructor
  · rintro ⟨i, hi, hle, rfl⟩
    omega
  · intro h
    refine ⟨indirect1Bound + 128 * g, by omega, by omega, ?_⟩
    rw [Nat.add_sub_cancel_left, Nat.mul_div_cancel_left _ (by decide)]

/-- The tree by the kinds of its blocks: the data blocks, and the indirect ones from the sizes
on that need them. -/
theorem tree_eq (n : Nat) : tree n =
    (Finset.range n).image .data ∪ ((if directBound < n then {.indirect1} else ∅) ∪
      ((if indirect1Bound < n then {.indirect2} else ∅) ∪
        (Finset.range (leaves n)).image .leaf)) := by
  ext x
  cases x with
  | data j => rw [data_mem_tree]; split_ifs <;> simp
  | indirect1 => rw [indirect1_mem_tree]; split_ifs <;> simp [*]
  | indirect2 => rw [indirect2_mem_tree]; split_ifs <;> simp [*]
  | leaf g => rw [leaf_mem_tree]; split_ifs <;> simp

/-- **The number of blocks** of a file with `n` data blocks. -/
theorem card_tree (n : Nat) : (tree n).card =
    n + (if directBound < n then 1 else 0) + (if indirect1Bound < n then 1 else 0) +
      leaves n := by
  have hdata : Function.Injective Node.data := fun _ _ h => Node.data.inj h
  have hleaf : Function.Injective Node.leaf := fun _ _ h => Node.leaf.inj h
  rw [tree_eq, Finset.card_union_of_disjoint, Finset.card_union_of_disjoint,
    Finset.card_union_of_disjoint, Finset.card_image_of_injective _ hdata,
    Finset.card_image_of_injective _ hleaf, Finset.card_range, Finset.card_range]
  · split_ifs <;> simp <;> omega
  all_goals
    refine Finset.disjoint_left.mpr fun x hx => ?_
    split_ifs at hx ⊢ <;> cases x <;> simp at hx ⊢

end

/-! ## Counting -/

/-- The data blocks of a file of some size in bytes, the last of which need not be full. -/
def dataBlocks (size : Nat) : Nat := (size + blockSz - 1) / blockSz

/-- What `blocks_num_needed` asks for in all when a file grows through a list of sizes. -/
def neededAlong (a : Arith) (di : DiskInode) : List UInt32 → Except Panic Nat
  | [] => .ok 0
  | newSize :: sizes => do
    let needed ← di.blocksNumNeeded a newSize
    let rest ← neededAlong a { di with size := newSize } sizes
    return needed.toNat + rest

section

variable (a : Arith) {size size' : UInt32} {di : DiskInode}

/-- Rounding up is exact as long as the sum is a `u32`. -/
theorem dataBlocksOf_eq (h : size.toNat + blockSz < 2 ^ 32) :
    ∃ n, DiskInode.dataBlocksOf a size = .ok n ∧ n.toNat = dataBlocks size.toNat := by
  have hsz : (UInt32.ofNat blockSz).toNat = 512 := rfl
  rw [blockSz] at h
  obtain ⟨u, hu⟩ := exists_toNat_eq h
  obtain ⟨v, hv⟩ := exists_toNat_eq (show size.toNat + 511 < 2 ^ 32 by omega)
  refine ⟨v / .ofNat blockSz, ?_, ?_⟩
  · simp only [DiskInode.dataBlocksOf, bind_eq_ok]
    refine ⟨u, a.add_eq_ok (by omega), v, a.sub_eq_ok ?_, rfl⟩
    rw [hu, hv]
    rfl
  · rw [UInt32.toNat_div, hv, hsz, dataBlocks, blockSz]
    omega

/-- A file with more bytes needs no fewer data blocks. -/
theorem dataBlocks_mono {m n : Nat} (h : m ≤ n) : dataBlocks m ≤ dataBlocks n :=
  Nat.div_le_div_right (Nat.sub_le_sub_right (Nat.add_le_add_right h _) _)

/-- A file whose size is a `u32` has fewer than `2 ^ 24` blocks. -/
theorem card_tree_lt (h : size.toNat + blockSz < 2 ^ 32) :
    (tree (dataBlocks size.toNat)).card < 2 ^ 24 := by
  have hcount : inodeIndirect1Count = 128 := rfl
  have hle : dataBlocks size.toNat ≤ 2 ^ 23 := by
    rw [dataBlocks]
    rw [blockSz] at h ⊢
    omega
  rw [card_tree, leaves, hcount]
  split_ifs <;> omega

/-- **`total_blocks` is the size of the tree**, as long as rounding up does not overflow. -/
theorem totalBlocks_eq (h : size.toNat + blockSz < 2 ^ 32) :
    ∃ total, DiskInode.totalBlocks a size = .ok total ∧
      total.toNat = (tree (dataBlocks size.toNat)).card := by
  obtain ⟨n, hok, hn⟩ := dataBlocksOf_eq a h
  have hcount : inodeIndirect1Count = 128 := rfl
  obtain ⟨total, htotal⟩ := exists_toNat_eq (Nat.lt_trans (card_tree_lt h) (by decide))
  refine ⟨total, ?_, htotal⟩
  rw [DiskInode.totalBlocks, hok]
  refine a.asU32_eq_ok (htotal.trans ?_)
  rw [card_tree, leaves, ← hn]
  have hd : inodeDirectCount = directBound := rfl
  simp only [hd, hcount, gt_iff_lt]
  split_ifs <;> omega

/-- **`blocks_num_needed`** does not underflow: it is the difference of the two trees. -/
theorem blocksNumNeeded_eq (hle : di.size ≤ size) (h : size.toNat + blockSz < 2 ^ 32) :
    ∃ old new needed, DiskInode.totalBlocks a di.size = .ok old ∧
      DiskInode.totalBlocks a size = .ok new ∧ di.blocksNumNeeded a size = .ok needed ∧
      old.toNat = (tree (dataBlocks di.size.toNat)).card ∧
      new.toNat = (tree (dataBlocks size.toNat)).card ∧ new.toNat = needed.toNat + old.toNat := by
  have hlen := UInt32.le_iff_toNat_le.mp hle
  obtain ⟨new, hnew, hn⟩ := totalBlocks_eq a h
  obtain ⟨old, hold, ho⟩ := totalBlocks_eq a
    (show di.size.toNat + blockSz < 2 ^ 32 from Nat.lt_of_le_of_lt (by omega) h)
  have hcard := Finset.card_le_card (tree_mono (dataBlocks_mono hlen))
  have hlt := new.toNat_lt
  obtain ⟨needed, hneeded⟩ := exists_toNat_eq (show new.toNat - old.toNat < 2 ^ 32 by omega)
  refine ⟨old, new, needed, hold, hnew, ?_, ho, hn, by omega⟩
  rw [DiskInode.blocksNumNeeded, if_pos hle]
  simp only [bind_eq_ok]
  exact ⟨new, hnew, old, hold, a.sub_eq_ok (by omega)⟩

/-- Growing in steps asks for as many blocks as the two trees differ in. -/
theorem neededAlong_eq {sizes : List UInt32} (hsorted : (di.size :: sizes).Pairwise (· ≤ ·))
    (h : ∀ size ∈ sizes, size.toNat + blockSz < 2 ^ 32) :
    ∃ needed, neededAlong a di sizes = .ok needed ∧
      needed + (tree (dataBlocks di.size.toNat)).card =
        (tree (dataBlocks (sizes.getLastD di.size).toNat)).card := by
  induction sizes generalizing di with
  | nil => exact ⟨0, rfl, Nat.zero_add _⟩
  | cons newSize sizes ih =>
    obtain ⟨hle, hrest⟩ := List.pairwise_cons.mp hsorted
    obtain ⟨old, new, n, -, -, hn, ho, hnew, hdiff⟩ :=
      blocksNumNeeded_eq a (hle newSize List.mem_cons_self) (h newSize List.mem_cons_self)
    obtain ⟨r, hr, hsum⟩ := @ih { di with size := newSize } hrest
      fun size hsize => h size (List.mem_cons_of_mem _ hsize)
    refine ⟨n.toNat + r, ?_, ?_⟩
    · simp only [neededAlong, bind_eq_ok]
      exact ⟨n, hn, r, hr, rfl⟩
    · dsimp only at hsum
      rw [List.getLastD_cons, ← hsum]
      omega

/-- An entry of the second indirect block is one of 128, as long as the tree has room for the
file. -/
theorem leaf_lt {n g : Nat} (h : n ≤ indirect2Bound) (hg : .leaf g ∈ tree n) :
    g < inodeIndirect1Count := by
  have hb1 : indirect1Bound = 156 := rfl
  have hb2 : indirect2Bound = 16540 := rfl
  have hcount : inodeIndirect1Count = 128 := rfl
  rw [leaf_mem_tree, leaves, hcount] at hg
  omega

/-- **Block accounting.** The tree of `n` data blocks has, of each kind, the blocks on the way to
some data block. Up to the largest file the inode can address, `total_blocks` is the number of
blocks of the tree, whose leaves are entries of one indirect block. It is monotone and the
subtraction in `blocks_num_needed` does not underflow, and a file that grows through any list of
sizes asks for as many blocks in all as one that grows at once. This holds in every build and as
long as `_data_blocks` can add a block to the size. -/
theorem totalBlocks_tree :
    (∀ n x, x ∈ tree n ↔ ∃ i < n, x.On i) ∧
    (∀ size : UInt32, size.toNat ≤ indirect2Bound * blockSz →
      (∃ total, DiskInode.totalBlocks a size = .ok total ∧
        total.toNat = (tree (dataBlocks size.toNat)).card) ∧
      ∀ g, .leaf g ∈ tree (dataBlocks size.toNat) → g < inodeIndirect1Count) ∧
    (∀ size size' : UInt32, size ≤ size' → size'.toNat + blockSz < 2 ^ 32 →
      ∃ total total', DiskInode.totalBlocks a size = .ok total ∧
        DiskInode.totalBlocks a size' = .ok total' ∧ total ≤ total') ∧
    (∀ (di : DiskInode) (newSize : UInt32), di.size ≤ newSize → newSize.toNat + blockSz < 2 ^ 32 →
      ∃ old new needed, DiskInode.totalBlocks a di.size = .ok old ∧
        DiskInode.totalBlocks a newSize = .ok new ∧ di.blocksNumNeeded a newSize = .ok needed ∧
        new.toNat = needed.toNat + old.toNat) ∧
    ∀ (di : DiskInode) (sizes : List UInt32), (di.size :: sizes).Pairwise (· ≤ ·) →
      (∀ size ∈ di.size :: sizes, size.toNat + blockSz < 2 ^ 32) →
      ∃ first last needed, DiskInode.totalBlocks a di.size = .ok first ∧
        DiskInode.totalBlocks a (sizes.getLastD di.size) = .ok last ∧
        di.blocksNumNeeded a (sizes.getLastD di.size) = .ok needed ∧
        neededAlong a di sizes = .ok (last.toNat - first.toNat) ∧
        needed.toNat = last.toNat - first.toNat := by
  refine ⟨fun n x => ?_, fun size hsize => ⟨?_, fun g hg => ?_⟩, fun size size' hle hlt => ?_,
    fun di newSize hle hlt => ?_, fun di sizes hsorted hlt => ?_⟩
  · simp only [mem_tree, mem_way]
  · exact totalBlocks_eq a (Nat.lt_of_le_of_lt (Nat.add_le_add_right hsize _) (by decide))
  · refine leaf_lt ?_ hg
    rw [dataBlocks]
    rw [blockSz] at hsize ⊢
    omega
  · obtain ⟨old, new, _, hold, hnew, -, -, -, hdiff⟩ :=
      @blocksNumNeeded_eq a size' ⟨size, fun _ => 0, 0, 0, .file⟩ hle hlt
    exact ⟨old, new, hold, hnew, UInt32.le_iff_toNat_le.mpr (by omega)⟩
  · obtain ⟨old, new, needed, hold, hnew, hneeded, -, -, hdiff⟩ := blocksNumNeeded_eq a hle hlt
    exact ⟨old, new, needed, hold, hnew, hneeded, hdiff⟩
  · have hmem : sizes.getLastD di.size ∈ di.size :: sizes := List.getLastD_mem_cons
    have hle : di.size ≤ sizes.getLastD di.size := by
      rcases List.mem_cons.mp hmem with heq | hin
      · exact UInt32.le_of_eq heq.symm
      · exact (List.pairwise_cons.mp hsorted).1 _ hin
    obtain ⟨first, last, needed, hfirst, hlast, hneeded, ho, hn, hdiff⟩ :=
      blocksNumNeeded_eq a hle (hlt _ hmem)
    obtain ⟨n, halong, hsum⟩ := neededAlong_eq a hsorted
      fun size hsize => hlt size (List.mem_cons_of_mem _ hsize)
    refine ⟨first, last, needed, hfirst, hlast, hneeded, ?_, by omega⟩
    rw [halong]
    exact congrArg Except.ok (by omega)

/-- A file that grows to 28, 29 and 157 blocks, over the bounds of the direct and of the first
indirect blocks, asks for the 160 blocks of the last tree. -/
theorem totalBlocks_tree_over_bounds :
    ∃ last needed, DiskInode.totalBlocks .debug 80384 = .ok last ∧ last = 160 ∧
      DiskInode.blocksNumNeeded .debug ⟨0, fun _ => 0, 0, 0, .file⟩ 80384 = .ok needed ∧
      neededAlong .debug ⟨0, fun _ => 0, 0, 0, .file⟩ [14336, 14848, 80384] = .ok 160 ∧
      needed.toNat = 160 := by
  obtain ⟨first, last, needed, hfirst, hlast, hneeded, halong, hdiff⟩ :=
    (totalBlocks_tree .debug).2.2.2.2 ⟨0, fun _ => 0, 0, 0, .file⟩ [14336, 14848, 80384]
      (by decide) (by simp [blockSz])
  have h0 : DiskInode.totalBlocks .debug 0 = .ok 0 := by decide
  have h160 : DiskInode.totalBlocks .debug 80384 = .ok 160 := by decide
  obtain rfl := Except.ok.inj (hfirst.symm.trans h0)
  simp only [List.getLastD_cons, List.getLastD_nil] at hlast hneeded
  obtain rfl := Except.ok.inj (hlast.symm.trans h160)
  exact ⟨160, needed, hlast, rfl, hneeded, halong, hdiff⟩

end

end TinyOS.EasyFs
