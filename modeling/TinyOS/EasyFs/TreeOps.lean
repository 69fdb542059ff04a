import TinyOS.EasyFs.FileTree

/-!
# One way to do the exercises

`increase_size`, `clear_size`, `read_at` and `write_at` of `DiskInode` that meet what is required of
them (`growTree_spec`, `clearTree_spec`, `readBytes_spec`, `writeBytes_spec`), so that the results
about files are about something. The places of the tree that are new get the new blocks in the order
of `places`, and the indirect blocks are written from the whole assignment at once (`Held.plant`).
-/

namespace TinyOS.EasyFs

/-- An indirect block with the given entries, four bytes each in the little endian order. -/
def indirectBlock (f : Nat → UInt32) : Block := fun i => Bytes.byte32 (f (i / 4)) (i % 4)

/-- The entries of an indirect block are the ones it was made of. -/
theorem entry_indirectBlock (f : Nat → UInt32) {i : Nat} (hi : i < inodeIndirect1Count) :
    entry (indirectBlock f) i = f i := by
  have hi' : i < 128 := hi
  rw [entry, ← Bytes.le32_byte32 (f i)]
  refine Bytes.le32_congr fun k hk => ?_
  have hlt : 4 * i + k < blockSz := by
    rw [blockSz]
    omega
  have hdiv : (4 * i + k) / 4 = i := by omega
  have hmod : (4 * i + k) % 4 = k := by omega
  rw [Bytes.Codec.view, dif_pos hlt, indirectBlock]
  dsimp only
  rw [hdiv, hmod]

/-- The first of the numbers below `n` with a given image. -/
theorem find?_range_of_inj {n j : Nat} {f : Nat → UInt32}
    (hinj : ∀ i < n, f i = f j → i = j) (hj : j < n) :
    (List.range n).find? (fun i => (f i).toNat == (f j).toNat) = some j := by
  rw [List.find?_range_eq_some]
  refine ⟨beq_self_eq_true _, List.mem_range.mpr hj, fun i hi => ?_⟩
  rw [Bool.not_eq_true', beq_eq_false_iff_ne]
  intro heq
  exact absurd (hinj i (Nat.lt_trans hi hj) (UInt32.toNat_inj.mp heq)) hi.ne

/-! ## Planting a tree -/

/-- The places of the tree of `n` data blocks, in the order of the data blocks. -/
def places (n : Nat) : List Node := ((List.range n).flatMap way).dedup

/-- The places of a file with `n` data blocks, listed, are the places of its tree. -/
theorem mem_places {n : Nat} {x : Node} : x ∈ places n ↔ x ∈ tree n := by
  rw [places, List.mem_dedup, List.mem_flatMap, mem_tree]
  simp only [List.mem_range]

/-- No place of the tree is listed twice, so that every place gets one block and every block is
returned once. -/
theorem nodup_places (n : Nat) : (places n).Nodup := List.nodup_dedup _

/-- A file of a given size whose blocks are given by `f`. -/
def Held.plant (s : Held) (newSize : UInt32) (f : Node → UInt32) : Held where
  inode := { s.inode with
    size := newSize
    direct := fun i => f (.data i)
    indirect1 := f .indirect1
    indirect2 := f .indirect2 }
  dev b :=
    let n := dataBlocks newSize.toNat
    if directBound < n ∧ (f .indirect1).toNat = b then
      indirectBlock fun j => f (.data (directBound + j))
    else if indirect1Bound < n ∧ (f .indirect2).toNat = b then indirectBlock fun g => f (.leaf g)
    else match (List.range (leaves n)).find? fun g => (f (.leaf g)).toNat == b with
      | some g => indirectBlock fun j => f (.data (indirect1Bound + inodeIndirect1Count * g + j))
      | none => s.dev b

section

variable {s : Held} {newSize : UInt32} {f : Node → UInt32}

/-- What stands in the indirect blocks after planting: the numbers of the blocks below them. -/
theorem Held.plant_dev (hinj : Set.InjOn f (tree (dataBlocks newSize.toNat))) {x : Node}
    (hx : x ∈ tree (dataBlocks newSize.toNat)) :
    (x = .indirect1 → (s.plant newSize f).dev (f x).toNat =
      indirectBlock fun j => f (.data (directBound + j))) ∧
    (x = .indirect2 → (s.plant newSize f).dev (f x).toNat = indirectBlock fun g => f (.leaf g)) ∧
    ∀ g, x = .leaf g → (s.plant newSize f).dev (f x).toNat =
      indirectBlock fun j => f (.data (indirect1Bound + inodeIndirect1Count * g + j)) := by
  have hne : ∀ {y : Node}, y ∈ tree (dataBlocks newSize.toNat) → y ≠ x →
      (f y).toNat ≠ (f x).toNat := fun hy hyx heq => hyx (hinj hy hx (UInt32.toNat_inj.mp heq))
  refine ⟨?_, ?_, ?_⟩
  · rintro rfl
    exact if_pos ⟨indirect1_mem_tree.mp hx, rfl⟩
  · rintro rfl
    refine (if_neg fun h => ?_).trans (if_pos ⟨indirect2_mem_tree.mp hx, rfl⟩)
    exact hne (indirect1_mem_tree.mpr h.1) nofun h.2
  · rintro g rfl
    have hfind := find?_range_of_inj (f := fun g => f (.leaf g)) (j := g)
      (fun i hi heq => Node.leaf.inj (hinj (leaf_mem_tree.mpr hi) hx heq)) (leaf_mem_tree.mp hx)
    refine (if_neg fun h => ?_).trans ((if_neg fun h => ?_).trans ?_)
    · exact hne (indirect1_mem_tree.mpr h.1) nofun h.2
    · exact hne (indirect2_mem_tree.mpr h.1) nofun h.2
    · rw [hfind]

/-- **The blocks are where they were planted.** Distinct blocks do not overwrite each other's
entries. -/
theorem Held.plant_blockAt (hroom : newSize.toNat ≤ indirect2Bound * blockSz)
    (hinj : Set.InjOn f (tree (dataBlocks newSize.toNat))) {x : Node}
    (hx : x ∈ tree (dataBlocks newSize.toNat)) : (s.plant newSize f).blockAt x = f x := by
  have hcount : inodeIndirect1Count = 128 := rfl
  have hbound : directBound = 28 ∧ indirect1Bound = 156 := ⟨rfl, rfl⟩
  have hn : dataBlocks newSize.toNat ≤ indirect2Bound := by
    rw [dataBlocks]
    rw [blockSz] at hroom ⊢
    omega
  have hleaf : ∀ g, .leaf g ∈ tree (dataBlocks newSize.toNat) →
      (s.plant newSize f).blockAt (.leaf g) = f (.leaf g) := by
    intro g hg
    have hdev := (plant_dev (s := s) hinj (mem_tree_of_leaf hg)).2.1 rfl
    show entry ((s.plant newSize f).dev (f .indirect2).toNat) g = _
    rw [hdev, entry_indirectBlock _ (leaf_lt hn hg)]
  cases x with
  | indirect1 | indirect2 => rfl
  | leaf g => exact hleaf g hx
  | data i =>
    obtain ⟨hway₁, hway₂⟩ := mem_tree_of_data hx
    rw [Held.blockAt]
    split
    · rfl
    · rename_i hi
      have hi' : directBound ≤ i := Nat.le_of_not_lt hi
      split
      · rename_i hlt
        have hdev := (plant_dev (s := s) hinj (hway₁ hi' hlt)).1 rfl
        show entry ((s.plant newSize f).dev (f .indirect1).toNat) (i - directBound) = _
        rw [hdev, entry_indirectBlock _ (by omega), Nat.add_sub_cancel' hi']
      · rename_i hge
        have hge' := Nat.le_of_not_lt hge
        obtain ⟨-, hmem⟩ := hway₂ hge'
        have hdev := (plant_dev (s := s) hinj hmem).2.2 _ rfl
        have hat := hleaf _ hmem
        simp only [Held.blockAt] at hat
        dsimp only
        rw [hat, hdev, entry_indirectBlock _ (Nat.mod_lt _ (by decide)), Nat.add_assoc,
          Nat.div_add_mod, Nat.add_sub_cancel' hge']

/-- Planting writes the indirect blocks of the new tree and leaves every other block as it is. -/
theorem Held.plant_frame {n : Nat}
    (h : ∀ x ∈ tree (dataBlocks newSize.toNat), x.isData = false → (f x).toNat ≠ n) :
    (s.plant newSize f).dev n = s.dev n := by
  have hfind : (List.range (leaves (dataBlocks newSize.toNat))).find?
      (fun g => (f (.leaf g)).toNat == n) = none := by
    rw [List.find?_range_eq_none]
    intro g hg
    rw [Bool.not_eq_true', beq_eq_false_iff_ne]
    exact h _ (leaf_mem_tree.mpr hg) rfl
  refine (if_neg fun hb => ?_).trans ((if_neg fun hb => ?_).trans ?_)
  · exact h _ (indirect1_mem_tree.mpr hb.1) rfl hb.2
  · exact h _ (indirect2_mem_tree.mpr hb.1) rfl hb.2
  · rw [hfind]

end

/-! ## `increase_size` -/

/-- The places a file gets when it grows: those of the larger tree that it does not have yet. -/
def Held.newPlaces (s : Held) (newSize : UInt32) : List Node :=
  (places (dataBlocks newSize.toNat)).filter (· ∉ s.nodes)

/-- The blocks of the file after it has grown: the old places keep theirs, and the new ones get
the new blocks in turn. -/
def Held.assign (s : Held) (newSize : UInt32) (v : List UInt32) (x : Node) : UInt32 :=
  if x ∈ s.nodes then s.blockAt x else v.getD ((s.newPlaces newSize).idxOf x) 0

/-- An `increase_size` by its comment: the tree of the new size, with the old blocks where they
were. -/
def growTree (newSize : UInt32) (v : List UInt32) : EStateM Panic Held Unit := fun s =>
  .ok () (s.plant newSize (s.assign newSize v))

section

variable {s : Held} {newSize : UInt32} {v : List UInt32}

/-- The new places of a file are those of the larger tree that it does not have yet. -/
theorem Held.mem_newPlaces {x : Node} : x ∈ s.newPlaces newSize ↔
    x ∈ tree (dataBlocks newSize.toNat) ∧ x ∉ s.nodes := by
  rw [newPlaces, List.mem_filter, mem_places, decide_eq_true_iff]

/-- The tree of the new size has all places of the file's tree. -/
theorem GrowCall.nodes_subset (h : GrowCall s newSize v) :
    s.nodes ⊆ tree (dataBlocks newSize.toNat) :=
  tree_mono (dataBlocks_mono (UInt32.le_iff_toNat_le.mp h.size_le))

/-- There is a block for every new place, as `Inode::increase_size` has counted the blocks that
are missing. -/
theorem GrowCall.length_newPlaces (h : GrowCall s newSize v) :
    (s.newPlaces newSize).length = v.length := by
  have hnodup : (s.newPlaces newSize).Nodup := (nodup_places _).filter _
  have hset : (s.newPlaces newSize).toFinset = tree (dataBlocks newSize.toNat) \ s.nodes := by
    ext x
    rw [List.mem_toFinset, Held.mem_newPlaces, Finset.mem_sdiff]
  have hlen := h.length
  have hle := Finset.card_le_card h.nodes_subset
  rw [← List.toFinset_card_of_nodup hnodup, hset, Finset.card_sdiff_of_subset h.nodes_subset]
  omega

/-- A new place gets one of the new blocks, the one at its index. -/
theorem GrowCall.assign_new (h : GrowCall s newSize v) {x : Node}
    (hx : x ∈ s.newPlaces newSize) : ∃ hlt : (s.newPlaces newSize).idxOf x < v.length,
      s.assign newSize v x = v[(s.newPlaces newSize).idxOf x] := by
  have hlt : (s.newPlaces newSize).idxOf x < v.length :=
    h.length_newPlaces ▸ List.idxOf_lt_length_of_mem hx
  refine ⟨hlt, ?_⟩
  rw [Held.assign, if_neg (Held.mem_newPlaces.mp hx).2, List.getD_eq_getElem _ _ hlt]

/-- No block is given to two places of the larger tree. -/
theorem GrowCall.assign_injOn (h : GrowCall s newSize v) :
    Set.InjOn (s.assign newSize v) (tree (dataBlocks newSize.toNat)) := by
  have hmixed : ∀ x ∈ s.nodes, ∀ y ∈ s.newPlaces newSize,
      s.assign newSize v x ≠ s.assign newSize v y := by
    intro x hx y hy heq
    obtain ⟨_, hyv⟩ := h.assign_new hy
    refine h.fresh _ (List.getElem_mem ‹_›) ?_
    rw [← hyv, ← heq, Held.assign, if_pos hx]
    exact Held.blockAt_mem hx
  intro x hx y hy heq
  by_cases hxo : x ∈ s.nodes <;> by_cases hyo : y ∈ s.nodes
  · rw [Held.assign, Held.assign, if_pos hxo, if_pos hyo] at heq
    exact h.sound.inj hxo hyo heq
  · exact absurd heq (hmixed x hxo y (Held.mem_newPlaces.mpr ⟨hy, hyo⟩))
  · exact absurd heq.symm (hmixed y hyo x (Held.mem_newPlaces.mpr ⟨hx, hxo⟩))
  · have hxn := Held.mem_newPlaces.mpr ⟨hx, hxo⟩
    have hyn := Held.mem_newPlaces.mpr ⟨hy, hyo⟩
    obtain ⟨hxl, hxv⟩ := h.assign_new hxn
    obtain ⟨hyl, hyv⟩ := h.assign_new hyn
    rw [hxv, hyv, h.nodup.getElem_inj_iff] at heq
    exact (List.idxOf_inj hxn).mp heq

/-- The requirements on `increase_size` can be met, so what is proved of files that grow is not
about nothing. -/
theorem growTree_spec : GrowSpec growTree := by
  intro s newSize v h
  have hat : ∀ x ∈ tree (dataBlocks newSize.toNat),
      (s.plant newSize (s.assign newSize v)).blockAt x = s.assign newSize v x :=
    fun x hx => Held.plant_blockAt h.room h.assign_injOn hx
  refine ⟨_, rfl, rfl, fun x hx => ?_, fun b hb => ?_, fun n hn => ?_⟩
  · rw [hat x (h.nodes_subset hx), Held.assign, if_pos hx]
  · obtain ⟨j, hj, rfl⟩ := List.mem_iff_getElem.mp hb
    have hj' : j < (s.newPlaces newSize).length := h.length_newPlaces.symm ▸ hj
    have hmem := List.getElem_mem hj'
    obtain ⟨hx, hnew⟩ := Held.mem_newPlaces.mp hmem
    have hidx : (s.newPlaces newSize).idxOf (s.newPlaces newSize)[j] = j :=
      ((nodup_places _).filter _).idxOf_getElem j hj'
    refine ⟨_, hx, hnew, ?_⟩
    obtain ⟨_, hv⟩ := h.assign_new hmem
    rw [hat _ hx, hv]
    simp only [hidx]
  · refine Held.plant_frame fun x hx hdata => ?_
    rw [← hat x hx]
    exact hn x hx hdata

end

/-! ## `clear_size`, `read_at` and `write_at` -/

/-- A `clear_size` by its comment: the blocks of the tree are returned, and the inode is empty. -/
def clearTree : EStateM Panic Held (List UInt32) := fun s =>
  .ok ((places (dataBlocks s.size)).map s.blockAt)
    { s with inode := s.inode.initialise s.inode.type }

/-- The requirements on `clear_size` can be met: the tree of a sound file lists each of its
blocks once. -/
theorem clearTree_spec : ClearSpec clearTree := by
  intro s hs
  refine ⟨_, _, rfl, rfl, rfl, ?_, fun b => ?_⟩
  · exact (nodup_places _).map_on fun x hx y hy heq =>
      hs.inj (mem_places.mp hx) (mem_places.mp hy) heq
  · rw [List.mem_map, Held.mem_blocks]
    simp only [mem_places, Held.nodes]

/-- A `read_at` by its comment: the bytes from the offset on, as many as the buffer takes. -/
def readBytes (offset len : Nat) (s : Held) : List UInt8 := (s.contents.drop offset).take len

/-- The requirements on `read_at` can be met: the bytes of the file are defined as they have to
be read. -/
theorem readBytes_spec : ReadSpec readBytes := fun _ _ _ _ => rfl

/-- The device with bytes of the file replaced: the block at a place of the tree tells which
bytes it holds. -/
def Held.overlay (s : Held) (offset : Nat) (buf : List UInt8) : Held where
  inode := s.inode
  dev b i :=
    match (List.range (dataBlocks s.size)).find? fun j => (s.blockAt (.data j)).toNat == b with
    | some j =>
      let k := blockSz * j + i
      if offset ≤ k ∧ k < offset + buf.length then buf.getD (k - offset) 0 else s.dev b i
    | none => s.dev b i

/-- A `write_at` by its comment: the bytes of the buffer replace those of the file. -/
def writeBytes (offset : Nat) (buf : List UInt8) : EStateM Panic Held Nat := fun s =>
  .ok buf.length (s.overlay offset buf)

/-- The requirements on `write_at` can be met: distinct blocks of the file hold distinct ranges
of its bytes. -/
theorem writeBytes_spec : WriteSpec writeBytes := by
  intro s offset buf hs _
  refine ⟨_, rfl, rfl, fun k hk => ?_, fun n hn => ?_⟩
  · have hfind := find?_range_of_inj (f := fun j => s.blockAt (.data j)) (j := k / blockSz)
      (fun i hi heq => Node.data.inj (hs.inj (data_mem_tree.mpr hi) (Held.data_mem_nodes hk) heq))
      (div_lt_dataBlocks hk)
    simp only [Held.overlay]
    rw [hfind]
    simp only [Nat.div_add_mod]
    rfl
  · have hfind : (List.range (dataBlocks s.size)).find?
        (fun j => (s.blockAt (.data j)).toNat == n) = none := by
      rw [List.find?_range_eq_none]
      intro j hj
      rw [Bool.not_eq_true', beq_eq_false_iff_ne]
      exact hn j hj
    funext i
    simp only [Held.overlay]
    rw [hfind]

end TinyOS.EasyFs
