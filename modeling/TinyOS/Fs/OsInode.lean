import TinyOS.EasyFs.Files

/-!
# Reading a whole file

`OSInode::read_all` (`src/fs/inode.rs`), with which `sys_exec` is to load programs: it reads into a
buffer of 512 bytes until nothing is read any more. `run_readAll` says that this ends, after any
history of the file system, with the bytes from the cursor on.
-/

namespace TinyOS

open EasyFs

section

variable (read : Nat → Nat → Held → List UInt8)

/-- `struct OSInode`: an open file, what it was opened for and its cursor, on an inode. -/
structure OSInode where
  readable : Bool
  writable : Bool
  offset : Nat
  inode : Inode
  deriving DecidableEq

namespace OSInode

/-- `OSInode::new`: an open file with its cursor at the start. -/
def new (readable writable : Bool) (inode : Inode) : OSInode := ⟨readable, writable, 0, inode⟩

/-- The loop of `read_all`: the cursor and what has been read. `none` if it has not ended after
`fuel` reads. -/
def readAllLoop (dev : Store) : Nat → OSInode → List UInt8 →
    Option (Except Panic (OSInode × List UInt8))
  | 0, _, _ => none
  | fuel + 1, inner, out =>
    match inner.inode.readAt read inner.offset 512 dev with
    | .error e => some (.error e)
    | .ok buffer =>
      if buffer.length = 0 then some (.ok (inner, out))
      else
        readAllLoop dev fuel { inner with offset := inner.offset + buffer.length } (out ++ buffer)

/-- `OSInode::read_all`: the bytes from the cursor on, read in pieces of 512 bytes. -/
def readAll (dev : Store) (fuel : Nat) (file : OSInode) :
    Option (Except Panic (OSInode × List UInt8)) := readAllLoop read dev fuel file []

end OSInode

end

variable {read : Nat → Nat → Held → List UInt8} {dev : Store}

/-- **The loop** over a file with the bytes `bytes` ends, one read after the last byte. -/
theorem OSInode.readAllLoop_eq {bytes : List UInt8} {file : OSInode}
    (hread : ∀ offset, file.inode.readAt read offset 512 dev =
      .ok ((bytes.drop offset).take 512)) {fuel : Nat} (out : List UInt8)
    (hfuel : (bytes.length - file.offset + 511) / 512 < fuel) :
    readAllLoop read dev fuel file out =
      some (.ok ({ file with offset := max file.offset bytes.length },
        out ++ bytes.drop file.offset)) := by
  induction fuel generalizing file out with
  | zero => exact absurd hfuel (Nat.not_lt_zero _)
  | succ fuel ih =>
    have hlen : ((bytes.drop file.offset).take 512).length =
        min 512 (bytes.length - file.offset) := by
      rw [List.length_take, List.length_drop]
    rw [readAllLoop, hread]
    dsimp only
    rw [hlen]
    split
    · -- the end of the file
      have hle : bytes.length ≤ file.offset := by omega
      rw [max_eq_left hle, List.drop_eq_nil_of_le hle, List.append_nil]
    · have hlt : file.offset < bytes.length := by omega
      have hmax : max (file.offset + min 512 (bytes.length - file.offset)) bytes.length =
          max file.offset bytes.length := by omega
      have hrest : (bytes.drop file.offset).take 512 ++
          bytes.drop (file.offset + min 512 (bytes.length - file.offset)) =
            bytes.drop file.offset := by
        rw [List.take_eq_take_min, List.length_drop, ← List.drop_drop, List.take_append_drop]
      rw [@ih { file with offset := file.offset + min 512 (bytes.length - file.offset) } hread _
        (by dsimp only; omega)]
      dsimp only
      rw [hmax, List.append_assoc, hrest]

/-- **A file is read to its end.** After any history of a formatted device, `read_all` returns what
the file has from the cursor on, and leaves the cursor at the end. -/
theorem OSInode.run_readAll {alloc : Bitmap → Store → Option Nat × Store}
    {dealloc : Bitmap → Store → Nat → Except Panic Store}
    {grow : UInt32 → List UInt32 → EStateM Panic Held Unit}
    {clearSize : EStateM Panic Held (List UInt32)}
    {write : Nat → List UInt8 → EStateM Panic Held Nat} {a : Arith}
    {totalBlocks inodeBitmapBlocks : UInt32} {sizes : Sizes} {efs : EasyFileSystem}
    {s s' : Files} {tr : List Files.Event} {id : UInt32} {file : OSInode}
    (hspec : AllocSpec alloc) (hdspec : DeallocSpec dealloc) (hgrow : GrowSpec grow)
    (hclear : ClearSpec clearSize) (hwrite : WriteSpec write) (hread : ReadSpec read)
    (hlayout : layout .exact totalBlocks inodeBitmapBlocks = .ok (sizes, efs))
    (hI : 1 ≤ inodeBitmapBlocks.toNat) (hI' : inodeBitmapBlocks.toNat ≤ 2 ^ 20)
    (hroom : totalBlocks.toNat + 4096 ≤ 2 ^ 32)
    (h₀ : (Files.system alloc dealloc grow clearSize write a efs totalBlocks
      inodeBitmapBlocks).init s)
    (hrun : (Files.system alloc dealloc grow clearSize write a efs totalBlocks
      inodeBitmapBlocks).Run s tr s')
    (hid : id ∈ s'.inodes) (hreal : (efs.held s'.dev id).Real totalBlocks)
    (hfile : file.inode = efs.inodeAt id) {fuel : Nat}
    (hfuel : ((Files.files tr id).length - file.offset + 511) / 512 < fuel) :
    file.readAll read s'.dev fuel =
      some (.ok ({ file with offset := max file.offset (Files.files tr id).length },
        (Files.files tr id).drop file.offset)) := by
  have hinv := Files.inv_of_run hspec hdspec hgrow hclear hwrite (laid_of_layout hlayout) hI hI'
    hroom h₀ hrun
  refine readAllLoop_eq (fun offset => ?_) [] hfuel
  rw [hfile]
  exact hinv.readAt_eq hread hid hreal offset 512

/-- A file of three bytes, read with a new `OSInode`. -/
theorem OSInode.run_readAll_three : ∃ s s' id, Files.smallFiles.init s ∧
    Files.smallFiles.Run s [.create id, .write id 2 [7]] s' ∧
      (OSInode.new true false (Files.smallEfs.inodeAt id)).readAll readBytes s'.dev 2 =
        some (.ok (⟨true, false, 3, Files.smallEfs.inodeAt id⟩, [0, 0, 7])) := by
  obtain ⟨s, s', id, h₀, hrun, hid, hreal⟩ := Files.exists_run_small
  have hfile : Files.files [.create id, .write id 2 [7]] id = [0, 0, 7] := by
    simp [Files.files, Files.after, Overwrite.overwrite]
  have hfuel : ((Files.files [.create id, .write id 2 [7]] id).length - 0 + 511) / 512 < 2 := by
    rw [hfile]
    decide
  have hall : (OSInode.new true false (Files.smallEfs.inodeAt id)).readAll readBytes s'.dev 2 = _ :=
    run_readAll Bitmap.allocFirst_spec Bitmap.deallocBit_spec growTree_spec clearTree_spec
      writeBytes_spec readBytes_spec Files.layout_small (by decide) (by decide) (by decide) h₀ hrun
      hid hreal rfl hfuel
  rw [hfile] at hall
  exact ⟨s, s', id, h₀, hrun, hall⟩

end TinyOS
