import TinyOS.Lib.Region

/-!
# Loading applications

`load_apps` of `phase_2_proc/src/loader.rs`. The images are embedded in the kernel; the table at
`_num_app` says where. The loop zero-fills one slot after the other and copies an image into each,
as long as the table says it is.

Nothing keeps an image inside its slot. What a byte is in the end is decided by the last application
that writes it (`loadApps_of_lastWriter`), so an image that is too long loses its end to the next
slots; `loadApps_loaded_iff` says when nothing is lost.
-/

namespace TinyOS.Loader

/-- `MAX_APP_NUM`, the number of slots in memory and of applications there can be. -/
def maxAppNum : Nat := 4

/-- `APP_BASE_ADDRESS`, where the first slot is; the others follow it without a gap. -/
def appBaseAddress : Nat := 0x80400000

/-- `APP_SIZE_LIMIT`, the size of a slot in bytes, which `load_apps` zeroes but does not check. -/
def appSizeLimit : Nat := 0x20000

/-- `get_base_i`: where the slot of application `i` is. -/
def getBaseI (i : Nat) : Nat := appBaseAddress + i * appSizeLimit

/-- What application `i` writes, if its image has length `len`: its slot and its image. -/
def reach (i len : Nat) : Region := ⟨getBaseI i, max appSizeLimit len⟩

/-- The table at `_num_app`. The images lie outside what `load_apps` writes. -/
structure AppTable where
  numApp : Nat
  appStart : Nat → Nat
  numApp_le : numApp ≤ maxAppNum
  ascending : ∀ i < numApp, appStart i ≤ appStart (i + 1)
  separate : ∀ i < numApp, ∀ a, appStart i ≤ a → a < appStart (i + 1) →
    ∀ j < numApp, a ∉ (reach j (appStart (j + 1) - appStart j)).places

/-- Physical memory, a byte for each address, with the kernel image and the slots in it. -/
abbrev Mem := Nat → UInt8

/-- `fill(0)` of the slice of `len` bytes at `base`. -/
def zeroFill (base len : Nat) (mem : Mem) : Mem := fun a =>
  if base ≤ a ∧ a < base + len then 0 else mem a

/-- `copy_from_slice` of the `len` bytes at `src` to `dst`, where both slices have this length. -/
def copyFromSlice (src dst len : Nat) (mem : Mem) : Mem := fun a =>
  if dst ≤ a ∧ a < dst + len then mem (src + (a - dst)) else mem a

namespace AppTable

variable (t : AppTable)

/-- The length of an image, the distance to the start of the next one. -/
def len (i : Nat) : Nat := t.appStart (i + 1) - t.appStart i

/-- One iteration of `load_apps`: the slot is zeroed, and then the image is copied to its start. -/
def loadApp (mem : Mem) (i : Nat) : Mem :=
  let base := getBaseI i
  let mem := zeroFill base appSizeLimit mem
  copyFromSlice (t.appStart i) base (t.len i) mem

/-- `load_apps`: all the images, in the order of the table. -/
def loadApps (mem : Mem) : Mem := (List.range t.numApp).foldl t.loadApp mem

/-- The addresses application `i` writes while it is loaded. -/
def writes (i : Nat) : Set Nat := (reach i (t.len i)).places

/-- What application `i` writes to `a`: a byte of its image or, behind it, zero. -/
def put (mem : Mem) (i a : Nat) : UInt8 :=
  if a < getBaseI i + t.len i then mem (t.appStart i + (a - getBaseI i)) else 0

/-- Application `i` is the last one that writes to `a`. -/
def LastWriter (a i : Nat) : Prop :=
  i < t.numApp ∧ a ∈ t.writes i ∧ ∀ j, i < j → j < t.numApp → a ∉ t.writes j

/-- Application `i` is in memory: its image, and zeros in the rest of its slot. -/
def Loaded (mem mem' : Mem) (i : Nat) : Prop :=
  (∀ k < t.len i, mem' (getBaseI i + k) = mem (t.appStart i + k)) ∧
    ∀ k, t.len i ≤ k → k < appSizeLimit → mem' (getBaseI i + k) = 0

variable {t} {mem : Mem} {i j k a : Nat}

/-- An application writes its slot, and as much behind it as its image is longer. -/
theorem mem_writes :
    a ∈ t.writes i ↔ getBaseI i ≤ a ∧ a < getBaseI i + max appSizeLimit (t.len i) := Iff.rfl

/-- A place of an image or of its slot is written: the slot is zeroed, and the image copied. -/
theorem add_mem_writes : getBaseI i + k ∈ t.writes i ↔ k < appSizeLimit ∨ k < t.len i := by
  rw [mem_writes]
  omega

/-- The slot of an application ends where the slots of the later ones begin, or before. -/
theorem getBaseI_succ_le (h : i < j) : getBaseI i + appSizeLimit ≤ getBaseI j := by
  rw [getBaseI, getBaseI, appSizeLimit]
  omega

/-! ## The last writer -/

/-- An iteration changes nothing at the addresses its application does not write. -/
theorem loadApp_of_not_mem (h : a ∉ t.writes i) : t.loadApp mem i a = mem a := by
  rw [mem_writes] at h
  rw [loadApp, copyFromSlice, if_neg (by omega), zeroFill, if_neg (by omega)]

/-- Where the image is still as `mem₀` has it, an iteration writes that. -/
theorem loadApp_of_mem {mem₀ : Mem} (h : a ∈ t.writes i)
    (hsrc : ∀ k < t.len i, mem (t.appStart i + k) = mem₀ (t.appStart i + k))
    (hkeep : ∀ k < t.len i, t.appStart i + k ∉ t.writes i) :
    t.loadApp mem i a = t.put mem₀ i a := by
  rw [mem_writes] at h
  rw [put]
  split
  · rename_i hlt
    have hk : a - getBaseI i < t.len i := by omega
    have hout := hkeep _ hk
    rw [mem_writes] at hout
    rw [loadApp, copyFromSlice, if_pos ⟨h.1, hlt⟩, zeroFill, if_neg (by omega), hsrc _ hk]
  · rw [loadApp, copyFromSlice, if_neg (by omega), zeroFill, if_pos (by omega)]

/-- No application writes to an image, so that all images are copied as they were. -/
theorem source_not_mem (hi : i < t.numApp) (hk : k < t.len i) (hj : j < t.numApp) :
    t.appStart i + k ∉ t.writes j := by
  have := t.ascending i hi
  have hlen : t.len i = t.appStart (i + 1) - t.appStart i := rfl
  exact t.separate i hi _ (Nat.le_add_right _ _) (by omega) j hj

/-- The loop leaves alone what none of its iterations writes. -/
theorem foldl_loadApp_of_not_mem {n : Nat} (h : ∀ i < n, a ∉ t.writes i) :
    (List.range n).foldl t.loadApp mem a = mem a := by
  induction n with
  | zero => rfl
  | succ n ih =>
    rw [List.range_succ, List.foldl_append, List.foldl_cons, List.foldl_nil,
      loadApp_of_not_mem (h n (Nat.lt_succ_self n))]
    exact ih fun i hi => h i (Nat.lt_succ_of_lt hi)

/-- **The last writer wins**: an address holds what the last application that writes to it puts
there. -/
theorem loadApps_of_lastWriter (h : t.LastWriter a i) : t.loadApps mem a = t.put mem i a := by
  obtain ⟨hi, hmem, hlast⟩ := h
  -- after the iterations up to the one of `i`, no later one writes to `a`
  suffices ∀ n, i < n → n ≤ t.numApp → (List.range n).foldl t.loadApp mem a = t.put mem i a from
    this _ hi (Nat.le_refl _)
  intro n hin hn
  induction n with
  | zero => exact absurd hin (Nat.not_lt_zero i)
  | succ n ih =>
    rw [List.range_succ, List.foldl_append, List.foldl_cons, List.foldl_nil]
    rcases Nat.lt_or_eq_of_le (Nat.le_of_lt_succ hin) with hlt | rfl
    · rw [loadApp_of_not_mem (hlast n hlt hn)]
      exact ih hlt (Nat.le_of_succ_le hn)
    · refine loadApp_of_mem hmem (fun k hk => ?_) fun k hk => source_not_mem hi hk hi
      exact foldl_loadApp_of_not_mem fun j hj => source_not_mem hi hk (Nat.lt_trans hj hi)

/-- Every address that is written has a last writer: application `i` itself or one of the later
ones. -/
theorem exists_lastWriter (hi : i < t.numApp) (h : a ∈ t.writes i) :
    ∃ j, i ≤ j ∧ t.LastWriter a j := by
  classical
  obtain ⟨j, hj, hmax⟩ := Finset.exists_max_image
    ((Finset.range t.numApp).filter fun j => a ∈ t.writes j) id
    ⟨i, Finset.mem_filter.mpr ⟨Finset.mem_range.mpr hi, h⟩⟩
  rw [Finset.mem_filter, Finset.mem_range] at hj
  refine ⟨j, hmax i (Finset.mem_filter.mpr ⟨Finset.mem_range.mpr hi, h⟩), hj.1, hj.2,
    fun l hjl hl hmem => ?_⟩
  exact absurd (hmax l (Finset.mem_filter.mpr ⟨Finset.mem_range.mpr hl, hmem⟩))
    (Nat.not_le_of_lt hjl)

/-! ## Images that are too long -/

/-- Later applications write behind the slot of an earlier one. -/
theorem LastWriter.le_of_lt (h : t.LastWriter (getBaseI i + k) j) (hij : i < j) :
    appSizeLimit ≤ k := by
  have hslot := getBaseI_succ_le hij
  have hmem := mem_writes.mp h.2.1
  omega

/-- What the application itself puts at a byte of its image. -/
theorem put_self (h : k < t.len i) : t.put mem i (getBaseI i + k) = mem (t.appStart i + k) := by
  rw [put, if_pos (Nat.add_lt_add_left h _), Nat.add_sub_cancel_left]

/-- The bytes that an image shares with later applications are the ones these put there. -/
def Agrees (t : AppTable) (mem : Mem) : Prop :=
  ∀ i < t.numApp, ∀ k < t.len i, ∀ j, i < j → t.LastWriter (getBaseI i + k) j →
    t.put mem j (getBaseI i + k) = mem (t.appStart i + k)

/-- **When every application is in memory**, for given images: where a later one writes over it,
it writes the same bytes. -/
theorem loaded_iff_agrees :
    (∀ i < t.numApp, t.Loaded mem (t.loadApps mem) i) ↔ t.Agrees mem := by
  constructor
  · intro h i hi k hk j hij hlast
    rw [← loadApps_of_lastWriter hlast]
    exact (h i hi).1 k hk
  · intro h i hi
    constructor
    · intro k hk
      obtain ⟨j, hij, hlast⟩ := exists_lastWriter hi (add_mem_writes.mpr (.inr hk))
      rw [loadApps_of_lastWriter hlast]
      rcases Nat.lt_or_eq_of_le hij with hlt | rfl
      · exact h i hi k hk j hlt hlast
      · exact put_self hk
    · intro k hlen hlimit
      obtain ⟨j, hij, hlast⟩ := exists_lastWriter hi (add_mem_writes.mpr (.inl hlimit))
      rw [loadApps_of_lastWriter hlast]
      rcases Nat.lt_or_eq_of_le hij with hlt | rfl
      · exact absurd (hlast.le_of_lt hlt) (Nat.not_le_of_lt hlimit)
      · rw [put, if_neg (by omega)]

/-- The images lie in the order of the table, each one behind those before it. -/
theorem appStart_le {n : Nat} (hij : i ≤ j) (hj : j ≤ n) (hn : n ≤ t.numApp) :
    t.appStart i ≤ t.appStart j := by
  induction j, hij using Nat.le_induction with
  | base => exact Nat.le_refl _
  | succ j _ ih => exact Nat.le_trans (ih (by omega)) (t.ascending j (by omega))

/-- An image that is too long and not the last one loses the byte behind its slot, if that is the
only one that is not zero. -/
theorem not_agrees (hi : i + 1 < t.numApp) (h : appSizeLimit < t.len i) :
    ¬ t.Agrees fun a => if a = t.appStart i + appSizeLimit then 1 else 0 := by
  intro hagree
  have hlen : t.len i = t.appStart (i + 1) - t.appStart i := rfl
  have hnext : getBaseI i + appSizeLimit = getBaseI (i + 1) := by
    rw [getBaseI, getBaseI, appSizeLimit]
    omega
  have hmem : getBaseI i + appSizeLimit ∈ t.writes (i + 1) := by
    have hpos : 0 < appSizeLimit := by decide
    rw [mem_writes, hnext]
    omega
  obtain ⟨j, hij, hlast⟩ := exists_lastWriter hi hmem
  have hbyte := hagree i (Nat.lt_of_succ_lt hi) appSizeLimit h j hij hlast
  dsimp only at hbyte
  rw [if_pos rfl, put] at hbyte
  split at hbyte
  · -- the images of later applications lie behind this one
    have hstart := appStart_le hij (Nat.le_of_lt hlast.1) (Nat.le_refl _)
    rw [if_neg (by omega)] at hbyte
    cases hbyte
  · cases hbyte

/-- **Which applications are loaded.** For given images, every application is in memory after
`load_apps` if and only if later applications put the bytes there that the images have beyond their
slots. For a given table, that is so for any images if and only if no image but the last one is
longer than a slot. -/
theorem loadApps_loaded_iff (t : AppTable) :
    (∀ mem, (∀ i < t.numApp, t.Loaded mem (t.loadApps mem) i) ↔ t.Agrees mem) ∧
    ((∀ mem, ∀ i < t.numApp, t.Loaded mem (t.loadApps mem) i) ↔
      ∀ i, i + 1 < t.numApp → t.len i ≤ appSizeLimit) := by
  refine ⟨fun mem => loaded_iff_agrees, ?_, ?_⟩
  · intro h i hi
    by_contra hlen
    exact not_agrees hi (Nat.lt_of_not_le hlen) (loaded_iff_agrees.mp (h _))
  · intro h mem
    refine loaded_iff_agrees.mpr fun i _ k hk j hij hlast => ?_
    have hle := hlast.le_of_lt hij
    have hlen := h i (Nat.lt_of_le_of_lt hij hlast.1)
    omega

/-- Two images, the first one a byte longer than its slot. -/
def tooLong : AppTable where
  numApp := 2
  appStart
    | 0 => 0x80200000
    | 1 => 0x80220001
    | _ => 0x80220011
  numApp_le := by decide
  ascending := by decide
  separate i hi a _ ha j _ hmem := by
    have hlt : a < appBaseAddress := by
      refine Nat.lt_of_lt_of_le ha ?_
      rcases i with _ | _ | i
      · decide
      · decide
      · omega
    exact Nat.not_le_of_lt hlt (Nat.le_trans (Nat.le_add_right _ _) hmem.1)

/-- The second application erases the last byte of the first image. -/
theorem tooLong_not_loaded : ∃ mem, ¬ tooLong.Loaded mem (tooLong.loadApps mem) 0 := by
  refine ⟨fun a => if a = 0x80220000 then 1 else 0, fun h => ?_⟩
  have hlast : tooLong.LastWriter (getBaseI 1) 1 :=
    ⟨by decide, mem_writes.mpr (by decide), fun j h₁ h₂ => absurd (Nat.lt_of_lt_of_le h₁
      (Nat.le_of_lt_succ h₂)) (Nat.lt_irrefl 1)⟩
  have hbyte := (loadApps_of_lastWriter hlast).symm.trans (h.1 appSizeLimit (by decide))
  exact absurd hbyte (by decide)

end AppTable

end TinyOS.Loader
