import TinyOS.EasyFs.Basic
import TinyOS.Lib.Utf8

/-!
# Directory entries

`DirEntry` of `easy-fs/src/layout.rs`: a field of 28 bytes for the name, padded with zeros, and the
number of an inode. The entry is `repr(C)` and goes to the disk as its 32 bytes; the name is found
again by the first zero (`copy_asBytes`). A name of more than 27 bytes is cut off, which may be
inside a character, and then nothing is read (`name_new_isTruncation_iff`).
-/

namespace TinyOS.EasyFs

open Bytes

/-- `NAME_LENGTH_LIMIT`: the bytes of a name; the field has one more, for a NUL. -/
def nameLengthLimit : Nat := 27

/-- `DIRENT_SZ`: the bytes of an entry, its name field and the number of its inode. -/
def direntSz : Nat := 32

/-- `struct DirEntry`, in its `repr(C)` layout: the bytes of the name field, then the inode
number. -/
structure DirEntry where
  nameField : Fin (nameLengthLimit + 1) → UInt8
  inodeNumber : UInt32

/-- `dst.copy_from_slice(src)`, which panics unless the two slices are of the same length. -/
def copyFromSlice (src dst : List UInt8) : Except Panic (List UInt8) :=
  if src.length = dst.length then .ok src
  else
    .error
      (.assertion "copy_from_slice: source slice length does not match destination slice length")

/-- The bytes of a `&str`, which Rust keeps encoded as UTF-8. -/
def utf8Bytes (name : String) : List UInt8 := name.toByteArray.data.toList

namespace DirEntry

/-- `DirEntry::empty`: a name field of NUL bytes and the inode number zero. -/
def empty : DirEntry := ⟨fun _ => 0, 0⟩

/-- `DirEntry::new`: the first bytes of the name, as many as fit, and NUL bytes behind them. -/
def new (name : String) (inodeNumber : UInt32) : DirEntry :=
  let n := min (utf8Bytes name).length nameLengthLimit
  ⟨fun k => if k < n then (utf8Bytes name).getD k 0 else 0, inodeNumber⟩

/-- The entry as it lies in memory: no padding before the number. -/
def asBytes (e : DirEntry) : List UInt8 :=
  List.ofFn e.nameField ++ (List.range 4).map (byte32 e.inodeNumber)

/-- The entry that has these bytes: the name field first, then a little endian inode number. -/
def ofBytes (bytes : List UInt8) : DirEntry :=
  ⟨fun k => bytes.getD k 0, le32 fun k => bytes.getD (nameLengthLimit + 1 + k) 0⟩

/-- What a function that works on `e.as_bytes_mut()` leaves in the entry, if it does not panic. -/
def asBytesMut (e : DirEntry) (f : List UInt8 → Except Panic (List UInt8)) :
    Except Panic DirEntry := do
  return ofBytes (← f e.asBytes)

/-- `DirEntry::name`: the bytes before the first NUL, decoded as UTF-8; a name that is not UTF-8
reads as empty. -/
def name (e : DirEntry) : String :=
  let bytes := List.ofFn e.nameField
  let len := (bytes.findIdx? (· == 0)).getD nameLengthLimit
  (String.fromUTF8? (bytes.take len).toByteArray).getD ""

/-! ## The bytes of an entry -/

/-- The bytes of an entry are `DIRENT_SZ` many, so that entries lie back to back in a directory. -/
theorem length_asBytes (e : DirEntry) : e.asBytes.length = direntSz := by
  rw [asBytes, List.length_append, List.length_ofFn, List.length_map, List.length_range]
  rfl

/-- An entry is determined by its bytes, so that a directory read back is the one written. -/
theorem ofBytes_asBytes (e : DirEntry) : ofBytes e.asBytes = e := by
  obtain ⟨field, number⟩ := e
  have hlen : (List.ofFn field).length = nameLengthLimit + 1 := List.length_ofFn
  rw [ofBytes, asBytes, mk.injEq]
  constructor
  · funext k
    rw [List.getD_append _ _ _ _ (by rw [hlen]; exact k.isLt), List.getD_eq_getElem?_getD,
      List.getElem?_ofFn, dif_pos k.isLt]
    rfl
  · refine (le32_congr fun k hk => ?_).trans (le32_byte32 number)
    rw [List.getD_append_right _ _ _ _ (by rw [hlen]; exact Nat.le_add_right ..), hlen,
      Nat.add_sub_cancel_left, List.getD_eq_getElem?_getD, List.getElem?_map,
      List.getElem?_range hk]
    rfl

/-- The bytes of one entry copied over another make it that entry, as both are `DIRENT_SZ` bytes
long. -/
theorem asBytesMut_copy (e e' : DirEntry) : e'.asBytesMut (copyFromSlice e.asBytes) = .ok e := by
  rw [asBytesMut, copyFromSlice, if_pos (by rw [length_asBytes, length_asBytes])]
  exact congrArg Except.ok (ofBytes_asBytes e)

/-! ## Names -/

variable {name : String} (inodeNumber : UInt32)

/-- The field holds the name as far as there is room, and then zeros. -/
theorem ofFn_nameField_new (name : String) :
    List.ofFn (new name inodeNumber).nameField = (utf8Bytes name).take nameLengthLimit ++
      List.replicate (nameLengthLimit + 1 - min nameLengthLimit (utf8Bytes name).length) 0 := by
  refine List.ext_getElem ?_ fun k hk hk' => ?_
  · rw [List.length_ofFn, List.length_append, List.length_take, List.length_replicate]
    omega
  · rw [List.getElem_ofFn, new]
    dsimp only
    split
    · rename_i hlt
      rw [List.getElem_append_left (by rw [List.length_take]; omega), List.getElem_take,
        List.getD_eq_getElem _ _ (by omega)]
    · rename_i hge
      rw [List.getElem_append_right (by rw [List.length_take]; omega), List.getElem_replicate]

/-- A name without zeros is read as far as it is stored. If the end was cut off inside a character,
nothing is read. -/
theorem name_new (h : 0 ∉ utf8Bytes name) : (new name inodeNumber).name =
    (String.fromUTF8? ((utf8Bytes name).take nameLengthLimit).toByteArray).getD "" := by
  have hnone : ((utf8Bytes name).take nameLengthLimit).findIdx? (· == 0) = none := by
    rw [List.findIdx?_eq_none_iff]
    intro b hb
    exact beq_eq_false_iff_ne.mpr fun hz => h (hz ▸ List.mem_of_mem_take hb)
  have hpad : nameLengthLimit + 1 - min nameLengthLimit (utf8Bytes name).length =
      nameLengthLimit - min nameLengthLimit (utf8Bytes name).length + 1 := by omega
  have hlen : ((List.ofFn (new name inodeNumber).nameField).findIdx? (· == 0)).getD
      nameLengthLimit = ((utf8Bytes name).take nameLengthLimit).length := by
    rw [ofFn_nameField_new, List.findIdx?_append, hnone, hpad, List.replicate_succ,
      List.findIdx?_cons]
    simp
  rw [DirEntry.name, hlen, ofFn_nameField_new, List.take_left]

/-- **A name of at most 27 bytes** without zeros is read as it was. -/
theorem name_new_eq (h : 0 ∉ utf8Bytes name) (hlen : name.utf8ByteSize ≤ nameLengthLimit) :
    (new name inodeNumber).name = name := by
  have hbytes : (utf8Bytes name).take nameLengthLimit = utf8Bytes name :=
    List.take_of_length_le hlen
  have hback : (utf8Bytes name).toByteArray = name.toByteArray :=
    ByteArray.ext (List.data_toByteArray.trans Array.toArray_toList)
  rw [name_new inodeNumber h, hbytes, hback, String.fromUTF8?, dif_pos name.isValidUTF8]
  rfl

/-- **Directory entries survive the disk.** The bytes of an entry, copied over an empty one, give
back its name and its number. There are `DIRENT_SZ` of them, and entries for different names or
numbers have different bytes. -/
theorem copy_asBytes (name : String) (h : 0 ∉ utf8Bytes name)
    (hlen : name.utf8ByteSize ≤ nameLengthLimit) :
    (∃ e, empty.asBytesMut (copyFromSlice (new name inodeNumber).asBytes) = .ok e ∧
      e.name = name ∧ e.inodeNumber = inodeNumber) ∧
    (new name inodeNumber).asBytes.length = direntSz ∧
    ∀ (name' : String) (inodeNumber' : UInt32), 0 ∉ utf8Bytes name' →
      name'.utf8ByteSize ≤ nameLengthLimit → (name', inodeNumber') ≠ (name, inodeNumber) →
      (new name' inodeNumber').asBytes ≠ (new name inodeNumber).asBytes := by
  refine ⟨⟨_, asBytesMut_copy _ _, name_new_eq inodeNumber h hlen, rfl⟩, length_asBytes _,
    fun name' inodeNumber' h' hlen' hne heq => hne ?_⟩
  have hentry : new name' inodeNumber' = new name inodeNumber := by
    rw [← ofBytes_asBytes (new name' inodeNumber'), heq, ofBytes_asBytes]
  have hname := congrArg DirEntry.name hentry
  rw [name_new_eq inodeNumber' h' hlen', name_new_eq inodeNumber h hlen] at hname
  exact Prod.ext hname (congrArg DirEntry.inodeNumber hentry)

/-- A name of two-byte characters that fills all 27 bytes. -/
theorem copy_asBytes_full :
    "éééééééééééééa".utf8ByteSize = nameLengthLimit ∧
    ∃ e, empty.asBytesMut (copyFromSlice (new "éééééééééééééa" 7).asBytes) = .ok e ∧
      e.name = "éééééééééééééa" ∧ e.inodeNumber = 7 := by
  refine ⟨by decide, (copy_asBytes 7 "éééééééééééééa" ?_ ?_).1⟩
  · decide
  · decide

/-! ## Long names -/

/-- `s` is `name` cut off after a character, as late as `limit` bytes allow. -/
structure IsTruncation (limit : Nat) (name s : String) : Prop where
  cut : s.toList <+: name.toList
  le : s.utf8ByteSize ≤ limit
  longest : ∀ s' : String, s'.toList <+: name.toList → s'.utf8ByteSize ≤ limit →
    s'.utf8ByteSize ≤ s.utf8ByteSize

/-- The bytes of a string are the encodings of its characters, one after the other. -/
theorem utf8Bytes_eq (name : String) :
    utf8Bytes name = name.toList.flatMap String.utf8EncodeChar := by
  rw [utf8Bytes, ← String.utf8Encode_toList]
  exact List.toList_data_toByteArray

/-- A string has as many bytes as its size in UTF-8 says. -/
theorem length_utf8Bytes (name : String) : (utf8Bytes name).length = name.utf8ByteSize := rfl

/-- The bytes of a string are valid UTF-8: Rust's `&str` and Lean's `String` agree here. -/
theorem valid_utf8Bytes (name : String) : Utf8.Valid (utf8Bytes name) :=
  Utf8.valid_iff.mpr ⟨name.toList, utf8Bytes_eq name⟩

/-- The first bytes of a name, if they are characters, are the first characters of it. -/
theorem toList_of_utf8Bytes {s : String} (h : utf8Bytes s <+: utf8Bytes name) :
    s.toList <+: name.toList := by
  obtain ⟨l, hl⟩ := h
  rw [utf8Bytes_eq, utf8Bytes_eq] at hl
  obtain ⟨cs, hcs, -⟩ := Utf8.chars_of_append hl
  exact ⟨cs, hcs.symm⟩

/-- A string whose characters are the first ones of a name has no more bytes than the name. -/
theorem utf8ByteSize_le_of_toList {s : String} (h : s.toList <+: name.toList) :
    s.utf8ByteSize ≤ name.utf8ByteSize := by
  obtain ⟨cs, hcs⟩ := h
  rw [← length_utf8Bytes, ← length_utf8Bytes, utf8Bytes_eq, utf8Bytes_eq, ← hcs,
    List.flatMap_append, List.length_append]
  exact Nat.le_add_right ..

/-- The part of a name that is stored is valid if it ends with a character. -/
theorem valid_take_iff (name : String) : Utf8.Valid ((utf8Bytes name).take nameLengthLimit) ↔
    ∀ b, (utf8Bytes name)[nameLengthLimit]? = some b → b.IsUTF8FirstByte := by
  have hvalid := valid_utf8Bytes name
  rcases Nat.lt_or_ge nameLengthLimit (utf8Bytes name).length with hlt | hge
  · rw [List.getElem?_eq_getElem hlt]
    rw [← List.take_append_drop nameLengthLimit (utf8Bytes name), List.drop_eq_getElem_cons hlt]
      at hvalid
    rw [hvalid.cut_iff]
    simp
  · rw [List.take_of_length_le hge, List.getElem?_eq_none hge]
    exact ⟨fun _ => nofun, fun _ => hvalid⟩

/-- **A long name is truncated** if and only if byte 27 is not inside a character. Otherwise the
entry has no name. -/
theorem name_new_isTruncation_iff (hne : name ≠ "") (h : 0 ∉ utf8Bytes name) :
    (new name inodeNumber).name ≠ "" ∧
        IsTruncation nameLengthLimit name (new name inodeNumber).name ↔
      ∀ b, (utf8Bytes name)[nameLengthLimit]? = some b → b.IsUTF8FirstByte := by
  rw [name_new inodeNumber h, ← valid_take_iff]
  constructor
  · rintro ⟨hempty, -⟩
    by_contra hvalid
    exact hempty (by rw [Utf8.fromUTF8?_of_not_valid hvalid]; rfl)
  · intro hvalid
    obtain ⟨s, hs, hbytes⟩ := Utf8.fromUTF8?_of_valid hvalid
    rw [← utf8Bytes] at hbytes
    have hsize : s.utf8ByteSize = min nameLengthLimit name.utf8ByteSize := by
      rw [← length_utf8Bytes, hbytes, List.length_take, length_utf8Bytes]
    rw [hs, Option.getD_some]
    refine ⟨?_, ?_, ?_, fun s' hs' hle => ?_⟩
    · rintro rfl
      have hpos : name.utf8ByteSize ≠ 0 := fun hz => hne (String.utf8ByteSize_eq_zero_iff.mp hz)
      have hzero : min nameLengthLimit name.utf8ByteSize = 0 := hsize.symm
      rw [nameLengthLimit] at hzero
      omega
    · exact toList_of_utf8Bytes (hbytes ▸ List.take_prefix ..)
    · rw [hsize]
      exact min_le_left ..
    · rw [hsize]
      exact le_min hle (utf8ByteSize_le_of_toList hs')

/-- Thirteen characters of two bytes and two of one: the cut is between the last two. -/
theorem name_new_isTruncation_iff_boundary :
    (new "éééééééééééééab" 7).name ≠ "" ∧
      IsTruncation nameLengthLimit "éééééééééééééab" (new "éééééééééééééab" 7).name := by
  refine (name_new_isTruncation_iff 7 (by decide) (by decide)).mpr fun b hb => ?_
  cases (show (utf8Bytes "éééééééééééééab")[27]? = some 98 by decide).symm.trans hb
  decide

/-- Fourteen characters of two bytes: the last one is cut, and nothing is left. -/
theorem name_new_cut_inside_character : ¬ ∀ (name : String) (inodeNumber : UInt32),
    name ≠ "" → 0 ∉ utf8Bytes name → (new name inodeNumber).name ≠ "" ∧
      IsTruncation nameLengthLimit name (new name inodeNumber).name := by
  intro h
  exact (h "éééééééééééééé" 7 (by decide) (by decide)).1 (by decide)

end DirEntry

end TinyOS.EasyFs
