import BabyOS.FileArrays
import BabyOS.SlottedMaps

/-!
# The entries of a directory

The bytes of a directory as slots with names and inode numbers, and what a lookup, the
search for a free entry and the write of an entry do with them.
-/

set_option autoImplicit false

namespace BabyOS.DirectoryEntries
open BabyOS.AtomicPrograms BabyOS.AtomicPrograms.Program BabyOS.ByteWords BabyOS.FileSystem
open BabyOS.DiskBlocks BabyOS.BlockRules BabyOS.FileBlocks BabyOS.DiskInvariant BabyOS.FileArrays
open BabyOS.SlottedMaps

/-! ## Records -/

/-- An entry with the number 0 is not in use. -/
def entryOf (e : List Byte) : Option (List Byte × ℕ) :=
  if entryInum e = 0 then none else some (entryName e, entryInum e)

def entries (d : ℕ → Bytes) (x : DiskInode) : Slots (List Byte) ℕ :=
  (List.range (x.size.toNat/entrySize)).map fun j => entryOf (slice (byteAt d x) (entrySize*j) entrySize)

section Records

variable {name : List Byte} {inum : ℕ}

theorem getD_slice {b : Bytes} {off n j : ℕ} (hj : j < n) : (slice b off n).getD j 0 = b (off+j) := by
  rw [List.getD_eq_getElem?_getD, getElem?_slice, if_pos hj]
  rfl

theorem entryInum_slice (b : Bytes) : entryInum (slice b 0 entrySize) = word b 0 2 := by
  rw [entryInum]
  apply word_congr
  intro j _ hj
  rw [getD_slice (by change j < 16; omega), Nat.zero_add]

theorem entryInum_bytes (h : inum < 2^16) : entryInum (slice (entryBytes inum name) 0 entrySize) = inum := by
  rw [entryInum_slice, entryBytes, word_putWord]
  exact Nat.mod_eq_of_lt h

theorem entryName_bytes (hlen : name.length ≤ maxPathLen) (hzero : 0 ∉ name) :
    entryName (slice (entryBytes inum name) 0 entrySize) = name := by
  have hbytes : ((slice (entryBytes inum name) 0 entrySize).drop 2).take maxPathLen =
      name ++ List.replicate (maxPathLen-name.length) 0 := by
    apply List.ext_getElem?
    intro j
    rw [List.getElem?_take, List.getElem?_drop, getElem?_slice]
    by_cases hj : j < maxPathLen
    · have hall : 2+j < entrySize := by
        change 2+j < 16
        have : j < 14 := hj
        omega
      rw [if_pos hj, if_pos hall, Nat.zero_add, entryBytes, putWord_other _ (Or.inr (by omega)),
        if_pos ⟨by omega, by omega⟩, Nat.add_sub_cancel_left, List.getD_eq_getElem?_getD]
      by_cases hin : j < name.length
      · rw [List.getElem?_append_left hin, List.getElem?_eq_getElem hin]
        rfl
      · rw [List.getElem?_append_right (by omega), List.getElem?_eq_none (by omega),
          List.getElem?_replicate, if_pos (by omega)]
        rfl
    · rw [if_neg hj, List.getElem?_eq_none]
      rw [List.length_append, List.length_replicate]
      omega
  have hname : ∀ a ∈ name, decide (a ≠ 0) = true := by
    intro a ha
    exact decide_eq_true (fun hc => hzero (by rw [← hc]; exact ha))
  rw [entryName, hbytes, List.takeWhile_append_of_pos hname]
  cases maxPathLen-name.length with
  | zero => exact List.append_nil _
  | succ n => exact List.append_nil _

theorem entryOf_bytes (hpos : 0 < inum) (hlt : inum < 2^16) (hlen : name.length ≤ maxPathLen)
    (hzero : 0 ∉ name) : entryOf (slice (entryBytes inum name) 0 entrySize) = some (name, inum) := by
  rw [entryOf, entryInum_bytes hlt, if_neg (by omega), entryName_bytes hlen hzero]

theorem entryOf_zeros : entryOf (slice (fun _ => 0) 0 entrySize) = none := by
  decide

end Records

section Entries

variable {sb : SuperBlock} {i j : ℕ} {data : Bytes} {d d' : ℕ → Bytes} {x x' : DiskInode}

theorem length_entries (d : ℕ → Bytes) (x : DiskInode) : (entries d x).length = x.size.toNat/entrySize := by
  rw [entries, List.length_map, List.length_range]

theorem getElem?_entries (d : ℕ → Bytes) (x : DiskInode) (j : ℕ) :
    (entries d x)[j]? = if j < x.size.toNat/entrySize
      then some (entryOf (slice (byteAt d x) (entrySize*j) entrySize)) else none := by
  rw [entries, List.getElem?_map]
  by_cases hj : j < x.size.toNat/entrySize
  · rw [if_pos hj, List.getElem?_range hj]
    rfl
  · rw [if_neg hj, List.getElem?_eq_none (by rw [List.length_range]; omega)]
    rfl

/-- What `read_inode` finds at an entry. -/
theorem bytesFrom_entry (hdvd : entrySize ∣ x.size.toNat) (hj : j < x.size.toNat/entrySize) :
    bytesFrom d x (entrySize*j) entrySize = some (slice (byteAt d x) (entrySize*j) entrySize) := by
  have hend : entrySize*(j+1) ≤ x.size.toNat := by
    obtain ⟨m, hm⟩ := hdvd
    rw [hm, Nat.mul_div_cancel_left m (by decide)] at hj
    rw [hm]
    exact Nat.mul_le_mul_left _ hj
  rw [Nat.mul_add_one] at hend
  rw [bytesFrom, if_pos (by omega), min_eq_left (by omega)]

theorem bytesFrom_end (hdvd : entrySize ∣ x.size.toNat) (hj : ¬ j < x.size.toNat/entrySize) (e : List Byte)
    (h : bytesFrom d x (entrySize*j) entrySize = some e) : e.length ≠ entrySize := by
  have hend : x.size.toNat ≤ entrySize*j := by
    obtain ⟨m, hm⟩ := hdvd
    rw [hm, Nat.mul_div_cancel_left m (by decide)] at hj
    rw [hm]
    exact Nat.mul_le_mul_left _ (Nat.le_of_not_lt hj)
  rw [bytesFrom] at h
  split at h
  next =>
    rw [← Option.some.inj h, length_slice]
    change min 16 _ ≠ 16
    omega
  next => cases h

/-- An entry is written. -/
theorem entries_stored (h : Stored sb i data (entrySize*j) entrySize d x d' x')
    (hj : j ≤ x.size.toNat/entrySize) (hdvd : entrySize ∣ x.size.toNat) :
    entries d' x' = put (entries d x) j (entryOf (slice data 0 entrySize)) := by
  obtain ⟨m, hm⟩ := hdvd
  have hsize : entrySize = 16 := rfl
  have hcount : x.size.toNat/entrySize = m := by
    rw [hm]
    exact Nat.mul_div_cancel_left m (by decide)
  have hnew : x'.size.toNat/entrySize = max m (j+1) := by
    rw [h.size, hm, ← Nat.mul_add_one, Nat.mul_max_mul_left]
    exact Nat.mul_div_cancel_left _ (by decide)
  rw [hcount] at hj
  apply List.ext_getElem?
  intro k
  rw [getElem?_put (by rw [length_entries, hcount]; exact hj), getElem?_entries, getElem?_entries, hnew, hcount]
  by_cases hkj : k = j
  · rw [if_pos (by omega), if_pos hkj, hkj]
    have hslice : slice (byteAt d' x') (entrySize*j) entrySize = slice data 0 entrySize := by
      apply List.map_congr_left
      intro o ho
      have ho := List.mem_range.mp ho
      rw [h.inside _ (by omega) (by omega), Nat.add_sub_cancel_left, Nat.zero_add]
    rw [hslice]
  · rw [if_neg hkj]
    by_cases hk : k < m
    · rw [if_pos (by omega), if_pos hk]
      refine congrArg (fun e => some (entryOf e)) (slice_congr (fun o ho => ?_))
      rw [hsize] at ho hm
      exact h.outside _ (by rw [hsize]; omega) (by rw [hsize]; omega)
    · rw [if_neg (by omega), if_neg hk]

end Entries

end BabyOS.DirectoryEntries
