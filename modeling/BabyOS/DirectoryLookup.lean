import BabyOS.DirectoryEntries

/-!
# Looking up and linking names

The rules of `dir_lookup` and `dir_link` on a sound disk. A lookup searches the slots of
the directory and gets the inode that it finds into the cache.
-/

set_option autoImplicit false

namespace BabyOS.DirectoryLookup
open BabyOS.AtomicPrograms BabyOS.AtomicPrograms.Program BabyOS.ByteWords BabyOS.FileSystem
open BabyOS.DiskBlocks BabyOS.BlockRules BabyOS.FileBlocks BabyOS.DiskInvariant BabyOS.FileArrays
open BabyOS.SlottedMaps BabyOS.DirectoryEntries

/-! ## Getting an inode -/

/-- The slot that `get_inode` gives. -/
def target (s : Fs) (inum : ℕ) : Option ℕ :=
  match s.cached rootDev inum with
  | some j => some j
  | none => s.empty

/-- A reference to the inode was taken, and its record is there. -/
def fetched (s : Fs) (j inum : ℕ) : Fs :=
  s.setInode j (if 0 < (s.inodes j).ref then { s.inodes j with ref := (s.inodes j).ref+1, valid := true }
    else ⟨record s.disk inum, rootDev, inum, 1, true, .init 1⟩)

/-- The end of `dir_lookup`, with an entry that has the name. -/
def fetch (p c inum off : ℕ) : Prog (Option (ℕ × ℕ)) := do
  let dev ← look fun s => (s.inodes c).dev
  match ← getInode dev inum with
  | none => .stop
  | some j => do
    readFromDisk p j inum
    pure (some (j, off))

section Fetching

variable {t : Bool} {ok : Fs → Event → Prop} {sb : SuperBlock} {s : Fs} {p c j inum off : ℕ}

theorem cached_some (h : s.cached rootDev inum = some j) :
    j < maxInodeCache ∧ 0 < (s.inodes j).ref ∧ (s.inodes j).dev = rootDev ∧ (s.inodes j).inum = inum := by
  rw [Fs.cached] at h
  have hprop := List.find?_some h
  exact ⟨List.mem_range.mp (List.mem_of_find?_eq_some h), of_decide_eq_true hprop⟩

theorem empty_some (h : s.empty = some j) : j < maxInodeCache ∧ (s.inodes j).ref = 0 := by
  rw [Fs.empty] at h
  have hprop := List.find?_some h
  exact ⟨List.mem_range.mp (List.mem_of_find?_eq_some h), of_decide_eq_true hprop⟩

theorem cached_none (h : s.cached rootDev inum = none) (hj : j < maxInodeCache)
    (href : 0 < (s.inodes j).ref) (hdev : (s.inodes j).dev = rootDev) : (s.inodes j).inum ≠ inum := by
  intro hc
  have hnot := List.find?_eq_none.mp h j (List.mem_range.mpr hj)
  exact hnot (decide_eq_true ⟨href, hdev, hc⟩)

theorem meets_getInode {dev : ℕ} {Q : Option ℕ → Fs → Prop}
    (hhit : ∀ j, s.cached dev inum = some j →
      Q (some j) (s.setInode j { s.inodes j with ref := (s.inodes j).ref+1 }))
    (hfresh : ∀ j, s.cached dev inum = none → s.empty = some j →
      Q (some j) (s.setInode j ((s.inodes j).reset dev inum)))
    (hnone : s.cached dev inum = none → s.empty = none → Q none s) :
    (getInode dev inum).Meets t ok s Q := by
  refine ⟨fun _ => rfl, fun _ _ => ?_⟩
  dsimp only
  cases hcached : s.cached dev inum with
  | some j => exact hhit j hcached
  | none =>
    cases hempty : s.empty with
    | some j => exact hfresh j hcached hempty
    | none => exact hnone hcached hempty

theorem meets_readFromDisk {Q : Unit → Fs → Prop} (hfree : s.buffers (inodeBlock inum) = .init 1)
    (hvalid : (s.inodes j).valid = true → Q () s)
    (hload : (s.inodes j).valid = false → Q () (s.setInode j { s.inodes j with
      toDiskInode := record s.disk inum, valid := true })) :
    (readFromDisk p j inum).Meets t ok s Q := by
  apply meets_look
  by_cases hv : (s.inodes j).valid = true
  · rw [if_pos hv]
    exact meets_pure (hvalid hv)
  · rw [if_neg hv]
    apply meets_peek hfree
    exact ⟨fun _ => rfl, fun _ _ => hload (Bool.eq_false_iff.mpr hv)⟩

theorem setInode_self (s : Fs) (j : ℕ) (x : Inode) : (s.setInode j x).inodes j = x :=
  Function.update_self ..

theorem setInode_idem (s : Fs) (j : ℕ) (x y : Inode) : (s.setInode j x).setInode j y = s.setInode j y := by
  change { s with inodes := Function.update (Function.update s.inodes j x) j y } = _
  rw [Function.update_idem]
  rfl

theorem meets_fetch {Q : Option (ℕ × ℕ) → Fs → Prop} (h : Sound sb s) (hc : 0 < (s.inodes c).ref)
    (hstop : target s inum = none → t = false)
    (hQ : ∀ j, target s inum = some j → Q (some (j, off)) (fetched s j inum)) :
    (fetch p c inum off).Meets t ok s Q := by
  obtain ⟨-, hdev, -, -⟩ := h.cached c hc
  apply meets_look
  rw [hdev]
  refine meets_bind (meets_getInode (fun j hcached => ?_) (fun j hcached hempty => ?_) (fun hcached hempty => ?_))
  · obtain ⟨-, href, -, hinum⟩ := cached_some hcached
    obtain ⟨-, -, -, hx⟩ := h.cached j href
    have hgoal := hQ j (by rw [target, hcached])
    rw [fetched, if_pos href] at hgoal
    refine meets_bind (meets_readFromDisk (h.buffers _) (fun hv => ?_) (fun _ => ?_))
    · rw [setInode_self] at hv
      have hsame : ({ s.inodes j with ref := (s.inodes j).ref+1 } : Inode) =
          { s.inodes j with ref := (s.inodes j).ref+1, valid := true } := by
        rw [← hv]
      rw [hsame]
      exact meets_pure hgoal
    · rw [setInode_idem, setInode_self]
      rw [hinum] at hx
      apply meets_pure
      change Q _ (s.setInode j ⟨record s.disk inum, _, _, _, _, _⟩)
      rw [← hx]
      exact hgoal
  · obtain ⟨-, href⟩ := empty_some hempty
    have hgoal := hQ j (by rw [target, hcached, hempty])
    rw [fetched, if_neg (by omega)] at hgoal
    refine meets_bind (meets_readFromDisk (h.buffers _) (fun hv => ?_) (fun _ => ?_))
    · rw [setInode_self] at hv
      cases hv
    · rw [setInode_idem, setInode_self]
      exact meets_pure hgoal
  · exact hstop (by rw [target, hcached, hempty])

theorem fetched_self : (fetched s j inum).inodes j = if 0 < (s.inodes j).ref
    then { s.inodes j with ref := (s.inodes j).ref+1, valid := true }
    else ⟨record s.disk inum, rootDev, inum, 1, true, .init 1⟩ := setInode_self ..

theorem fetched_other {k : ℕ} (h : k ≠ j) : (fetched s j inum).inodes k = s.inodes k :=
  Function.update_of_ne h ..

/-- The slot has the inode, and was its own before if it was in use. -/
theorem fetched_target (ht : target s inum = some j) :
    j < maxInodeCache ∧ 0 < ((fetched s j inum).inodes j).ref ∧
    ((fetched s j inum).inodes j).dev = rootDev ∧ ((fetched s j inum).inodes j).inum = inum ∧
    (0 < (s.inodes j).ref → (s.inodes j).inum = inum) := by
  rw [fetched_self]
  rw [target] at ht
  split at ht
  next k hk =>
    obtain rfl : k = j := Option.some.inj ht
    obtain ⟨hlt, href, hdev, hinum⟩ := cached_some hk
    rw [if_pos href]
    exact ⟨hlt, Nat.succ_pos _, hdev, hinum, fun _ => hinum⟩
  next =>
    obtain ⟨hlt, href⟩ := empty_some ht
    rw [if_neg (by omega)]
    exact ⟨hlt, Nat.one_pos, rfl, rfl, fun hc => by omega⟩

/-- No other slot has the inode. -/
theorem target_only {k : ℕ} (h : Sound sb s) (ht : target s inum = some j) (hk : 0 < (s.inodes k).ref)
    (hinum : (s.inodes k).inum = inum) : k = j := by
  obtain ⟨hlt, hdev, -, -⟩ := h.cached k hk
  rw [target] at ht
  split at ht
  next i hi =>
    obtain rfl : i = j := Option.some.inj ht
    obtain ⟨-, href, -, hinum'⟩ := cached_some hi
    exact h.distinct k i hk href (hinum.trans hinum'.symm)
  next hnone => exact absurd hinum (cached_none hnone hlt hk hdev)

/-- The disk stays sound. -/
theorem Sound.fetched (h : Sound sb s) (hi : Inum sb inum) (ht : target s inum = some j) :
    Sound sb (fetched s j inum) := by
  obtain ⟨hlt, href, hdev, hinum, hold⟩ := fetched_target ht
  have hrecord : ((DirectoryLookup.fetched s j inum).inodes j).toDiskInode = record s.disk inum := by
    rw [fetched_self]
    split
    next hpos =>
      rw [← hold hpos]
      exact (h.cached j hpos).2.2.2
    next => rfl
  have hother : ∀ k, k ≠ j → 0 < ((DirectoryLookup.fetched s j inum).inodes k).ref →
      ((DirectoryLookup.fetched s j inum).inodes k).inum ≠ inum := by
    intro k hk hpos hc
    rw [fetched_other hk] at hpos hc
    exact hk (target_only h ht hpos hc)
  refine ⟨h.super, h.fits, h.buffers, h.sharing, h.whole, fun k hk => ?_, fun k k' hk hk' heq => ?_⟩
  · by_cases hkj : k = j
    · rw [hkj, hinum]
      exact ⟨hlt, hdev, hi, hrecord⟩
    · rw [fetched_other hkj] at hk ⊢
      exact h.cached k hk
  · by_cases hkj : k = j <;> by_cases hkj' : k' = j
    · rw [hkj, hkj']
    · rw [hkj, hinum] at heq
      exact absurd heq.symm (hother k' hkj' hk')
    · rw [hkj', hinum] at heq
      exact absurd heq (hother k hkj hk)
    · rw [fetched_other hkj] at hk heq
      rw [fetched_other hkj'] at hk' heq
      exact h.distinct k k' hk hk' heq

end Fetching

/-! ## Lookups -/

/-- A cached directory, of whole entries. -/
structure Opened (sb : SuperBlock) (s : Fs) (c : ℕ) : Prop where
  sound : Sound sb s
  held : 0 < (s.inodes c).ref
  type : (s.inodes c).type = typeDir
  whole : entrySize ∣ (s.inodes c).size.toNat

def dirSlots (s : Fs) (c : ℕ) : Slots (List Byte) ℕ := entries s.disk (s.inodes c).toDiskInode

section Lookups

variable {t : Bool} {ok : Fs → Event → Prop} {sb : SuperBlock} {s : Fs} {p c j inum off : ℕ} {name : List Byte}

theorem Opened.notDev (h : Opened sb s c) : (s.inodes c).type ≠ typeDev := by
  rw [h.type]
  decide

theorem Opened.overruns (h : Opened sb s c) (n : ℕ) : Opened sb { s with overruns := n } c :=
  ⟨⟨h.sound.super, h.sound.fits, h.sound.buffers, h.sound.sharing, h.sound.whole, h.sound.cached,
    h.sound.distinct⟩, h.held, h.type, h.whole⟩

/-- The loops over the entries come to an end. -/
theorem Opened.count (h : Opened sb s c) : (dirSlots s c).length < 2^28 := by
  obtain ⟨-, -, hi, hx⟩ := h.sound.cached c h.held
  have hsize := (h.sound.whole _ hi).size
  rw [← hx] at hsize
  have hmax : maxFileSize*blockSize < 2^28 := by decide
  rw [dirSlots, length_entries]
  exact Nat.lt_of_le_of_lt (Nat.div_le_self ..) (Nat.lt_of_le_of_lt hsize hmax)

theorem meets_sameName {name' : List Byte} {Q : Bool → Fs → Prop} (hno : name ≠ name' → Q false s)
    (hyes : name = name' → ∀ b n, (name.length ≠ maxPathLen → b = true ∧ n = s.overruns) →
      Q b { s with overruns := n }) : (sameName name name').Meets t ok s Q := by
  refine ⟨fun _ => rfl, fun _ _ => ?_⟩
  dsimp only
  by_cases hname : name = name'
  · rw [decide_eq_true hname, Bool.true_and]
    by_cases hlen : name.length = maxPathLen
    · rw [if_pos ⟨hname, hlen⟩]
      exact hyes hname _ _ (fun hc => absurd hlen hc)
    · rw [if_neg (fun hc => hlen hc.2), decide_eq_true hlen, Bool.true_or]
      exact hyes hname true s.overruns (fun _ => ⟨rfl, rfl⟩)
  · rw [if_neg (fun hc => hname hc.1), decide_eq_false hname, Bool.false_and]
    exact hno hname

/-- The loop of `dir_lookup` from slot `j` on. A name that fills its array may be passed over. -/
theorem meets_dirLookupFrom {fuel : ℕ} {Q : Option (ℕ × ℕ) → Fs → Prop} (h : Opened sb s c)
    (hj : j ≤ (dirSlots s c).length) (hfuel : (dirSlots s c).length < j+fuel)
    (hnone : ∀ n, (name.length ≠ maxPathLen → n = s.overruns ∧
      ∀ i (v : ℕ), j ≤ i → (dirSlots s c)[i]? ≠ some (some (name, v))) → Q none { s with overruns := n })
    (hsome : ∀ n i inum, (dirSlots s c)[i]? = some (some (name, inum)) →
      (name.length ≠ maxPathLen → n = s.overruns ∧
        ∀ k, j ≤ k → k < i → ∀ v : ℕ, (dirSlots s c)[k]? ≠ some (some (name, v))) →
      (fetch p c inum (entrySize*i)).Meets t ok { s with overruns := n } Q) :
    (dirLookupFrom p c name fuel (entrySize*j)).Meets t ok s Q := by
  induction fuel generalizing s j with
  | zero => omega
  | succ fuel ih =>
    have hcount : (dirSlots s c).length = (s.inodes c).size.toNat/entrySize := length_entries ..
    -- the next slot, when this one does not end the search
    have hnext : j < (dirSlots s c).length → ∀ n, (name.length ≠ maxPathLen → n = s.overruns ∧
        ∀ v : ℕ, (dirSlots s c)[j]? ≠ some (some (name, v))) →
        (dirLookupFrom p c name fuel (entrySize*j+entrySize)).Meets t ok { s with overruns := n } Q := by
      intro hlt n hn
      rw [← Nat.mul_add_one]
      refine ih (h.overruns n) hlt (by change (dirSlots s c).length < _; omega) (fun n' hn' => hnone n' ?_)
        (fun n' i inum hi hn' => hsome n' i inum hi ?_)
      · intro hlen
        obtain ⟨rfl, hhere⟩ := hn hlen
        obtain ⟨heq, hrest⟩ := hn' hlen
        refine ⟨heq, fun i v hi => ?_⟩
        by_cases hij : i = j
        · rw [hij]
          exact hhere v
        · exact hrest i v (by omega)
      · intro hlen
        obtain ⟨rfl, hhere⟩ := hn hlen
        obtain ⟨heq, hrest⟩ := hn' hlen
        refine ⟨heq, fun k hk hki v => ?_⟩
        by_cases hkj : k = j
        · rw [hkj]
          exact hhere v
        · exact hrest k (by omega) hki v
    rw [dirLookupFrom]
    refine meets_bind (meets_readInode h.sound h.held (fun hc => absurd hc h.notDev) (fun _ => ?_))
    by_cases hlt : j < (s.inodes c).size.toNat/entrySize
    · have hslot : (dirSlots s c)[j]? =
          some (entryOf (slice (byteAt s.disk (s.inodes c).toDiskInode) (entrySize*j) entrySize)) := by
        rw [dirSlots, getElem?_entries, if_pos hlt]
      rw [bytesFrom_entry h.whole hlt]
      obtain ⟨e, he⟩ : ∃ e, slice (byteAt s.disk (s.inodes c).toDiskInode) (entrySize*j) entrySize = e := ⟨_, rfl⟩
      have hlen : e.length = entrySize := by
        rw [← he, length_slice]
      rw [he] at hslot ⊢
      dsimp only
      rw [if_pos hlen]
      by_cases hused : entryInum e ≠ 0
      · rw [entryOf, if_neg hused] at hslot
        rw [if_pos hused]
        refine meets_bind (meets_sameName (fun hne => ?_) (fun heq b n hb => ?_))
        · refine hnext (by omega) s.overruns (fun _ => ⟨rfl, fun v hc => hne ?_⟩)
          rw [hslot] at hc
          exact (Prod.mk.inj (Option.some.inj (Option.some.inj hc))).1.symm
        · cases b with
          | true =>
            rw [if_pos rfl]
            rw [← heq] at hslot
            exact hsome n j (entryInum e) hslot (fun hlen => ⟨(hb hlen).2, fun k hk hkj => by omega⟩)
          | false =>
            exact hnext (by omega) n (fun hlen => absurd (hb hlen).1 Bool.false_ne_true)
      · rw [entryOf, if_pos (not_not.mp hused)] at hslot
        rw [if_neg hused]
        refine meets_bind (meets_pure ?_)
        refine hnext (by omega) s.overruns (fun _ => ⟨rfl, fun v hc => ?_⟩)
        rw [hslot] at hc
        cases hc
    · have hdone : Q none s := hnone s.overruns (fun _ => ⟨rfl, fun i v hi hc => by
        rw [List.getElem?_eq_none (by omega)] at hc
        cases hc⟩)
      split
      next => exact meets_pure hdone
      next e he =>
        rw [if_neg (bytesFrom_end h.whole hlt e he)]
        exact meets_pure hdone

theorem meets_dirLookup {Q : Option (ℕ × ℕ) → Fs → Prop} (h : Opened sb s c)
    (hnone : ∀ n, (name.length ≠ maxPathLen → n = s.overruns ∧ find name (dirSlots s c) = none) →
      Q none { s with overruns := n })
    (hsome : ∀ n i inum, (dirSlots s c)[i]? = some (some (name, inum)) →
      (name.length ≠ maxPathLen → n = s.overruns ∧ find name (dirSlots s c) = some (i, inum)) →
      (fetch p c inum (entrySize*i)).Meets t ok { s with overruns := n } Q) :
    (dirLookup p c name).Meets t ok s Q := by
  have hcount := h.count
  refine meets_dirLookupFrom (j := 0) h (Nat.zero_le _) (by omega) (fun n hn => hnone n (fun hlen => ?_))
    (fun n i inum hi hn => hsome n i inum hi (fun hlen => ?_))
  · obtain ⟨heq, hrest⟩ := hn hlen
    exact ⟨heq, find_eq_none.mpr (fun i v => hrest i v (Nat.zero_le i))⟩
  · obtain ⟨heq, hrest⟩ := hn hlen
    exact ⟨heq, find_eq_some.mpr ⟨hi, fun k hk w => hrest k (Nat.zero_le k) hk w⟩⟩

/-- What a lookup comes to, of a name that does not fill its array. -/
theorem run_dirLookup (h : Opened sb s c) (hlen : name.length ≠ maxPathLen) :
    (dirLookup p c name).run s = match find name (dirSlots s c) with
      | none => some (none, s)
      | some (i, inum) => (target s inum).map fun j => (some (j, entrySize*i), fetched s j inum) := by
  have hrule : ∀ t Q, (find name (dirSlots s c) = none → Q none s) →
      (∀ i inum, find name (dirSlots s c) = some (i, inum) →
        (fetch p c inum (entrySize*i)).Meets t (fun _ _ => True) s Q) →
      (dirLookup p c name).Meets t (fun _ _ => True) s Q := by
    intro t Q hnone hsome
    refine meets_dirLookup h (fun n hn => ?_) (fun n i inum _ hn => ?_)
    · obtain ⟨rfl, hfind⟩ := hn hlen
      exact hnone hfind
    · obtain ⟨rfl, hfind⟩ := hn hlen
      exact hsome i inum hfind
  have hends : ∀ r, ((dirLookup p c name).Meets true (fun _ _ => True) s fun a s' => (a, s') = r) →
      (dirLookup p c name).run s = some r := by
    intro r hr
    obtain ⟨a, s', hrun, rfl⟩ := meets_ends hr (clear_all _ s)
    exact hrun
  cases hfind : find name (dirSlots s c) with
  | none =>
    apply hends
    exact hrule _ _ (fun _ => rfl) (fun i inum hc => by rw [hfind] at hc; cases hc)
  | some r =>
    obtain ⟨i, inum⟩ := r
    dsimp only
    cases htarget : target s inum with
    | some j =>
      apply hends
      refine hrule _ _ (fun hc => by rw [hfind] at hc; cases hc) (fun i' inum' hc => ?_)
      rw [hfind] at hc
      obtain ⟨rfl, rfl⟩ := Prod.mk.inj (Option.some.inj hc)
      refine meets_fetch h.sound h.held (fun hnone => ?_) (fun k hk => ?_)
      · rw [htarget] at hnone
        cases hnone
      · rw [htarget] at hk
        rw [Option.some.inj hk]
    | none =>
      -- `read_from_disk` is called on no object
      have hnever : (dirLookup p c name).Meets false (fun _ _ => True) s fun _ _ => False := by
        refine hrule _ _ (fun hc => by rw [hfind] at hc; cases hc) (fun i' inum' hc => ?_)
        rw [hfind] at hc
        obtain ⟨rfl, rfl⟩ := Prod.mk.inj (Option.some.inj hc)
        refine meets_fetch h.sound h.held (fun _ => rfl) (fun k hk => ?_)
        rw [htarget] at hk
        cases hk
      cases hrun : (dirLookup p c name).run s with
      | none => rfl
      | some r => exact (meets_run hnever (clear_all _ s) hrun).elim

/-! ## Linking -/

theorem meets_freeEntryFrom {fuel : ℕ} {Q : Option ℕ → Fs → Prop} (h : Opened sb s c)
    (hj : j ≤ hole (dirSlots s c)) (hfuel : (dirSlots s c).length < j+fuel)
    (hQ : Q (some (entrySize*hole (dirSlots s c))) s) :
    (freeEntryFrom p c fuel (entrySize*j)).Meets t ok s Q := by
  have hle := hole_le (dirSlots s c)
  have hcount : (dirSlots s c).length = (s.inodes c).size.toNat/entrySize := length_entries ..
  induction fuel generalizing j with
  | zero => omega
  | succ fuel ih =>
    apply meets_look
    by_cases hlt : j < (s.inodes c).size.toNat/entrySize
    · have hin : entrySize*j < (s.inodes c).size.toNat := by
        rw [Nat.lt_div_iff_mul_lt' h.whole] at hlt
        exact hlt
      have hslot : (dirSlots s c)[j]? =
          some (entryOf (slice (byteAt s.disk (s.inodes c).toDiskInode) (entrySize*j) entrySize)) := by
        rw [dirSlots, getElem?_entries, if_pos hlt]
      rw [if_pos hin]
      refine meets_bind (meets_readInode h.sound h.held (fun hc => absurd hc h.notDev) (fun _ => ?_))
      rw [bytesFrom_entry h.whole hlt]
      obtain ⟨e, he⟩ : ∃ e, slice (byteAt s.disk (s.inodes c).toDiskInode) (entrySize*j) entrySize = e := ⟨_, rfl⟩
      have hlen : e.length = entrySize := by
        rw [← he, length_slice]
      rw [he] at hslot ⊢
      dsimp only
      rw [if_pos hlen]
      by_cases hfree : entryInum e = 0
      · have hjhole : j = hole (dirSlots s c) := by
          by_contra hne
          obtain ⟨x, hx⟩ := before_hole (l := dirSlots s c) (i := j) (by omega)
          rw [entryOf, if_pos hfree] at hslot
          rw [hslot] at hx
          cases hx
        rw [if_pos hfree]
        rw [← hjhole] at hQ
        exact meets_pure hQ
      · have hne : j ≠ hole (dirSlots s c) := by
          intro hc
          rw [entryOf, if_neg hfree, hc] at hslot
          exact getElem?_hole _ _ _ hslot
        rw [if_neg hfree, ← Nat.mul_add_one]
        exact ih (by omega) (by omega)
    · have hend : ¬ entrySize*j < (s.inodes c).size.toNat := by
        rw [Nat.lt_div_iff_mul_lt' h.whole] at hlt
        exact hlt
      have hjhole : j = hole (dirSlots s c) := by omega
      rw [if_neg hend]
      rw [← hjhole] at hQ
      exact meets_pure hQ

/-- A new name is written into the first hole, or behind the last entry. -/
theorem meets_dirLink {Q : Bool → Fs → Prop} (h : Opened sb s c) (hfull : ∀ s, ¬ ok s (.branch .full))
    (habsent : name.length ≠ maxPathLen ∧ find name (dirSlots s c) = none ∨
      t = false ∧ ∀ s i, ¬ ok s (.branch (.linkExists i)))
    (hroom : entrySize*hole (dirSlots s c)+entrySize ≤ maxFileSize*blockSize)
    (hQ : ∀ n, (name.length ≠ maxPathLen → n = s.overruns ∧ find name (dirSlots s c) = none) → ∀ d' x',
      Stored sb (s.inodes c).inum (entryBytes inum name) (entrySize*hole (dirSlots s c)) entrySize
        s.disk (s.inodes c).toDiskInode d' x' → Q true (put { s with overruns := n } c d' x')) :
    (dirLink p c name inum).Meets t ok s Q := by
  refine meets_bind (meets_dirLookup h (fun n hn => ?_) (fun n i v hi hn => ?_))
  · have hopen := h.overruns n
    have hcount := hopen.count
    have hle := hole_le (dirSlots s c)
    have hlen : (dirSlots s c).length = (s.inodes c).size.toNat/entrySize := length_entries ..
    have hoff : entrySize*hole (dirSlots s c) ≤ (s.inodes c).size.toNat := by
      rw [hlen] at hle
      exact le_trans (Nat.mul_le_mul_left _ hle) (Nat.mul_div_le _ _)
    refine meets_bind (meets_freeEntryFrom (j := 0) hopen (Nat.zero_le _) (by omega) ?_)
    refine meets_bind (meets_writeInode hopen.sound hopen.held (fun _ => hfull) (fun hc => absurd hc hopen.notDev)
      (fun _ hout => ?_) (fun _ _ _ d' x' hst => ?_))
    · rcases hout with hout | hout
      · exact absurd hoff (Nat.not_le_of_lt hout)
      · exact absurd hroom (Nat.not_le_of_lt hout)
    · exact meets_pure (hQ n hn d' x' hst)
  · rcases habsent with ⟨hlen, hfind⟩ | ⟨rfl, hexists⟩
    · rw [(hn hlen).2] at hfind
      cases hfind
    · refine meets_fetch (h.overruns n).sound h.held (fun _ => rfl) (fun j _ => ?_)
      exact meets_mark (fun hc => absurd hc (hexists _ _))

end Lookups

end BabyOS.DirectoryLookup
