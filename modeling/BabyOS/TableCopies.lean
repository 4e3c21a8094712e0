import BabyOS.TableMapping

/-!
# Copying an address space

`copy_pml4_table` gives a child tables of its own, with the leaves of the parent. All
leaves of both are read-only afterwards, and each counts once more in its frame.
-/

set_option autoImplicit false

namespace BabyOS.TableCopies
open BabyOS.BuddyMachine BabyOS.BuddyArithmetic BabyOS.FrameCounts
open BabyOS.RadixTables BabyOS.StoredTables BabyOS.TableWords BabyOS.TableMapping

def readOnly (w : Word) : Word := w &&& ~~~pteW

/-- Weight 1 for an entry that maps frame `f`. -/
def maps (f : ℕ) (w : Word) : ℕ := if tableOf w = f then 1 else 0

/-- Every leaf below `t` is in a frame that is counted. -/
def Used {α : Type} {L : Level α Word} (R : Reader Word L) (t : ℕ) (s : Memory) : Prop :=
  ∀ n w, L.find (R.read s.words t) n = some w → 0 < s.buddy.ref (tableOf w)

/-- The tables below `t` were copied to frames `new`, with the root in `pa`. -/
structure Copied {α : Type} {L : Level α Word} (M : Set ℕ) (R : Reader Word L) (t pa : ℕ) (new : ℕ → ℕ)
    (s s' : Memory) : Prop where
  address : pa = frameAddr (frameOf pa)
  table : frameOf pa ∈ M
  frames : Frames M s'.buddy
  ref : ∀ f, s'.buddy.ref f = s.buddy.ref f+new f+L.leaves (maps f) (R.read s.words t)
  fresh : ∀ f, 0 < new f → f ∈ M ∧ s.buddy.ref f = 0 ∧ new f = 1
  source : ∀ n, L.find (R.read s'.words t) n = (L.find (R.read s.words t) n).map readOnly
  same : ∀ f, L.frames f (R.read s'.words t) = L.frames f (R.read s.words t)
  copy : ∀ n, L.find (R.read s'.words (frameOf pa)) n = (L.find (R.read s.words t) n).map readOnly
  count : ∀ f, L.frames f (R.read s'.words (frameOf pa)) = new f
  kept : ∀ f, new f = 0 → L.frames f (R.read s.words t) = 0 → s'.words f = s.words f

def Copies {α : Type} {L : Level α Word} (M : Set ℕ) (R : Reader Word L)
    (copy : ℕ → Memory → Except Panic (ℕ × Memory)) : Prop :=
  ∀ t s, Tables M R t s → Used R t s → copy t s = .error .noPage ∨
    ∃ pa s' new, copy t s = .ok (pa, s') ∧ Copied M R t pa new s s'

/-! ## Leaves -/

section Leaves

variable {M : Set ℕ} {s s' : Memory} {t g f k : ℕ} {w : Word}

theorem present_readOnly (w : Word) : present (readOnly w) = present w := by
  have hbit : readOnly w &&& pteP = w &&& pteP := by
    have hflags : ~~~pteW &&& pteP = pteP := by decide
    rw [readOnly, BitVec.and_assoc, hflags]
  rw [present, present, hbit]

theorem readOnly_address (w : Word) : readOnly w &&& addrMask = w &&& addrMask := by
  have hflags : ~~~pteW &&& addrMask = addrMask := by decide
  rw [readOnly, BitVec.and_assoc, hflags]

/-- The word of an entry when the copy is made. -/
def readOnlyWord (w : Word) : Word := if present w then readOnly w else w

theorem leafOf_readOnly (w : Word) : leafOf (readOnlyWord w) = (leafOf w).map readOnly := by
  cases h : present w with
  | false => simp [leafOf, readOnlyWord, h]
  | true => simp [leafOf, readOnlyWord, h, present_readOnly]

/-- The first `k` entries of the page table and of its copy are read-only. -/
structure PtesDone (M : Set ℕ) (t g k : ℕ) (s s' : Memory) : Prop where
  frames : Frames M s'.buddy
  ref : ∀ f, s'.buddy.ref f = s.buddy.ref f+(pageReader.read s.words t).sum (maps f) k
  source : s'.words t = fun j => if j < k then readOnlyWord (s.words t j) else s.words t j
  copy : s'.words g = fun j => if j < k then readOnlyWord (s.words t j) else s.words t j
  kept : ∀ f, f ≠ t → f ≠ g → s'.words f = s.words f

theorem step_words (w : ℕ → Word) (k : ℕ) :
    Function.update (fun j => if j < k then readOnlyWord (w j) else w j) k (readOnlyWord (w k)) =
      fun j => if j < k+1 then readOnlyWord (w j) else w j := by
  funext j
  by_cases hj : j = k
  · subst hj
    rw [Function.update_self, if_pos (Nat.lt_succ_self j)]
  · rw [Function.update_of_ne hj]
    exact if_congr (by omega) rfl rfl

theorem ptes_spec (hs : Frames M s.buddy) (htg : t ≠ g) (hg : s.words g = s.words t)
    (hused : ∀ j < 512, ∀ w, leafOf (s.words t j) = some w → 0 < s.buddy.ref (tableOf w)) (hk : k ≤ 512) :
    ∃ s', forEntries (copyPte t g) k s = .ok s' ∧ PtesDone M t g k s s' := by
  induction k with
  | zero => exact ⟨s, rfl, hs, by simp [Node.sum], by simp, by simp [hg], fun _ _ _ => rfl⟩
  | succ k ih =>
    obtain ⟨s₁, hloop, hdone⟩ := ih (by omega)
    have hword : s₁.words t k = s.words t k := by
      rw [hdone.source]
      exact if_neg (Nat.lt_irrefl k)
    have hentry : (pageReader.read s.words t).entry k = leafOf (s.words t k) := read_last (by omega)
    rw [forEntries, hloop]
    change ∃ s', copyPte t g k s₁ = .ok s' ∧ _
    rw [copyPte, hword]
    cases hpresent : present (s.words t k) with
    | false =>
      have hsame : readOnlyWord (s.words t k) = s.words t k := if_neg (by rw [hpresent]; exact Bool.false_ne_true)
      have hnone : leafOf (s.words t k) = none := if_neg (by rw [hpresent]; exact Bool.false_ne_true)
      have hwords := step_words (s.words t) k
      rw [hsame, Function.update_eq_self_iff.mpr (by rw [if_neg (Nat.lt_irrefl k)])] at hwords
      refine ⟨s₁, rfl, hdone.frames, fun f => ?_, hdone.source.trans hwords, hdone.copy.trans hwords, hdone.kept⟩
      rw [hdone.ref, Node.sum_succ, hentry, hnone, Option.elim_none, Nat.add_zero]
    | true =>
      have hsome : leafOf (s.words t k) = some (s.words t k) := if_pos hpresent
      have hro : readOnlyWord (s.words t k) = readOnly (s.words t k) := if_pos hpresent
      have hframe : frameOf (s.words t k &&& addrMask).toNat = tableOf (s.words t k) := by rw [tableOf, mapNr_eq]
      have hpos : 0 < s₁.buddy.ref (frameOf (s.words t k &&& addrMask).toNat) := by
        have := hused k (by omega) _ hsome
        rw [hframe, hdone.ref]
        omega
      obtain ⟨hframes, href⟩ := inc_one hdone.frames hpos
      have hcount : ¬ s₁.buddy.getPageRef (s.words t k &&& addrMask).toNat = 0 := by
        rw [Buddy.getPageRef, mapNr_eq]
        omega
      dsimp only
      rw [if_neg (by simp), if_neg hcount]
      set s₂ := Memory.setWord { s₁ with buddy := s₁.buddy.incPageRef (s.words t k &&& addrMask).toNat } t k
        (s.words t k &&& ~~~pteW) with hs₂
      have hsource : s₂.words t = fun j => if j < k+1 then readOnlyWord (s.words t j) else s.words t j := by
        rw [← step_words, hro, ← hdone.source]
        exact Function.update_self ..
      have hstored : s₂.words t k = readOnly (s.words t k) := by
        rw [hsource]
        exact (if_pos (Nat.lt_succ_self k)).trans hro
      have hother : ∀ f, f ≠ t → s₂.words f = s₁.words f := fun f hf => Function.update_of_ne hf _ _
      rw [hstored]
      refine ⟨_, rfl, hframes, fun f => ?_, ?_, ?_, fun f hft hfg => ?_⟩
      · have hone := href f
        rw [hframe, hdone.ref] at hone
        rw [Node.sum_succ, hentry, hsome, Option.elim_some, maps]
        simp only [eq_comm (a := f)] at hone
        push_cast
        rw [← add_assoc]
        exact hone
      · exact (Function.update_of_ne htg _ _).trans hsource
      · have hlast := step_words (s.words t) k
        rw [hro, ← hdone.copy, ← hother g htg.symm] at hlast
        exact (Function.update_self ..).trans hlast
      · rw [← hdone.kept f hft hfg, ← hother f hft]
        exact Function.update_of_ne hfg _ _

/-- What a table of the copy is taken from, and how the allocator stands then. -/
theorem taken_frame {α : Type} {L : Level α Word} {R : Reader Word L} {pa : ℕ} {b : Buddy} (ht : Tables M R t s)
    (h : s.buddy.allocPages 0 = some (pa, b)) :
    Frames M b ∧ pa = frameAddr (frameOf pa) ∧ frameOf pa ∈ M ∧ s.buddy.ref (frameOf pa) = 0 ∧
      (∀ f, b.ref f = s.buddy.ref f+(if frameOf pa = f then 1 else 0 : ℕ)) ∧
      L.frames (frameOf pa) (R.read s.words t) = 0 ∧ t ≠ frameOf pa := by
  obtain ⟨hframes, hpa, hM, hzero, href⟩ := alloc_one ht.frames h
  have hfresh := ht.fresh hM hzero
  refine ⟨hframes, hpa, hM, hzero, fun f => ?_, hfresh, ?_⟩
  · rw [href]
    simp only [eq_comm (a := f)]
    split <;> rfl
  · intro heq
    have hroot := R.root s.words t
    rw [heq] at hroot hfresh
    omega

theorem page_leaves (v : Word → ℕ) (x : Node Word) : pageLevel.leaves v x = x.sum v 512 :=
  leaves_last 512 (by decide) v x

theorem page_frames (f : ℕ) (m : Words Word) (r : ℕ) :
    pageLevel.frames f (pageReader.read m r) = if r = f then 1 else 0 :=
  frames_last 512 (by decide) f (pageReader.read m r)

theorem copyPageTable_spec : Copies M pageReader copyPageTable := by
  intro t s ht hused
  rw [copyPageTable, copyTable]
  cases halloc : s.buddy.allocPages 0 with
  | none => exact Or.inl rfl
  | some r =>
    obtain ⟨pa, b⟩ := r
    right
    dsimp only
    obtain ⟨hframes, hpa, hM, hzero, href, hapart, htg⟩ := taken_frame ht halloc
    rw [mapNr_eq]
    set g := frameOf pa
    set s₁ : Memory := ⟨b, Function.update s.words g (s.words t)⟩ with hs₁
    have hwt : s₁.words t = s.words t := Function.update_of_ne htg _ _
    have hwg : s₁.words g = s₁.words t := by
      rw [hwt]
      exact Function.update_self ..
    have hread : pageReader.read s₁.words t = pageReader.read s.words t :=
      pageReader.congr _ _ _ (fun f hf => Function.update_of_ne (fun hc => by rw [hc] at hf; omega) _ _)
    have hleaves : ∀ j < 512, ∀ w, leafOf (s₁.words t j) = some w → 0 < s₁.buddy.ref (tableOf w) := by
      intro j hj w hw
      have hfind : pageLevel.find (pageReader.read s.words t) j = leafOf (s.words t j) := by
        refine (find_last s.words t j).trans ?_
        have hidx : (Level.leaf Word).index 512 j = j := by
          have hspan : (Level.leaf Word).span = 1 := rfl
          rw [Level.index, hspan, Nat.div_one, Nat.mod_eq_of_lt hj]
        rw [hidx]
      rw [hwt, ← hfind] at hw
      have hpos := hused j w hw
      change 0 < b.ref (tableOf w)
      rw [href]
      omega
    obtain ⟨s', hloop, hdone⟩ := ptes_spec hframes htg hwg hleaves le_rfl
    -- both tables have the words of the source, as read-only ones
    have hfind : ∀ r (m : Words Word),
        (m r = fun j => if j < 512 then readOnlyWord (s.words t j) else s.words t j) → ∀ n,
        pageLevel.find (pageReader.read m r) n = (pageLevel.find (pageReader.read s.words t) n).map readOnly := by
      intro r m hm n
      have hlt : (Level.leaf Word).index 512 n < 512 := Nat.mod_lt _ (by decide)
      refine (find_last m r n).trans (Eq.trans ?_ (congrArg _ (find_last s.words t n)).symm)
      have hword : m r ((Level.leaf Word).index 512 n) = readOnlyWord (s.words t ((Level.leaf Word).index 512 n)) := by
        rw [hm]
        exact if_pos hlt
      rw [hword, leafOf_readOnly]
    refine ⟨pa, s', fun f => if g = f then 1 else 0, by rw [hloop]; rfl, hpa, hM, hdone.frames, fun f => ?_,
      fun f hf => ?_, fun n => ?_, fun f => ?_, fun n => ?_, fun f => ?_, fun f hf hf' => ?_⟩
    · have hb : s₁.buddy.ref f = s.buddy.ref f+(if g = f then 1 else 0 : ℕ) := href f
      rw [hdone.ref, hread, hb, page_leaves]
    · have hgf : g = f := by
        by_contra hc
        rw [if_neg hc] at hf
        exact Nat.lt_irrefl 0 hf
      rw [← hgf]
      exact ⟨hM, hzero, if_pos rfl⟩
    · exact hfind t s'.words (hdone.source.trans (by rw [hwt])) n
    · rw [page_frames, page_frames]
    · exact hfind g s'.words (hdone.copy.trans (by rw [hwt])) n
    · exact page_frames f _ g
    · have hfg : f ≠ g := by
        rintro rfl
        rw [if_pos rfl] at hf
        cases hf
      have hft : f ≠ t := by
        rintro rfl
        have := pageReader.root s.words f
        omega
      rw [hdone.kept f hft hfg]
      exact Function.update_of_ne hfg _ _

end Leaves

/-! ## Tables of tables -/

/-- One entry before and after its round of the loop. -/
structure EntryLike {α : Type} (L : Level α Word) (e c p : Option α) : Prop where
  ofChild : ∀ n, c.bind (fun x => L.find x n) = (e.bind fun x => L.find x n).map readOnly
  ofParent : ∀ n, p.bind (fun x => L.find x n) = (e.bind fun x => L.find x n).map readOnly
  frames : ∀ f, p.elim 0 (L.frames f) = e.elim 0 (L.frames f)

/-- The first `k` entries of the table are copied; `s` has the words of the table in both. -/
structure EntriesDone {α : Type} {L : Level α Word} (M : Set ℕ) (R : Reader Word L) (size : ℕ) (hsize : 0 < size)
    (t g k : ℕ) (new : ℕ → ℕ) (s s' : Memory) : Prop where
  frames : Frames M s'.buddy
  ref : ∀ f, s'.buddy.ref f =
    s.buddy.ref f+new f+((upTable nextOf R size hsize).read s.words t).sum (L.leaves (maps f)) k
  fresh : ∀ f, 0 < new f → f ∈ M ∧ s.buddy.ref f = 0 ∧ new f = 1
  root : s'.words t = s.words t
  count : ∀ f, ((upTable nextOf R size hsize).read s'.words g).sum (L.frames f) k = new f
  like : ∀ j < k, EntryLike L (((upTable nextOf R size hsize).read s.words t).entry j)
    (((upTable nextOf R size hsize).read s'.words g).entry j)
    (((upTable nextOf R size hsize).read s'.words t).entry j)
  left : ∀ j, k ≤ j → s'.words g j = s.words g j
  kept : ∀ f, new f = 0 → f ≠ g → (∀ j < k, ∀ c, nextOf (s.words t j) = some c →
    L.frames f (R.read s.words c) = 0) → s'.words f = s.words f

section Entries

variable {α : Type} {L : Level α Word} {M : Set ℕ} {R : Reader Word L} {size : ℕ} {hsize : 0 < size}
  {s s₁ s₂ s' : Memory} {t g c d f j k pa : ℕ} {w : Word} {new new' : ℕ → ℕ}

theorem present_bit (w : Word) : present w = w.getLsbD 0 := by
  change decide (w &&& 1#64 ≠ 0) = _
  rw [BitVec.and_one_eq_setWidth_ofBool_getLsbD]
  cases w.getLsbD 0 <;> decide

/-- The link to a copy has the flags of the entry that was copied. -/
theorem nextOf_copy (hw : present w = true) (hpa : pa = frameAddr d) (hd : d < 2 ^ 52) :
    nextOf (BitVec.ofNat 64 pa ||| (w &&& ~~~addrMask)) = some d := by
  have hflags : (w &&& ~~~addrMask).toNat < 4096 := by
    have hmask : (~~~addrMask).toNat = 4095 := by decide
    rw [BitVec.toNat_and, hmask]
    exact Nat.lt_succ_of_le Nat.and_le_right
  have hpresent : present (BitVec.ofNat 64 pa ||| (w &&& ~~~addrMask)) = true := by
    have hlow : (~~~addrMask).getLsbD 0 = true := by decide
    rw [present_bit] at hw ⊢
    rw [BitVec.getLsbD_or, BitVec.getLsbD_and, hw, hlow, Bool.and_true, Bool.or_true]
  rw [nextOf_present hpresent, hpa, tableOf_frameAddr hd hflags]

/-- The tables of the source are none of the new ones. -/
theorem not_new (ht : Tables M R t s) (hfresh : ∀ f, 0 < new f → f ∈ M ∧ s.buddy.ref f = 0 ∧ new f = 1)
    (hf : 0 < L.frames f (R.read s.words t)) : new f = 0 := by
  by_contra hne
  obtain ⟨hM, hzero, -⟩ := hfresh f (Nat.pos_of_ne_zero hne)
  have := ht.used f hf hM
  omega

theorem Used.below (h : Used (upTable nextOf R size hsize) t s) (hk : k < size)
    (hc : nextOf (s.words t k) = some c) : Used R c s := by
  intro n w hw
  apply h (L.span*k+n % L.span) w
  have hblock := L.findUp_block hk (Nat.mod_lt n L.span_pos) ((upTable nextOf R size hsize).read s.words t)
  refine hblock.trans ?_
  rw [entry_read hk, hc]
  change L.find (R.read s.words c) (n % L.span) = some w
  rw [L.find_mod, hw]

/-- A child that the loop has not come to is as it was. -/
theorem EntriesDone.child (h : EntriesDone M R size hsize t g k new s s')
    (ht : Tables M (upTable nextOf R size hsize) t s)
    (hg : (L.up size hsize).frames g ((upTable nextOf R size hsize).read s.words t) = 0) (hk : k < size)
    (hc : nextOf (s.words t k) = some c) :
    R.read s'.words c = R.read s.words c ∧ ∀ f, 0 < L.frames f (R.read s.words c) → s'.words f = s.words f := by
  have hsame : ∀ f, 0 < L.frames f (R.read s.words c) → s'.words f = s.words f := by
    intro f hf
    have hin := @frames_below _ _ _ _ nextOf R size hsize s.words t f k c hk hc
    apply h.kept f (not_new ht h.fresh (by omega))
    · rintro rfl
      omega
    · intro j hj d hd
      have hle := @frames_beside _ _ _ _ nextOf R size hsize s.words t f j k d c (by omega) hk (by omega) hd hc
      have hone := ht.sole f
      omega
  exact ⟨R.congr _ _ _ hsame, hsame⟩

theorem le_sum {v : α → ℕ} {x : Node α} {y : α} (hj : j < k) (hy : x.entry j = some y) : v y ≤ x.sum v k := by
  have hle := Finset.single_le_sum (f := fun i => (x.entry i).elim 0 v) (fun _ _ => Nat.zero_le _)
    (Finset.mem_range.mpr hj)
  simp only [hy, Option.elim_some] at hle
  exact hle

/-- The tables below the entries that are done are where they were. -/
theorem EntriesDone.sameFrames (h : EntriesDone M R size hsize t g k new s s') (hj : j < k) (hk : k ≤ size)
    (hc : nextOf (s.words t j) = some c) (f : ℕ) :
    L.frames f (R.read s'.words c) = L.frames f (R.read s.words c) := by
  have hframes := (h.like j hj).frames f
  have hjs : j < size := Nat.lt_of_lt_of_le hj hk
  rw [entry_read hjs, entry_read hjs, h.root, hc] at hframes
  exact hframes

/-- The round of an entry that leads to a table. -/
theorem EntriesDone.step (h : EntriesDone M R size hsize t g k new s s₁)
    (ht : Tables M (upTable nextOf R size hsize) t s) (htg : t ≠ g) (hg : s.words g = s.words t)
    (hfree : (L.up size hsize).frames g ((upTable nextOf R size hsize).read s.words t) = 0)
    (hown : 0 < s.buddy.ref g) (hk : k < size) (hw : present (s.words t k) = true)
    (hc : nextOf (s.words t k) = some c) (hcopied : Copied M R c pa new' s₁ s₂) :
    EntriesDone M R size hsize t g (k+1) (fun f => new f+new' f) s
      (s₂.setWord g k (BitVec.ofNat 64 pa ||| (s.words t k &&& ~~~addrMask))) := by
  set s₃ := s₂.setWord g k (BitVec.ofNat 64 pa ||| (s.words t k &&& ~~~addrMask)) with hs₃
  set d := frameOf pa with hd
  obtain ⟨hchild, hsame⟩ := h.child ht hfree hk hc
  have hinside : ∀ {f j c}, j < size → nextOf (s.words t j) = some c → 0 < L.frames f (R.read s.words c) →
      0 < (L.up size hsize).frames f ((upTable nextOf R size hsize).read s.words t) := by
    intro f j c hj hc hf
    exact Nat.lt_of_lt_of_le (Nat.add_pos_right _ hf) (frames_below hj hc)
  -- what was counted before is not taken now
  have hcounted : ∀ f, 0 < s₁.buddy.ref f → new' f = 0 := by
    intro f hpos
    by_contra hne
    have := (hcopied.fresh f (Nat.pos_of_ne_zero hne)).2.1
    omega
  have hraised : ∀ f, s.buddy.ref f ≤ s₁.buddy.ref f := fun f => by rw [h.ref]; omega
  have hgnew : new' g = 0 := hcounted g (lt_of_lt_of_le hown (hraised g))
  have hgold : new g = 0 := by
    by_contra hne
    have := (h.fresh g (Nat.pos_of_ne_zero hne)).2.1
    omega
  have htable : ∀ f, 0 < (L.up size hsize).frames f ((upTable nextOf R size hsize).read s.words t) → new' f = 0 := by
    intro f hf
    by_contra hne
    obtain ⟨hM, hzero, -⟩ := hcopied.fresh f (Nat.pos_of_ne_zero hne)
    have := ht.used f hf hM
    have := hraised f
    omega
  have hother : ∀ f, f ≠ g → s₃.words f = s₂.words f := fun f hf => Function.update_of_ne hf _ _
  have hcount' : ∀ f, L.frames f (R.read s₁.words c) = L.frames f (R.read s.words c) := fun f => by rw [hchild]
  -- a frame that is neither new nor below the child
  have hstays : ∀ f, new' f = 0 → L.frames f (R.read s.words c) = 0 → s₂.words f = s₁.words f :=
    fun f hnew hf => hcopied.kept f hnew (by rw [hcount', hf])
  have hgin : L.frames g (R.read s.words c) = 0 := by
    by_contra hne
    have := hinside hk hc (Nat.pos_of_ne_zero hne)
    omega
  have hgwords : s₂.words g = s₁.words g := hstays g hgnew hgin
  have hsole := ht.sole
  have hroot : s₃.words t = s.words t := by
    rw [hother t htg, ← h.root]
    apply hstays t (htable t ((upTable nextOf R size hsize).root s.words t))
    have hle := @frames_below _ _ _ _ nextOf R size hsize s.words t t k c hk hc
    have hone := hsole t
    rw [if_pos rfl] at hle
    omega
  -- the children of the entries before, in the source and in the copy
  have hsources : ∀ j < k, ∀ e, nextOf (s.words t j) = some e → R.read s₃.words e = R.read s₁.words e := by
    intro j hj e he
    apply R.congr
    intro f hf
    rw [h.sameFrames hj hk.le he] at hf
    have hin := hinside (Nat.lt_trans hj hk) he hf
    have hfg : f ≠ g := by
      rintro rfl
      omega
    have hle := @frames_beside _ _ _ _ nextOf R size hsize s.words t f j k e c (by omega) hk (by omega) he hc
    have hone := hsole f
    rw [hother f hfg]
    exact hstays f (htable f hin) (by omega)
  have hcopies : ∀ j < k, ∀ e, nextOf (s₁.words g j) = some e → R.read s₃.words e = R.read s₁.words e := by
    intro j hj e he
    apply R.congr
    intro f hf
    have hentry : ((upTable nextOf R size hsize).read s₁.words g).entry j = some (R.read s₁.words e) := by
      rw [entry_read (Nat.lt_trans hj hk), he]
      rfl
    have hle := @le_sum _ _ _ (L.frames f) _ _ hj hentry
    rw [h.count] at hle
    have hfg : f ≠ g := by
      rintro rfl
      omega
    have hpos : 0 < s₁.buddy.ref f := by
      have := ht.frames.nonneg (h.fresh f (by omega)).1
      rw [h.ref]
      omega
    rw [hother f hfg]
    apply hstays f (hcounted f hpos)
    by_contra hne
    have := not_new ht h.fresh (hinside hk hc (Nat.pos_of_ne_zero hne))
    omega
  have hnew : R.read s₃.words d = R.read s₂.words d := by
    apply R.congr
    intro f hf
    rw [hcopied.count] at hf
    exact hother f (by rintro rfl; omega)
  have hold : R.read s₃.words c = R.read s₂.words c := by
    apply R.congr
    intro f hf
    rw [hcopied.same, hcount'] at hf
    exact hother f (by rintro rfl; omega)
  have hentries : ∀ j < k, ((upTable nextOf R size hsize).read s₃.words g).entry j =
      ((upTable nextOf R size hsize).read s₁.words g).entry j := by
    intro j hj
    have hword : s₃.words g j = s₁.words g j := by
      rw [hs₃, Memory.setWord]
      dsimp only
      rw [Function.update_self, Function.update_of_ne (Nat.ne_of_lt hj), hgwords]
    rw [entry_read (Nat.lt_trans hj hk), entry_read (Nat.lt_trans hj hk), hword]
    cases he : nextOf (s₁.words g j) with
    | none => rfl
    | some e => exact congrArg some (hcopies j hj e he)
  have hparents : ∀ j < k, ((upTable nextOf R size hsize).read s₃.words t).entry j =
      ((upTable nextOf R size hsize).read s₁.words t).entry j := by
    intro j hj
    rw [entry_read (Nat.lt_trans hj hk), entry_read (Nat.lt_trans hj hk), hroot, h.root]
    cases he : nextOf (s.words t j) with
    | none => rfl
    | some e => exact congrArg some (hsources j hj e he)
  have hbound : d < 2 ^ 52 := by
    obtain ⟨G, hR, -⟩ := hcopied.frames
    exact hR.bounded _ hcopied.table
  have hentry : ((upTable nextOf R size hsize).read s₃.words g).entry k = some (R.read s₂.words d) := by
    have hword : s₃.words g k = BitVec.ofNat 64 pa ||| (s.words t k &&& ~~~addrMask) := by
      rw [hs₃, Memory.setWord]
      dsimp only
      rw [Function.update_self, Function.update_self]
    rw [entry_read hk, hword, nextOf_copy hw hcopied.address hbound, ← hnew]
    rfl
  have hparent : ((upTable nextOf R size hsize).read s₃.words t).entry k = some (R.read s₂.words c) := by
    rw [entry_read hk, hroot, hc, ← hold]
    rfl
  have hsource : ((upTable nextOf R size hsize).read s.words t).entry k = some (R.read s.words c) := by
    rw [entry_read hk, hc]
    rfl
  refine ⟨hcopied.frames, fun f => ?_, fun f hf => ?_, hroot, fun f => ?_, fun j hj => ?_, fun j hj => ?_,
    fun f hf hfg hbelow => ?_⟩
  · have href : s₃.buddy.ref f = s₁.buddy.ref f+new' f+L.leaves (maps f) (R.read s₁.words c) := hcopied.ref f
    rw [href, h.ref, hchild, Node.sum_succ, hsource, Option.elim_some]
    push_cast
    ring
  · by_cases hold : 0 < new f
    · obtain ⟨hM, hzero, hone⟩ := h.fresh f hold
      have hpos : 0 < s₁.buddy.ref f := by
        have := ht.frames.nonneg hM
        rw [h.ref]
        omega
      have := hcounted f hpos
      exact ⟨hM, hzero, by omega⟩
    · obtain ⟨hM, hzero, hone⟩ := hcopied.fresh f (by omega)
      have := ht.frames.nonneg hM
      have := hraised f
      exact ⟨hM, by omega, by omega⟩
  · rw [Node.sum_succ, hentry, Option.elim_some, hcopied.count, Node.sum_congr _ hentries, h.count]
  · rcases Nat.lt_succ_iff_lt_or_eq.mp hj with hj | rfl
    · rw [hentries j hj, hparents j hj]
      exact h.like j hj
    · rw [hsource, hentry, hparent]
      refine ⟨fun n => ?_, fun n => ?_, fun f => ?_⟩
      · change L.find (R.read s₂.words d) n = (L.find (R.read s.words c) n).map readOnly
        rw [hcopied.copy, hchild]
      · change L.find (R.read s₂.words c) n = (L.find (R.read s.words c) n).map readOnly
        rw [hcopied.source, hchild]
      · change L.frames f (R.read s₂.words c) = L.frames f (R.read s.words c)
        rw [hcopied.same, hchild]
  · have hword : s₃.words g j = s₂.words g j := by
      rw [hs₃, Memory.setWord]
      dsimp only
      rw [Function.update_self, Function.update_of_ne (by omega)]
    rw [hword, hgwords, h.left j (by omega)]
  · rw [hother f hfg, hstays f (by omega) (hbelow k (Nat.lt_succ_self k) c hc)]
    exact h.kept f (by omega) hfg (fun j hj => hbelow j (Nat.lt_succ_of_lt hj))

theorem EntriesDone.skip (h : EntriesDone M R size hsize t g k new s s') (hg : s.words g = s.words t)
    (hk : k < size) (hc : nextOf (s.words t k) = none) : EntriesDone M R size hsize t g (k+1) new s s' := by
  have hsource : ((upTable nextOf R size hsize).read s.words t).entry k = none := by
    rw [entry_read hk, hc]
    rfl
  have hentry : ((upTable nextOf R size hsize).read s'.words g).entry k = none := by
    rw [entry_read hk, h.left k le_rfl, hg, hc]
    rfl
  have hparent : ((upTable nextOf R size hsize).read s'.words t).entry k = none := by
    rw [entry_read hk, h.root, hc]
    rfl
  refine ⟨h.frames, fun f => ?_, h.fresh, h.root, fun f => ?_, fun j hj => ?_, fun j hj => h.left j (by omega),
    fun f hf hfg hbelow => h.kept f hf hfg (fun j hj => hbelow j (by omega))⟩
  · rw [Node.sum_succ, hsource, Option.elim_none, Nat.add_zero, h.ref]
  · rw [Node.sum_succ, hentry, Option.elim_none, Nat.add_zero, h.count]
  · rcases Nat.lt_succ_iff_lt_or_eq.mp hj with hj | rfl
    · exact h.like j hj
    · rw [hsource, hentry, hparent]
      exact ⟨fun _ => rfl, fun _ => rfl, fun _ => rfl⟩

theorem entries_spec {copy : ℕ → Memory → Except Panic (ℕ × Memory)} {entry : ℕ → Memory → Except Panic Memory}
    (hcopy : Copies M R copy) (hentry : ∀ i s, s.words g i = s.words t i → entry i s = copyEntry copy t g i s)
    (ht : Tables M (upTable nextOf R size hsize) t s) (hused : Used (upTable nextOf R size hsize) t s)
    (htg : t ≠ g) (hg : s.words g = s.words t)
    (hfree : (L.up size hsize).frames g ((upTable nextOf R size hsize).read s.words t) = 0)
    (hown : 0 < s.buddy.ref g) (hk : k ≤ size) :
    forEntries entry k s = .error .noPage ∨
      ∃ s' new, forEntries entry k s = .ok s' ∧ EntriesDone M R size hsize t g k new s s' := by
  induction k with
  | zero =>
    refine Or.inr ⟨s, fun _ => 0, rfl, ht.frames, by simp [Node.sum], fun _ hf => absurd hf (Nat.lt_irrefl 0), rfl,
      by simp [Node.sum], fun _ hj => absurd hj (Nat.not_lt_zero _), fun _ _ => rfl, fun _ _ _ _ => rfl⟩
  | succ k ih =>
    rw [forEntries]
    rcases ih (by omega) with hfailed | ⟨s₁, new, hloop, hdone⟩
    · exact Or.inl (by rw [hfailed]; rfl)
    rw [hloop]
    change entry k s₁ = _ ∨ ∃ s' new, entry k s₁ = _ ∧ _
    have hword : s₁.words t k = s.words t k := by rw [hdone.root]
    rw [hentry k s₁ (by rw [hword, hdone.left k le_rfl, hg]), copyEntry, hword]
    cases hpresent : present (s.words t k) with
    | false => exact Or.inr ⟨s₁, new, rfl, hdone.skip hg (by omega) (nextOf_absent hpresent)⟩
    | true =>
      have hc := nextOf_present hpresent
      set c := tableOf (s.words t k)
      obtain ⟨hchild, -⟩ := hdone.child ht hfree (by omega) hc
      have hbelow : Tables M R c s := ht.below (by omega) hc
      have hraised : ∀ f, s.buddy.ref f ≤ s₁.buddy.ref f := fun f => by rw [hdone.ref]; omega
      have htables : Tables M R c s₁ := by
        refine ⟨hdone.frames, ?_, fun f hf hM => ?_⟩
        · rw [hchild]
          exact hbelow.sole
        · rw [hchild] at hf
          exact lt_of_lt_of_le (hbelow.used f hf hM) (hraised f)
      have hleaves : Used R c s₁ := by
        intro n w hw
        rw [hchild] at hw
        exact lt_of_lt_of_le (hused.below (by omega) hc n w hw) (hraised _)
      rcases hcopy c s₁ htables hleaves with hfailed | ⟨pa, s₂, new', hok, hcopied⟩
      · exact Or.inl (by simp [hfailed])
      · refine Or.inr ⟨s₂.setWord g k (BitVec.ofNat 64 pa ||| (s.words t k &&& ~~~addrMask)), _, by simp [hok],
          hdone.step ht htg hg hfree hown (by omega) hpresent hc hcopied⟩

/-- A loop that is done has copied the table. The words past the loop stay in both. -/
theorem copyTable_spec {copy : ℕ → Memory → Except Panic (ℕ × Memory)}
    {entry : ℕ → ℕ → Memory → Except Panic Memory} (hcopy : Copies M R copy)
    (hentry : ∀ g i s, s.words g i = s.words t i → entry g i s = copyEntry copy t g i s)
    (ht : Tables M (upTable nextOf R size hsize) t s) (hused : Used (upTable nextOf R size hsize) t s) :
    copyTable entry size t s = .error .noPage ∨
      ∃ pa s' new, copyTable entry size t s = .ok (pa, s') ∧
        Copied M (upTable nextOf R size hsize) t pa new s s' ∧
        s'.words t = s.words t ∧ ∀ i, size ≤ i → s'.words (frameOf pa) i = s.words t i := by
  rw [copyTable]
  cases halloc : s.buddy.allocPages 0 with
  | none => exact Or.inl rfl
  | some r =>
    obtain ⟨pa, b⟩ := r
    dsimp only
    obtain ⟨hframes, hpa, hM, hzero, href, hapart, htg⟩ := taken_frame ht halloc
    rw [mapNr_eq]
    set g := frameOf pa
    set s₁ : Memory := ⟨b, Function.update s.words g (s.words t)⟩ with hs₁
    have hwt : s₁.words t = s.words t := Function.update_of_ne htg _ _
    have hwg : s₁.words g = s.words t := Function.update_self ..
    have hother : ∀ f, f ≠ g → s₁.words f = s.words f := fun f hf => Function.update_of_ne hf _ _
    have hread : (upTable nextOf R size hsize).read s₁.words t = (upTable nextOf R size hsize).read s.words t :=
      (upTable nextOf R size hsize).congr _ _ _ (fun f hf => hother f (fun hc => by rw [hc] at hf; omega))
    have hraised : ∀ f, s.buddy.ref f ≤ s₁.buddy.ref f := fun f => by
      have := href f
      change s.buddy.ref f ≤ b.ref f
      omega
    have htables : Tables M (upTable nextOf R size hsize) t s₁ := by
      refine ⟨hframes, ?_, fun f hf hM => ?_⟩
      · rw [hread]
        exact ht.sole
      · rw [hread] at hf
        exact lt_of_lt_of_le (ht.used f hf hM) (hraised f)
    have hleaves : Used (upTable nextOf R size hsize) t s₁ := by
      intro n w hw
      rw [hread] at hw
      exact lt_of_lt_of_le (hused n w hw) (hraised _)
    have hown : 0 < s₁.buddy.ref g := by
      have := href g
      rw [if_pos rfl] at this
      change 0 < b.ref g
      omega
    rcases entries_spec hcopy (hentry g) htables hleaves htg (hwg.trans hwt.symm) (by rw [hread]; exact hapart)
      hown le_rfl with hfailed | ⟨s', new, hloop, hdone⟩
    · exact Or.inl (by rw [hfailed]; rfl)
    refine Or.inr ⟨pa, s', fun f => (if g = f then 1 else 0)+new f, by rw [hloop]; rfl,
      ⟨hpa, hM, hdone.frames, fun f => ?_, fun f hf => ?_, fun n => ?_, fun f => ?_, fun n => ?_, fun f => ?_,
        fun f hf hf' => ?_⟩, ?_, fun i hi => ?_⟩
    · have hb : s₁.buddy.ref f = s.buddy.ref f+(if g = f then 1 else 0 : ℕ) := href f
      have hsum := hdone.ref f
      rw [hread, hb] at hsum
      rw [hsum]
      push_cast
      change _ = s.buddy.ref f+_+(((upTable nextOf R size hsize).read s.words t).sum (L.leaves (maps f)) size : ℤ)
      ring
    · by_cases hgf : g = f
      · have hnew : new f = 0 := by
          by_contra hne
          have := (hdone.fresh f (Nat.pos_of_ne_zero hne)).2.1
          rw [← hgf] at this
          omega
        rw [← hgf, if_pos rfl]
        rw [← hgf] at hnew
        exact ⟨hM, hzero, by omega⟩
      · rw [if_neg hgf] at hf ⊢
        obtain ⟨hfM, hfzero, hone⟩ := hdone.fresh f (by omega)
        have := ht.frames.nonneg hfM
        have := hraised f
        exact ⟨hfM, by omega, by omega⟩
    · have hlike := (hdone.like (L.index size n) (Nat.mod_lt _ hsize)).ofParent n
      rw [hread] at hlike
      exact hlike
    · change (if t = f then 1 else 0)+((upTable nextOf R size hsize).read s'.words t).sum (L.frames f) size =
        (if t = f then 1 else 0)+((upTable nextOf R size hsize).read s.words t).sum (L.frames f) size
      congr 1
      apply Finset.sum_congr rfl
      intro j hj
      have hlike := (hdone.like j (Finset.mem_range.mp hj)).frames f
      rwa [hread] at hlike
    · have hlike := (hdone.like (L.index size n) (Nat.mod_lt _ hsize)).ofChild n
      rw [hread] at hlike
      exact hlike
    · change (if g = f then 1 else 0)+((upTable nextOf R size hsize).read s'.words g).sum (L.frames f) size = _
      rw [hdone.count]
    · have hfg : f ≠ g := by
        rintro rfl
        rw [if_pos rfl] at hf
        omega
      rw [← hother f hfg]
      apply hdone.kept f (by omega) hfg
      intro j hj c hc
      have hchild : nextOf (s.words t j) = some c := by rw [← hwt, hc]
      have hle := @frames_below _ _ _ _ nextOf R size hsize s.words t f j c hj hchild
      have hsame : R.read s₁.words c = R.read s.words c := by
        apply R.congr
        intro f hf
        apply hother
        rintro rfl
        have hin := @frames_below _ _ _ _ nextOf R size hsize s.words t g j c hj hchild
        omega
      rw [hsame]
      omega
    · rw [hdone.root, hwt]
    · rw [hdone.left i hi, hwg]

end Entries

/-! ## The address space -/

/-- The number of user pages that map frame `f`. -/
def leafCount (s : Memory) (pml4Table f : ℕ) : ℕ :=
  ∑ n ∈ Finset.range (2 ^ 35), (pml4Level.find (tree s pml4Table) n).elim 0 (maps f)

section Spaces

variable {M : Set ℕ} {s s' : Memory} {t : ℕ}

theorem copyPdTable_spec : Copies M pdReader copyPdTable := by
  intro t s ht hused
  refine (copyTable_spec copyPageTable_spec (fun _ _ _ _ => rfl) ht hused).imp_right ?_
  rintro ⟨pa, s', new, hok, hcopied, -⟩
  exact ⟨pa, s', new, hok, hcopied⟩

theorem copyPdpTable_spec : Copies M pdpReader copyPdpTable := by
  intro t s ht hused
  refine (copyTable_spec copyPdTable_spec (fun _ _ _ _ => rfl) ht hused).imp_right ?_
  rintro ⟨pa, s', new, hok, hcopied, -⟩
  exact ⟨pa, s', new, hok, hcopied⟩

theorem setWord_self {g i : ℕ} {w : Word} (h : s.words g i = w) : s.setWord g i w = s := by
  rw [Memory.setWord, ← h, Function.update_eq_self, Function.update_eq_self]

theorem vaToPa_readOnly {r r' : ℕ} (h : ∀ n, pml4Level.find (tree s' r') n = (pml4Level.find (tree s r) n).map readOnly)
    {va : ℕ} (hva : va < userVmSize) : vaToPa s' r' va = vaToPa s r va := by
  rw [vaToPa_eq s' r' hva, vaToPa_eq s r hva, h]
  cases pml4Level.find (tree s r) (va / 4096) with
  | none => rfl
  | some w =>
    change (readOnly w &&& addrMask)+_ = (w &&& addrMask)+_
    rw [readOnly_address]

/-- `copy_pml4_table` fails only where `alloc_pages` finds no page. The two address spaces
translate as the source did; their user tables are apart; the leaves of both are those of
the source without `PTE_W`; the kernel halves are the same words; and each count grows by
the number of user pages that map the frame, but for the new tables, which were free. -/
theorem tables_copied (ht : Tables M pml4Reader t s) (hused : Used pml4Reader t s) :
    copyPml4Table t s = .error .noPage ∨
      ∃ pa s', ∃ new : ℕ → ℕ, copyPml4Table t s = .ok (pa, s') ∧
        (∀ va < userVmSize, vaToPa s' (frameOf pa) va = vaToPa s t va ∧ vaToPa s' t va = vaToPa s t va) ∧
        (∀ f, pml4Level.frames f (tree s' t) = 0 ∨ pml4Level.frames f (tree s' (frameOf pa)) = 0) ∧
        (∀ n, pml4Level.find (tree s' (frameOf pa)) n = (pml4Level.find (tree s t) n).map readOnly ∧
          pml4Level.find (tree s' t) n = (pml4Level.find (tree s t) n).map readOnly) ∧
        (∀ i, 256 ≤ i → s'.words (frameOf pa) i = s.words t i) ∧ s'.words t = s.words t ∧
        (∀ f, s'.buddy.ref f = s.buddy.ref f+new f+leafCount s t f) ∧
        (∀ f, new f = pml4Level.frames f (tree s' (frameOf pa))) ∧
        (∀ f, 0 < new f → f ∈ M ∧ s.buddy.ref f = 0 ∧ new f = 1) ∧
        Tables M pml4Reader t s' ∧ Tables M pml4Reader (frameOf pa) s' := by
  have hstored : ∀ ret i s, s.words ret i = s.words t i →
      copyEntry copyPdpTable t ret i (s.setWord ret i (s.words t i)) = copyEntry copyPdpTable t ret i s := by
    intro ret i s h
    rw [setWord_self h]
  refine (copyTable_spec copyPdpTable_spec hstored ht hused).imp_right ?_
  rintro ⟨pa, s', new, hok, hcopied, hroot, hkernel⟩
  change Copied M pml4Reader t pa new s s' at hcopied
  have hcount : ∀ f, pml4Level.leaves (maps f) (tree s t) = leafCount s t f :=
    fun f => pml4Level.leaves_eq (maps f) (tree s t)
  have hraised : ∀ f, s.buddy.ref f+new f ≤ s'.buddy.ref f := by
    intro f
    rw [hcopied.ref]
    omega
  have hapart : ∀ f, pml4Level.frames f (tree s' t) = 0 ∨ pml4Level.frames f (tree s' (frameOf pa)) = 0 := by
    intro f
    by_cases hf : 0 < pml4Level.frames f (tree s t)
    · exact Or.inr ((hcopied.count f).trans (not_new ht hcopied.fresh hf))
    · exact Or.inl ((hcopied.same f).trans (Nat.eq_zero_of_not_pos hf))
  refine ⟨pa, s', new, hok, fun va hva => ⟨vaToPa_readOnly hcopied.copy hva, vaToPa_readOnly hcopied.source hva⟩,
    hapart, fun n => ⟨hcopied.copy n, hcopied.source n⟩, hkernel, hroot, fun f => ?_, fun f => (hcopied.count f).symm,
    hcopied.fresh, ⟨hcopied.frames, fun f => ?_, fun f hf hM => ?_⟩, ⟨hcopied.frames, fun f => ?_, fun f hf hM => ?_⟩⟩
  · rw [← hcount]
    exact hcopied.ref f
  · exact (hcopied.same f).le.trans (ht.sole f)
  · rw [hcopied.same] at hf
    have := ht.used f hf hM
    have := hraised f
    omega
  · rw [hcopied.count]
    by_contra hc
    have := (hcopied.fresh f (by omega)).2.2
    omega
  · rw [hcopied.count] at hf
    have := (hcopied.fresh f hf).2.1
    have := hraised f
    omega

end Spaces

/-! ## The copy of one page -/

/-- Page 1 is mapped to frame 2046. -/
def mapOne (b : Buddy) : Outcome Memory := mapFrom 2047 0x2000 6 1 0x1000 0x7fe000 ⟨b, fun _ _ => 0⟩

def onePage : Memory :=
  match empty.buddy.allocPages 0 with
  | none => empty
  | some (_, b) => match mapOne b with
    | .done s => s
    | _ => empty

theorem page_alloc : ∃ b, empty.buddy.allocPages 0 = some (frameAddr 2046, b) := by
  have hpage : (empty.buddy.allocPages 0).map Prod.fst = some (frameAddr 2046) := by decide +kernel
  obtain ⟨⟨pa, b⟩, hb, rfl⟩ := Option.map_eq_some_iff.mp hpage
  exact ⟨b, hb⟩

theorem mapOne_spec {M : Set ℕ} {b : Buddy} (h : Tables M pml4Reader 2047 ⟨b, fun _ _ => 0⟩) :
    mapOne b = .failed ∨ ∃ s new, mapOne b = .done s ∧
      Mapped M 2047 (leafWord 0x1000 0x7fe000 6) 1 2 new ⟨b, fun _ _ => 0⟩ s := by
  have hspec := @mapFrom_spec M _ 2047 0x2000 0x1000 0x1000 1 0x7fe000 6 h (by decide) (by decide) (by decide)
    le_rfl (by decide) (by decide)
  rw [Nat.sub_self, BitVec.add_zero] at hspec
  exact hspec

theorem onePage_used : Tables {f | BuddyBoot.Managed BuddyRun.small f} pml4Reader 2047 onePage ∧
    Used pml4Reader 2047 onePage := by
  have hblank : ∀ n, pml4Level.find (tree empty 2047) n = none :=
    (read_blank (fun i _ => nextOf_absent present_zero)).1
  have hnone : Used pml4Reader 2047 empty := by
    intro n w hw
    cases (hblank n).symm.trans hw
  obtain ⟨b, hb⟩ := page_alloc
  obtain ⟨hframes, -, hM, -, href⟩ := alloc_one empty_tables.frames hb
  have hroot : 0 < b.ref 2047 := by
    have hother : (2047 : ℕ) ≠ frameOf (frameAddr 2046) := by decide +kernel
    have hsame := href 2047
    rw [if_neg hother, add_zero] at hsame
    rw [hsame]
    exact empty_tables.used 2047 (pml4Reader.root empty.words 2047) CopyOnWrite.origin_frames.2.1
  have htables := blank_tables hframes hroot
  rw [onePage, hb]
  dsimp only
  rcases mapOne_spec htables with hfailed | ⟨s, new, hdone, hmapped⟩
  · rw [hfailed]
    exact ⟨empty_tables, hnone⟩
  · rw [hdone]
    refine ⟨hmapped.taken.tables htables, fun n w hw => ?_⟩
    have hspan : pml4Level.span = 2 ^ 35 := rfl
    rw [← pml4Level.find_mod] at hw
    change pml4Level.find (tree s 2047) _ = some w at hw
    rw [hmapped.find _ (hspan ▸ Nat.mod_lt n pml4Level.span_pos)] at hw
    split at hw
    next hpage =>
      cases hw
      rw [show n % pml4Level.span = 1 by omega, hmapped.taken.ref]
      have hframe : tableOf (leafWord 0x1000 0x7fe000 6 1) = frameOf (frameAddr 2046) := by decide +kernel
      have hown := empty_tables.frames.nonneg hM
      have hone := href (frameOf (frameAddr 2046))
      rw [if_pos rfl] at hone
      change 0 < b.ref _+_
      rw [hframe]
      omega
    next => cases (hblank _).symm.trans hw

theorem copyPml4Table_one : ∃ pa s', copyPml4Table 2047 onePage = .ok (pa, s') ∧
    vaToPa onePage 2047 0x1000 = 0x7fe000 ∧ vaToPa s' (frameOf pa) 0x1000 = 0x7fe000 := by
  have haddress : vaToPa onePage 2047 0x1000 = 0x7fe000 := by decide +kernel
  have hok : (copyPml4Table 2047 onePage).isOk = true := by decide +kernel
  rcases tables_copied onePage_used.1 onePage_used.2 with hfailed | ⟨pa, s', new, hcopy, hsame, -⟩
  · rw [hfailed] at hok
    cases hok
  · exact ⟨pa, s', hcopy, haddress, (hsame 0x1000 (by decide)).1.trans haddress⟩

end BabyOS.TableCopies
