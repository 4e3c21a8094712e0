import BabyOS.HeapMachine

/-!
# Blocks of the heap

`free` does nothing, so all blocks are allocated but for one, which is always the
last: each call cuts the new block off its front, and `extend_heap` makes it
longer. `Settled` describes the heap between the calls, `Ready` the heap when the
free block is in no list.
-/

set_option autoImplicit false

namespace BabyOS.HeapBlocks
open BabyOS.ByteWords BabyOS.HeapMachine

/-! ## Words with flags -/

section Words

variable {h : Heap} {p q v s : ℕ} {prev alloc : Bool}

theorem get_put : get (put p v h) p = v%2^64 := word_putWord _ _ _ _

theorem get_put_other (hd : q+8 ≤ p ∨ p+8 ≤ q) : get (put p v h) q = get h q :=
  word_putWord_other _ hd

theorem put_mem (hx : q < p ∨ p+8 ≤ q) : (put p v h).mem q = h.mem q := putWord_other _ hx

theorem get_congr {h' : Heap} (hmem : ∀ x, p ≤ x → x < p+8 → h'.mem x = h.mem x) : get h' p = get h p :=
  word_congr hmem

theorem pack_eq (hs : 16 ∣ s) : pack s prev alloc = s+alloc.toNat+2*prev.toNat := by
  obtain ⟨k, rfl⟩ := hs
  have hor : ∀ f < 2^4, 2^4*k ||| f = 2^4*k+f := fun f hf => (Nat.two_pow_add_eq_or_of_lt hf k).symm
  change pack (2^4*k) prev alloc = 2^4*k+alloc.toNat+2*prev.toNat
  cases prev <;> cases alloc
  · rfl
  · exact hor 1 (by decide)
  · exact hor 2 (by decide)
  · change (2^4*k ||| 1) ||| 2 = _
    rw [Nat.or_assoc]
    exact hor 3 (by decide)

theorem pack_lt (hs : 16 ∣ s) (hlt : s < 2^64) : pack s prev alloc < 2^64 := by
  rw [pack_eq hs]
  have ha := Bool.toNat_le alloc
  have hp := Bool.toNat_le prev
  omega

theorem sizeBits_eq {w : ℕ} (hw : w < 2^64) : sizeBits w = w/8*8 := by
  have hmask : (2^64-8 : ℕ) = (2^61-1) <<< 3 := by decide
  have hshift : w/8*8 = (w >>> 3) <<< 3 := by
    rw [Nat.shiftLeft_eq, Nat.shiftRight_eq_div_pow]
  rw [sizeBits, hmask, hshift]
  refine Nat.eq_of_testBit_eq fun i => ?_
  rw [Nat.testBit_and, Nat.testBit_shiftLeft, Nat.testBit_shiftLeft, Nat.testBit_two_pow_sub_one,
    Nat.testBit_shiftRight]
  by_cases hi : 3 ≤ i
  · have hadd : 3+(i-3) = i := by omega
    rw [hadd]
    by_cases hlt : i < 64
    · have hlow : i-3 < 61 := by omega
      simp [hi, hlow]
    · have hzero : w.testBit i = false :=
        Nat.testBit_lt_two_pow (hw.trans_le (Nat.pow_le_pow_right (by decide) (not_lt.mp hlt)))
      rw [hzero]
      simp
  · simp [hi]

/-- What a tag says. -/
theorem tag_size (hs : 16 ∣ s) (hlt : s < 2^64) (ht : get h p = pack s prev alloc) : getSize h p = s := by
  have ha := Bool.toNat_le alloc
  have hp := Bool.toNat_le prev
  rw [getSize, ht, sizeBits_eq (pack_lt hs hlt), pack_eq hs]
  omega

theorem tag_alloc (hs : 16 ∣ s) (ht : get h p = pack s prev alloc) : getAlloc h p = alloc := by
  rw [getAlloc, ht, Nat.and_one_is_mod, pack_eq hs]
  cases alloc
  · have hz : (s+Bool.toNat false+2*prev.toNat)%2 = 0 := by
      rw [Bool.toNat_false]
      omega
    rw [hz]
    rfl
  · have hz : (s+Bool.toNat true+2*prev.toNat)%2 = 1 := by
      rw [Bool.toNat_true]
      omega
    rw [hz]
    rfl

theorem tag_prev (hs : 16 ∣ s) (ht : get h p = pack s prev alloc) : getPrevAlloc h p = prev := by
  have ha := Bool.toNat_le alloc
  have hand : ∀ w : ℕ, w &&& 2 = (w.testBit 1).toNat*2 := fun w => Nat.and_two_pow w 1
  rw [getPrevAlloc, ht, hand, Nat.testBit_eq_decide_div_mod_eq, pack_eq hs]
  cases prev
  · have hz : (s+alloc.toNat+2*Bool.toNat false)/2^1%2 ≠ 1 := by
      rw [Bool.toNat_false]
      omega
    rw [decide_eq_false hz]
    rfl
  · have hz : (s+alloc.toNat+2*Bool.toNat true)/2^1%2 = 1 := by
      rw [Bool.toNat_true]
      omega
    rw [decide_eq_true hz]
    rfl

theorem get_put_tag (hs : 16 ∣ s) (hlt : s < 2^64) :
    get (put p (pack s prev alloc) h) p = pack s prev alloc := by
  rw [get_put, Nat.mod_eq_of_lt (pack_lt hs hlt)]

theorem minus_eq {a b : ℕ} (hle : b ≤ a) (hlt : a < 2^64) : minus a b = a-b := by
  rw [minus]
  omega

end Words

/-! ## Size classes -/

/-- A class at least `k` that grows with the size. -/
def Ladder (k : ℕ) (f : ℕ → ℕ) : Prop := Monotone f ∧ ∀ n, k ≤ f n

theorem ladder_top (k : ℕ) : Ladder k fun _ => k := ⟨monotone_const, fun _ => le_refl k⟩

theorem ladder_step {k : ℕ} {f : ℕ → ℕ} (b : ℕ) (h : Ladder (k+1) f) :
    Ladder k fun n => if n ≤ b then k else f n := by
  have ⟨hmono, hge⟩ := h
  refine ⟨fun m n hmn => ?_, fun n => ?_⟩
  · by_cases hn : n ≤ b
    · simp only [if_pos hn, if_pos (hmn.trans hn), le_refl]
    · simp only [if_neg hn]
      split
      · exact (Nat.le_succ k).trans (hge n)
      · exact hmono hmn
  · by_cases hn : n ≤ b
    · simp only [if_pos hn, le_refl]
    · simp only [if_neg hn]
      exact (Nat.le_succ k).trans (hge n)

theorem headId_ladder : Ladder 0 getFreeListHeadId :=
  ladder_step _ (ladder_step _ (ladder_step _ (ladder_step _ (ladder_step _ (ladder_step _
    (ladder_step _ (ladder_step _ (ladder_step _ (ladder_step _ (ladder_step _ (ladder_top 11)))))))))))

theorem headId_mono {m n : ℕ} (h : m ≤ n) : getFreeListHeadId m ≤ getFreeListHeadId n := headId_ladder.1 h

theorem headId_lt (n : ℕ) : getFreeListHeadId n < freeListNum := by
  have hlast : getFreeListHeadId (max n 32769) = 11 := by
    have hge := le_max_right n 32769
    rw [getFreeListHeadId]
    repeat rw [if_neg (by omega)]
  have hle := headId_mono (le_max_left n 32769)
  rw [hlast] at hle
  exact Nat.lt_succ_of_le hle

/-! ## Allocated blocks in a row -/

structure Block where
  start : ℕ
  size : ℕ
deriving DecidableEq

/-- The bytes that the program may use. -/
def Block.Payload (b : Block) (x : ℕ) : Prop := b.start ≤ x ∧ x+8 < b.start+b.size

/-- Blocks from `p` up to `t`. -/
def Row (h : Heap) : ℕ → ℕ → List Block → Prop
  | p, t, [] => p = t
  | p, t, b :: bs => b.start = p ∧ 16 ∣ b.size ∧ 32 ≤ b.size ∧ b.size < 2^64 ∧
      get h (hdrp p) = pack b.size true true ∧ Row h (p+b.size) t bs

section Rows

variable {h h' : Heap} {p t : ℕ} {bs : List Block}

theorem Row.le (hr : Row h p t bs) : p ≤ t := by
  induction bs generalizing p with
  | nil => exact (show p = t from hr).le
  | cons b bs ih =>
    have hle := ih hr.2.2.2.2.2
    omega

theorem Row.mem (hr : Row h p t bs) {b : Block} (hb : b ∈ bs) :
    p ≤ b.start ∧ b.start+b.size ≤ t ∧ 32 ≤ b.size ∧ 16 ∣ b.size ∧ b.size < 2^64 ∧
      get h (hdrp b.start) = pack b.size true true := by
  induction bs generalizing p with
  | nil => cases hb
  | cons d bs ih =>
    have ⟨hs, hdvd, hge, hlt, ht, hrest⟩ := hr
    rcases List.mem_cons.mp hb with hbd | hb
    · rw [hbd, hs]
      exact ⟨le_refl p, hrest.le, hge, hdvd, hlt, ht⟩
    · have ⟨hle, hfacts⟩ := ih hrest hb
      exact ⟨by omega, hfacts⟩

theorem Row.aligned (hr : Row h p t bs) (hp : 16 ∣ p) {b : Block} (hb : b ∈ bs) : 16 ∣ b.start := by
  induction bs generalizing p with
  | nil => cases hb
  | cons d bs ih =>
    have ⟨hs, hdvd, _, _, _, hrest⟩ := hr
    rcases List.mem_cons.mp hb with hbd | hb
    · rw [hbd, hs]
      exact hp
    · exact ih hrest (dvd_add hp hdvd) hb

theorem Row.end_aligned (hr : Row h p t bs) (hp : 16 ∣ p) : 16 ∣ t := by
  induction bs generalizing p with
  | nil =>
    rw [← show p = t from hr]
    exact hp
  | cons d bs ih => exact ih hr.2.2.2.2.2 (dvd_add hp hr.2.1)

/-- One block lies behind the other. -/
theorem Row.sorted (hr : Row h p t bs) : bs.Pairwise fun b d => b.start+b.size ≤ d.start := by
  induction bs generalizing p with
  | nil => exact List.Pairwise.nil
  | cons b bs ih =>
    have ⟨hs, _, _, _, _, hrest⟩ := hr
    refine List.pairwise_cons.mpr ⟨fun d hd => ?_, ih hrest⟩
    rw [hs]
    exact (hrest.mem hd).1

theorem Row.append (hr : Row h p t bs) {s : ℕ} (hs : 16 ∣ s) (hge : 32 ≤ s) (hlt : s < 2^64)
    (ht : get h (hdrp t) = pack s true true) : Row h p (t+s) (bs++[⟨t, s⟩]) := by
  induction bs generalizing p with
  | nil =>
    have hpt : p = t := hr
    rw [hpt]
    exact ⟨rfl, hs, hge, hlt, ht, rfl⟩
  | cons b bs ih =>
    have ⟨hstart, hdvd, hbge, hblt, hbt, hrest⟩ := hr
    exact ⟨hstart, hdvd, hbge, hblt, hbt, ih hrest⟩

/-- Only the headers matter. -/
theorem Row.congr (hr : Row h p t bs) (hp : 8 ≤ p)
    (hmem : ∀ x, p ≤ x+8 → x+8 < t → (∀ b ∈ bs, ¬ b.Payload x) → h'.mem x = h.mem x) : Row h' p t bs := by
  induction bs generalizing p with
  | nil => exact hr
  | cons b bs ih =>
    have ⟨hs, hdvd, hge, hlt, ht, hrest⟩ := hr
    have hle := hrest.le
    have hhead : get h' (hdrp p) = get h (hdrp p) := by
      refine get_congr fun x hx hx' => ?_
      rw [hdrp, wsize] at hx hx'
      refine hmem x (by omega) (by omega) fun d hd hin => ?_
      have hstart := (hr.mem hd).1
      have hfirst := hin.1
      omega
    refine ⟨hs, hdvd, hge, hlt, hhead.trans ht, ih hrest (by omega) fun x hx hxt hout => ?_⟩
    refine hmem x (by omega) hxt fun d hd hin => ?_
    rcases List.mem_cons.mp hd with hdb | hd
    · rw [hdb, Block.Payload] at hin
      omega
    · exact hout d hd hin

end Rows

/-! ## The heap between the calls -/

/-- A prologue, allocated blocks up to `t` and `c` bytes behind them. -/
structure Laid (h : Heap) (bs : List Block) (t c : ℕ) : Prop where
  aligned : 16 ∣ h.listp
  low : 16 ≤ h.listp
  header : get h (hdrp h.listp) = pack dsize true true
  footer : get h h.listp = pack dsize true true
  row : Row h (h.listp+dsize) t bs
  brk : h.brk = t+c
  bound : h.brk ≤ 2^64
  rest : 16 ∣ c

/-- The free lists hold at most the block at `t`. -/
def Lists (h : Heap) (t c : ℕ) : Prop := ∀ id < freeListNum,
  h.freeListHeads id = (if c ≠ 0 ∧ id = getFreeListHeadId c then t else 0) ∧
  h.freeListTails id = (if c ≠ 0 ∧ id = getFreeListHeadId c then t else 0)

/-- A free block of `c` bytes at `t`, or none when `c` is 0, and the epilogue. -/
structure Settled (h : Heap) (bs : List Block) (t c : ℕ) : Prop extends Laid h bs t c where
  lists : Lists h t c
  full : c = 0 → get h (hdrp t) = pack 0 true true
  free : c ≠ 0 → 32 ≤ c ∧ get h (hdrp t) = pack c true false ∧ get h (t+c-dsize) = pack c true false ∧
    get h (hdrp (t+c)) = pack 0 false true ∧ get h t = 0 ∧ get h (t+8) = 0

/-- A free block of `c` bytes at `t` which is in no list. -/
structure Ready (h : Heap) (bs : List Block) (t c : ℕ) : Prop extends Laid h bs t c where
  lists : Lists h t 0
  size : 32 ≤ c
  tag : get h (hdrp t) = pack c true false
  foot : get h (t+c-dsize) = pack c true false
  epilogue : get h (hdrp (t+c)) = pack 0 false true

section Frames

variable {h h' : Heap} {bs : List Block} {t c : ℕ}

theorem Laid.low_end (hl : Laid h bs t c) : 32 ≤ t := by
  have hle := hl.row.le
  have hlow := hl.low
  rw [dsize] at hle
  omega

theorem Laid.end_aligned (hl : Laid h bs t c) : 16 ∣ t :=
  hl.row.end_aligned (dvd_add hl.aligned (dvd_refl 16))

/-- Changes behind the last allocated block, or inside of payloads. -/
theorem Laid.congr (hl : Laid h bs t c) (hlist : h'.listp = h.listp) {c' : ℕ} (hbrk : h'.brk = t+c')
    (hbound : h'.brk ≤ 2^64) (hrest : 16 ∣ c')
    (hmem : ∀ x, x+8 < t → (∀ b ∈ bs, ¬ b.Payload x) → h'.mem x = h.mem x) : Laid h' bs t c' := by
  have hlow := hl.low
  have hle := hl.row.le
  have hstart : ∀ x, x < h.listp+8 → h'.mem x = h.mem x := by
    intro x hx
    rw [dsize] at hle
    refine hmem x (by omega) fun b hb hin => ?_
    have hb' := (hl.row.mem hb).1
    have hin' := hin.1
    rw [dsize] at hb'
    omega
  refine ⟨?_, ?_, ?_, ?_, ?_, hbrk, hbound, hrest⟩
  · rw [hlist]
    exact hl.aligned
  · rw [hlist]
    exact hlow
  · rw [hlist, ← hl.header]
    refine get_congr fun x _ hx => hstart x ?_
    rw [hdrp, wsize] at hx
    omega
  · rw [hlist, ← hl.footer]
    exact get_congr fun x _ hx => hstart x hx
  · rw [hlist]
    refine hl.row.congr ?_ fun x _ hx hout => hmem x hx hout
    rw [dsize]
    omega

theorem Settled.congr (hs : Settled h bs t c) (hlist : h'.listp = h.listp) (hbrk : h'.brk = h.brk)
    (hheads : h'.freeListHeads = h.freeListHeads) (htails : h'.freeListTails = h.freeListTails)
    (hmem : ∀ x, (∀ b ∈ bs, ¬ b.Payload x) → h'.mem x = h.mem x) : Settled h' bs t c := by
  have htop : ∀ x, t ≤ x+8 → h'.mem x = h.mem x := by
    intro x hx
    refine hmem x fun b hb hin => ?_
    have hend := (hs.row.mem hb).2.1
    have hin' := hin.2
    omega
  have hget : ∀ a, t ≤ a+8 → get h' a = get h a :=
    fun a ha => get_congr fun x hx _ => htop x (by omega)
  have hlow := hs.low_end
  have hlaid : Laid h' bs t c := hs.toLaid.congr hlist (by rw [hbrk, hs.brk]) (by rw [hbrk]; exact hs.bound)
    hs.rest fun x _ hout => hmem x hout
  refine ⟨hlaid, ?_, fun hc => ?_, fun hc => ?_⟩
  · rw [Lists, hheads, htails]
    exact hs.lists
  · rw [hget _ (by rw [hdrp, wsize]; omega)]
    exact hs.full hc
  · have ⟨hge, htag, hfoot, hep, hprev, hnext⟩ := hs.free hc
    rw [hget (hdrp t) (by rw [hdrp, wsize]; omega), hget (t+c-dsize) (by rw [dsize]; omega),
      hget (hdrp (t+c)) (by rw [hdrp, wsize]; omega), hget t (by omega), hget (t+8) (by omega)]
    exact ⟨hge, htag, hfoot, hep, hprev, hnext⟩

end Frames

end BabyOS.HeapBlocks
